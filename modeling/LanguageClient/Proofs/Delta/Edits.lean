import LanguageClient.Proofs.Delta.Compose
import LanguageClient.Proofs.Text.Bytes

namespace LanguageClient.Delta

section Edit

variable {length : Nat} {e : Edit} {d : Delta}

theorem exists_ofEdit (hle : e.start ≤ e.stop) (hstop : e.stop ≤ length) :
    ∃ d, ofEdit length e = .ok d := by
  simp [ofEdit, Nat.not_lt_of_le hle, Nat.not_lt_of_le hstop]

variable (h : ofEdit length e = .ok d)
include h

theorem bounds_of_ofEdit : e.start ≤ e.stop ∧ e.stop ≤ length := by
  unfold ofEdit at h
  split at h
  · cases h
  · omega

theorem eq_of_ofEdit :
    d = ofSpans [.kept e.start, .replaced (e.stop - e.start) (Text.size e.insert),
      .kept (length - e.stop)] := by
  unfold ofEdit at h
  split at h
  · cases h
  · exact (Except.ok.inj h).symm

theorem isNormal_of_ofEdit : d.IsNormal := by
  rw [eq_of_ofEdit h]
  exact Span.normal_foldr_cons _

theorem oldLength_of_ofEdit : d.oldLength = length := by
  have := bounds_of_ofEdit h
  rw [eq_of_ofEdit h]
  simp [ofSpans, oldLength, Span.oldTotal, Span.oldLength]
  omega

theorem newLength_of_ofEdit :
    d.newLength = e.start + Text.size e.insert + (length - e.stop) := by
  rw [eq_of_ofEdit h]
  simp [ofSpans, newLength, Span.newTotal, Span.newLength]
  omega

theorem image_of_ofEdit {α : Type} (xs : List (Option α)) (hxs : xs.length = length) :
    d.image xs =
      xs.take e.start ++ List.replicate (Text.size e.insert) none ++ xs.drop e.stop := by
  obtain ⟨hle, hstop⟩ := bounds_of_ofEdit h
  rw [eq_of_ofEdit h]
  simp [ofSpans, image, Span.image, Span.front, Span.oldLength, hle,
    List.take_of_length_le, hxs]

end Edit

section Edits

variable {d d' : Delta} {e : Edit} {edits : List Edit}

theorem exists_step_of_andThen (h : d.andThen e = .ok d') :
    ∃ step, ofEdit d.newLength e = .ok step ∧ d.compose step = .ok d' :=
  exists_of_bind_eq_ok h

theorem exists_of_foldlM_cons (h : (e :: edits).foldlM andThen d = .ok d') :
    ∃ step next, ofEdit d.newLength e = .ok step ∧ d.compose step = .ok next ∧
      edits.foldlM andThen next = .ok d' := by
  rw [List.foldlM_cons] at h
  obtain ⟨next, hnext, hrest⟩ := exists_of_bind_eq_ok h
  obtain ⟨step, hstep, hcompose⟩ := exists_step_of_andThen hnext
  exact ⟨step, next, hstep, hcompose, hrest⟩

theorem foldlM_andThen_keeps (hd : d.IsNormal) (h : edits.foldlM andThen d = .ok d') :
    d'.oldLength = d.oldLength ∧ d'.IsNormal := by
  induction edits generalizing d with
  | nil =>
    cases h
    exact ⟨rfl, hd⟩
  | cons e edits ih =>
    obtain ⟨step, next, -, hcompose, h⟩ := exists_of_foldlM_cons h
    obtain ⟨hold, hnormal⟩ := ih (isNormal_of_compose hcompose) h
    exact ⟨hold.trans (oldLength_of_compose hcompose), hnormal⟩

variable {length : Nat}

theorem oldLength_of_ofEdits (h : ofEdits length edits = .ok d) : d.oldLength = length := by
  rw [(foldlM_andThen_keeps (isNormal_identity length) h).1, oldLength_identity]

theorem isNormal_of_ofEdits (h : ofEdits length edits = .ok d) : d.IsNormal :=
  (foldlM_andThen_keeps (isNormal_identity length) h).2

theorem ofEdits_cons (length : Nat) (e : Edit) (edits : List Edit) :
    ofEdits length (e :: edits) = (do edits.foldlM andThen (← ofEdit length e)) := by
  rw [ofEdits, List.foldlM_cons, andThen, newLength_identity]
  cases hstep : ofEdit length e with
  | error f => rfl
  | ok step =>
    have hid : (identity length).compose step = .ok step := by
      rw [← oldLength_of_ofEdit hstep]
      exact identity_compose (isNormal_of_ofEdit hstep)
    change (do edits.foldlM andThen (← (identity length).compose step)) = _
    rw [hid]

theorem ofEdits_pair {e e' : Edit} {d' : Delta} {spans : List Span} (h : ofEdit length e = .ok d)
    (h' : ofEdit d.newLength e' = .ok d') (hspans : Span.merge d.spans d'.spans = some spans) :
    ofEdits length [e, e'] = .ok ⟨spans⟩ := by
  have hlength : d.newLength = d'.oldLength := (oldLength_of_ofEdit h').symm
  rw [ofEdits_cons, h]
  change [e'].foldlM andThen d = .ok ⟨spans⟩
  rw [List.foldlM_cons, andThen, h']
  change (d.compose d' >>= _) = _
  rw [compose, if_pos hlength, hspans]
  rfl

theorem foldlM_andThen (hd : d.IsNormal) (edits : List Edit) :
    edits.foldlM andThen d = (do d.compose (← ofEdits d.newLength edits)) := by
  induction edits generalizing d with
  | nil => exact (compose_identity hd).symm
  | cons e edits ih =>
    rw [List.foldlM_cons, ofEdits_cons, andThen]
    cases hstep : ofEdit d.newLength e with
    | error f => rfl
    | ok step =>
      obtain ⟨next, hnext⟩ := exists_compose (oldLength_of_ofEdit hstep).symm
      change (do edits.foldlM andThen (← d.compose step)) =
        (do d.compose (← edits.foldlM andThen step))
      rw [hnext, ih (isNormal_of_ofEdit hstep)]
      change edits.foldlM andThen next = _
      rw [ih (isNormal_of_compose hnext), newLength_of_compose hnext]
      cases hrest : ofEdits step.newLength edits with
      | error f => rfl
      | ok rest =>
        -- `next` is `d` and `step`, so associativity takes `d` out to the front
        obtain ⟨all, hall⟩ := exists_compose (oldLength_of_ofEdits hrest).symm
        change next.compose rest = (do d.compose (← step.compose rest))
        rw [hall]
        exact compose_assoc hnext hall

theorem ofEdits_append (length : Nat) (xs ys : List Edit) :
    ofEdits length (xs ++ ys) = (do
      let d ← ofEdits length xs
      d.compose (← ofEdits d.newLength ys)) := by
  rw [ofEdits, List.foldlM_append]
  change (do ys.foldlM andThen (← ofEdits length xs)) = _
  cases hxs : ofEdits length xs with
  | error f => rfl
  | ok d => exact foldlM_andThen (isNormal_of_ofEdits hxs) ys

theorem ofEdits_append_eq_error_iff (length : Nat) (xs ys : List Edit) (f : Fault) :
    ofEdits length (xs ++ ys) = .error f ↔
      ofEdits length xs = .error f ∨
        ∃ d, ofEdits length xs = .ok d ∧ ofEdits d.newLength ys = .error f := by
  rw [ofEdits_append]
  cases hxs : ofEdits length xs with
  | error g => simp [bind, Except.bind]
  | ok d =>
    cases hys : ofEdits d.newLength ys with
    | error g => simp [bind, Except.bind, hys]
    | ok e =>
      obtain ⟨all, hall⟩ := exists_compose (oldLength_of_ofEdits hys).symm
      simp [bind, Except.bind, hys, hall]

end Edits

end LanguageClient.Delta
