import LanguageClient.Proofs.Delta.Edits
import LanguageClient.Proofs.Text.Position

namespace LanguageClient

open Text (byteLength)

namespace Span

def Takes : Span → List Char → List Char → Prop
  | kept n, a, b => a = b ∧ byteLength a = n
  | replaced d i, a, b => byteLength a = d ∧ byteLength b = i

/-- Spans that cut an old text and a new one into pieces. -/
def Carries : List Span → List Char → List Char → Prop
  | [], cs, ds => cs = [] ∧ ds = []
  | s :: rest, cs, ds =>
    ∃ a b cs' ds', cs = a ++ cs' ∧ ds = b ++ ds' ∧ s.Takes a b ∧ Carries rest cs' ds'

variable {x y s : Span} {rest spans : List Span} {a b c e cs ds es : List Char} {n : Nat}

theorem Takes.oldLength (h : s.Takes a b) : byteLength a = s.oldLength := by
  cases s with
  | kept n => exact h.2
  | replaced d i => exact h.1

theorem Takes.newLength (h : s.Takes a b) : byteLength b = s.newLength := by
  cases s with
  | kept n => exact h.1 ▸ h.2
  | replaced d i => exact h.2

section Through

theorem Takes.through (hx : x.Takes a b) (hy : y.Takes b e) : (through x y x.newLength).Takes a e := by
  cases x with
  | kept n =>
    obtain ⟨rfl, rfl⟩ := hx
    cases y with
    | kept m => exact ⟨hy.1, rfl⟩
    | replaced d i => exact ⟨rfl, hy.2⟩
  | replaced d i =>
    obtain ⟨rfl, rfl⟩ := hx
    cases y with
    | kept m => exact ⟨rfl, hy.1 ▸ rfl⟩
    | replaced d' i' => exact ⟨rfl, hy.2⟩

theorem Takes.through_dropOld (hx : x.Takes a b) (hy : y.Takes (b ++ c) e) :
    ∃ e₁ e₂, e = e₁ ++ e₂ ∧ (Span.through x y x.newLength).Takes a e₁ ∧
      (y.dropOld x.newLength).Takes c e₂ := by
  rw [← hx.newLength]
  cases y with
  | kept m =>
    obtain ⟨rfl, rfl⟩ := hy
    refine ⟨b, c, rfl, ?_, rfl, by simp⟩
    cases x with
    | kept n => exact ⟨hx.1, hx.1 ▸ rfl⟩
    | replaced d i => exact ⟨hx.1, rfl⟩
  | replaced d i =>
    obtain ⟨rfl, rfl⟩ := hy
    refine ⟨e, [], (List.append_nil e).symm, ?_, by simp, rfl⟩
    cases x with
    | kept n => exact ⟨hx.1 ▸ rfl, rfl⟩
    | replaced d' i' => exact ⟨hx.1, rfl⟩

theorem Takes.through_dropNew (hx : x.Takes a (b ++ c)) (hy : y.Takes b e) :
    ∃ a₁ a₂, a = a₁ ++ a₂ ∧ (Span.through x y y.oldLength).Takes a₁ e ∧
      (x.dropNew y.oldLength).Takes a₂ c := by
  rw [← hy.oldLength]
  cases x with
  | kept m =>
    obtain ⟨rfl, rfl⟩ := hx
    refine ⟨b, c, rfl, ?_, rfl, by simp⟩
    cases y with
    | kept n => exact ⟨hy.1, rfl⟩
    | replaced d i => exact ⟨rfl, hy.2⟩
  | replaced d i =>
    obtain ⟨rfl, rfl⟩ := hx
    refine ⟨a, [], (List.append_nil a).symm, ?_, rfl, by simp⟩
    cases y with
    | kept n => exact ⟨rfl, hy.1 ▸ rfl⟩
    | replaced d' i' => exact ⟨rfl, hy.2⟩

end Through

theorem carries_cons (h : Carries (s :: rest) cs ds) : Carries (cons s rest) cs ds := by
  fun_cases cons s rest with
  | case1 =>
    obtain ⟨a, b, cs', ds', rfl, rfl, ⟨rfl, hlength⟩, hrest⟩ := h
    rw [Text.eq_nil_of_byteLength hlength]
    exact hrest
  | case2 n m rest =>
    obtain ⟨a, b, cs', ds', rfl, rfl, ⟨rfl, rfl⟩, a', b', cs, ds, rfl, rfl, ⟨rfl, rfl⟩, hrest⟩ := h
    exact ⟨a ++ a', a ++ a', cs, ds, by simp, by simp, ⟨rfl, by simp⟩, hrest⟩
  | case4 =>
    obtain ⟨a, b, cs', ds', rfl, rfl, ⟨ha, hb⟩, hrest⟩ := h
    rw [Text.eq_nil_of_byteLength ha, Text.eq_nil_of_byteLength hb]
    exact hrest
  | case5 d i d' i' rest =>
    obtain ⟨a, b, cs', ds', rfl, rfl, ⟨rfl, rfl⟩, a', b', cs, ds, rfl, rfl, ⟨rfl, rfl⟩, hrest⟩ := h
    exact ⟨a ++ a', b ++ b', cs, ds, by simp, by simp, ⟨by simp, by simp⟩, hrest⟩
  | case3 | case6 => exact h

theorem carries_merge {xs ys spans : List Span} (hx : Carries xs cs ds) (hy : Carries ys ds es)
    (h : merge xs ys = some spans) : Carries spans cs es := by
  -- each step of `merge` uses up one of the two facing spans, or both
  fun_induction merge xs ys generalizing cs ds es spans with
  | case1 =>
    cases h
    exact ⟨hx.1, hy.2⟩
  | case2 x xs hnew ih =>
    obtain ⟨spans, hspans, rfl⟩ := Option.map_eq_some_iff.mp h
    obtain ⟨rfl, rfl⟩ := hy
    obtain ⟨a, b, cs', ds', rfl, hds, htakes, hrest⟩ := hx
    obtain ⟨rfl, rfl⟩ := List.append_eq_nil_iff.mp hds.symm
    exact carries_cons ⟨a, [], cs', [], rfl, rfl, htakes, ih hrest ⟨rfl, rfl⟩ hspans⟩
  | case3 => cases h
  | case4 y ys hold ih =>
    obtain ⟨spans, hspans, rfl⟩ := Option.map_eq_some_iff.mp h
    obtain ⟨rfl, rfl⟩ := hx
    obtain ⟨a, b, ds', es', hds, rfl, htakes, hrest⟩ := hy
    obtain ⟨rfl, rfl⟩ := List.append_eq_nil_iff.mp hds.symm
    exact carries_cons ⟨[], b, [], es', rfl, rfl, htakes, ih ⟨rfl, rfl⟩ hrest hspans⟩
  | case5 => cases h
  | case6 x xs y ys hlt ih =>
    obtain ⟨spans, hspans, rfl⟩ := Option.map_eq_some_iff.mp h
    obtain ⟨a, b, cs', ds', rfl, rfl, hxtakes, hxrest⟩ := hx
    obtain ⟨c, e, ds'', es', hds, rfl, hytakes, hyrest⟩ := hy
    have hle : byteLength b ≤ byteLength c := by
      rw [hxtakes.newLength, hytakes.oldLength]
      exact Nat.le_of_lt hlt
    obtain ⟨c', rfl, rfl⟩ := Text.exists_of_append_eq hds hle
    obtain ⟨e₁, e₂, rfl, hthrough, hdrop⟩ := hxtakes.through_dropOld hytakes
    have hnext := ih hxrest ⟨c', e₂, ds'', es', rfl, rfl, hdrop, hyrest⟩ hspans
    exact carries_cons ⟨a, e₁, cs', e₂ ++ es', rfl, by simp, hthrough, hnext⟩
  | case7 x xs y ys _ heq ih =>
    obtain ⟨spans, hspans, rfl⟩ := Option.map_eq_some_iff.mp h
    obtain ⟨a, b, cs', ds', rfl, rfl, hxtakes, hxrest⟩ := hx
    obtain ⟨c, e, ds'', es', hds, rfl, hytakes, hyrest⟩ := hy
    have hlength : byteLength b = byteLength c := by
      rw [hxtakes.newLength, hytakes.oldLength, heq]
    obtain ⟨c', rfl, rfl⟩ := Text.exists_of_append_eq hds (Nat.le_of_eq hlength)
    obtain rfl : c' = [] := by
      apply Text.eq_nil_of_byteLength
      rw [Text.byteLength_append] at hlength
      omega
    rw [List.append_nil] at hytakes
    exact carries_cons
      ⟨a, e, cs', es', rfl, rfl, hxtakes.through hytakes, ih hxrest hyrest hspans⟩
  | case8 x xs y ys hlt hne ih =>
    obtain ⟨spans, hspans, rfl⟩ := Option.map_eq_some_iff.mp h
    obtain ⟨a, b, cs', ds', rfl, rfl, hxtakes, hxrest⟩ := hx
    obtain ⟨c, e, ds'', es', hds, rfl, hytakes, hyrest⟩ := hy
    have hle : byteLength c ≤ byteLength b := by
      rw [hxtakes.newLength, hytakes.oldLength]
      exact Nat.le_of_not_lt hlt
    obtain ⟨c', rfl, rfl⟩ := Text.exists_of_append_eq hds.symm hle
    obtain ⟨a₁, a₂, rfl, hthrough, hdrop⟩ := hxtakes.through_dropNew hytakes
    have hnext := ih ⟨a₂, c', cs', ds', rfl, rfl, hdrop, hxrest⟩ hyrest hspans
    exact carries_cons ⟨a₁, e, a₂ ++ cs', es', by simp, rfl, hthrough, hnext⟩

theorem carries_identity (cs : List Char) : Carries [kept (byteLength cs)] cs cs :=
  ⟨cs, cs, [], [], by simp, by simp, ⟨rfl, rfl⟩, rfl, rfl⟩

end Span

namespace Delta

variable {d d' : Delta} {text text' text'' : String} {e : Edit} {edits : List Edit}

theorem carries_ofSpans {spans : List Span} {cs ds : List Char} (h : Span.Carries spans cs ds) :
    Span.Carries (ofSpans spans).spans cs ds := by
  rw [ofSpans]
  induction spans generalizing cs ds with
  | nil => exact h
  | cons s rest ih =>
    obtain ⟨a, b, cs', ds', rfl, rfl, htakes, hrest⟩ := h
    exact Span.carries_cons ⟨a, b, cs', ds', rfl, rfl, htakes, ih hrest⟩

theorem carries_of_ofEdit (h : e.apply text = .ok text') (hd : ofEdit (Text.size text) e = .ok d) :
    Span.Carries d.spans text.toList text'.toList := by
  obtain ⟨before, removed, after, htext, hstart, hstop, rfl⟩ := Edit.apply_eq_ok_iff.mp h
  have hremoved : byteLength removed = e.stop - e.start := by omega
  have hafter : byteLength after = Text.size text - e.stop := by
    rw [Text.size, htext, Text.byteLength_append, Text.byteLength_append]
    omega
  rw [eq_of_ofEdit hd]
  apply carries_ofSpans
  refine ⟨before, before, removed ++ after, e.insert.toList ++ after, by simp [htext], by simp,
    ⟨rfl, hstart⟩, removed, e.insert.toList, after, after, rfl, rfl, ⟨hremoved, rfl⟩,
    after, after, [], [], by simp, by simp, ⟨rfl, hafter⟩, rfl, rfl⟩

theorem carries_of_foldlM (h : Edit.applyAll edits text' = .ok text'')
    (hcarries : Span.Carries d.spans text.toList text'.toList) (hnew : d.newLength = Text.size text')
    (hd : edits.foldlM andThen d = .ok d') : Span.Carries d'.spans text.toList text''.toList := by
  induction edits generalizing d text' with
  | nil =>
    cases h
    cases hd
    exact hcarries
  | cons e rest ih =>
    obtain ⟨mid, happly, h⟩ := Edit.exists_of_applyAll_cons h
    obtain ⟨step, next, hstep, hcompose, hd⟩ := exists_of_foldlM_cons hd
    rw [hnew] at hstep
    have hmid := carries_of_ofEdit happly hstep
    obtain ⟨-, hmerge⟩ := merge_of_compose hcompose
    refine ih h (Span.carries_merge hcarries hmid hmerge) ?_ hd
    rw [newLength_of_compose hcompose, newLength_of_ofEdit hstep, Edit.size_of_apply happly]

theorem carries_of_ofEdits (h : Edit.applyAll edits text = .ok text')
    (hd : ofEdits (Text.size text) edits = .ok d) :
    Span.Carries d.spans text.toList text'.toList :=
  carries_of_foldlM h (carries_ofSpans (Span.carries_identity text.toList)) (newLength_identity _) hd

end Delta

end LanguageClient
