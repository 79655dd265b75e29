import LanguageClient.Proofs.Text.Position

/-!
Edits of one text at the same time.

`Edit.weave` reads a text from front to back: at each offset it puts in what the edits there insert, and
passes a byte on unless an edit covers it. Edits that are applied one after another from back to front
do just that, with the last of them first (`exists_applyAll`). The order of edits matters to a weave
only where several of them insert at one offset.
-/

namespace LanguageClient.Edit

open Text (bytes byteLength IsBoundary)

variable {e : Edit} {edits xs ys : List Edit} {text : String} {k n : Nat}

def landing (k : Nat) (edits : List Edit) : List UInt8 :=
  (edits.filter (·.start == k)).flatMap fun e => bytes e.insert

def covers (k : Nat) (edits : List Edit) : Bool :=
  edits.any fun e => e.start ≤ k && k < e.stop

/-- The bytes behind offset `k` with all edits made at once. -/
def weave (edits : List Edit) : Nat → List UInt8 → List UInt8
  | k, [] => landing k edits
  | k, b :: bs => landing k edits ++ (if covers k edits then [] else [b]) ++ weave edits (k + 1) bs

def isInsertion (e : Edit) : Bool :=
  e.start == e.stop

structure Fits (text : String) (e : Edit) : Prop where
  ordered : e.start ≤ e.stop
  start : IsBoundary text.toList e.start
  stop : IsBoundary text.toList e.stop

structure Ascends (edits : List Edit) : Prop where
  ordered : ∀ e ∈ edits, e.start ≤ e.stop
  apart : edits.Pairwise fun e f => e.stop ≤ f.start

def EndBy (n : Nat) (edits : List Edit) : Prop :=
  ∀ e ∈ edits, e.start ≤ e.stop ∧ e.stop ≤ n

section Landing

@[simp] theorem landing_append (k : Nat) (xs ys : List Edit) :
    landing k (xs ++ ys) = landing k xs ++ landing k ys := by
  simp [landing]

theorem landing_cons (k : Nat) (e : Edit) (edits : List Edit) :
    landing k (e :: edits) = (if e.start = k then bytes e.insert else []) ++ landing k edits := by
  by_cases h : e.start = k <;> simp [landing, h]

theorem landing_singleton (k : Nat) (e : Edit) :
    landing k [e] = if e.start = k then bytes e.insert else [] :=
  (landing_cons k e []).trans (List.append_nil _)

theorem landing_of_ne (h : ∀ e ∈ edits, e.start ≠ k) : landing k edits = [] := by
  have hnone : edits.filter (·.start == k) = [] := by simpa using h
  rw [landing, hnone]
  rfl

theorem length_landing_perm (h : xs.Perm ys) (k : Nat) :
    (landing k xs).length = (landing k ys).length :=
  ((h.filter _).flatMap_right _).length_eq

theorem covers_perm (h : xs.Perm ys) (k : Nat) : covers k xs = covers k ys :=
  h.any_eq

theorem covers_of_endBy (h : EndBy k edits) : covers k edits = false := by
  simp only [covers, List.any_eq_false, Bool.and_eq_true, decide_eq_true_eq, not_and, Nat.not_lt]
  intro e he _
  exact (h e he).2

theorem landing_of_endBy (h : EndBy n edits) (hlt : n < k) : landing k edits = [] := by
  apply landing_of_ne
  intro e he
  have := h e he
  omega

theorem EndBy.mono (h : EndBy n edits) (hle : n ≤ k) : EndBy k edits :=
  fun e he => ⟨(h e he).1, Nat.le_trans (h e he).2 hle⟩

end Landing

section Weave

theorem weave_of_endBy (h : EndBy k edits) (bs : List UInt8) :
    weave edits k bs = landing k edits ++ bs := by
  induction bs generalizing k with
  | nil => simp [weave]
  | cons b bs ih =>
    have hnext : EndBy (k + 1) edits := h.mono (Nat.le_succ k)
    rw [weave, ih hnext, landing_of_endBy h (Nat.lt_succ_self k), covers_of_endBy h]
    simp

theorem weave_covered (h : EndBy e.start xs) {removed : List UInt8} (hstart : e.start ≤ k)
    (hstop : k + removed.length = e.stop) (bs : List UInt8) :
    weave (xs ++ [e]) k (removed ++ bs) = landing k (xs ++ [e]) ++ bs := by
  have hends : EndBy e.stop (xs ++ [e]) := by
    intro x hx
    cases List.mem_append.mp hx with
    | inl hx => exact h.mono (by omega) x hx
    | inr hx =>
      rw [List.mem_singleton.mp hx]
      omega
  induction removed generalizing k with
  | nil =>
    rw [List.length_nil, Nat.add_zero] at hstop
    exact weave_of_endBy (hstop ▸ hends) bs
  | cons b removed ih =>
    rw [List.length_cons] at hstop
    have hcovers : covers k (xs ++ [e]) = true := by
      have hlt : k < e.stop := by omega
      simp [covers, hstart, hlt]
    have hnone : landing (k + 1) (xs ++ [e]) = [] := by
      apply landing_of_ne
      intro x hx
      cases List.mem_append.mp hx with
      | inl hx =>
        have := h x hx
        omega
      | inr hx =>
        rw [List.mem_singleton.mp hx]
        omega
    rw [List.cons_append, weave, ih (by omega) (by omega), hcovers, hnone]
    simp

theorem weave_concat (h : EndBy e.start xs) {before removed : List UInt8}
    (hstart : k + before.length = e.start) (hstop : e.start + removed.length = e.stop)
    (bs : List UInt8) :
    weave (xs ++ [e]) k (before ++ removed ++ bs) = weave xs k (before ++ bytes e.insert ++ bs) := by
  induction before generalizing k with
  | nil =>
    obtain rfl : k = e.start := hstart
    rw [List.nil_append, List.nil_append, weave_covered h (Nat.le_refl _) hstop, weave_of_endBy h,
      landing_append, landing_singleton, if_pos rfl, List.append_assoc]
  | cons b before ih =>
    rw [List.length_cons] at hstart
    have hcovers : covers k (xs ++ [e]) = covers k xs := by
      have hgt : ¬ e.start ≤ k := by omega
      simp [covers, hgt]
    rw [List.cons_append, List.cons_append, weave, ih (by omega), landing_append,
      landing_singleton, if_neg (by omega), List.append_nil, hcovers]
    rfl

end Weave

section Apply

theorem exists_apply (h : e.Fits text) : ∃ text', e.apply text = .ok text' := by
  obtain ⟨before, rest, htext, hstart⟩ := Text.isBoundary_iff.mp h.start
  have hstop := h.stop
  rw [htext] at hstop
  have hle : byteLength before ≤ e.stop := hstart ▸ h.ordered
  obtain ⟨removed, after, rfl, hlength⟩ :=
    Text.isBoundary_iff.mp (Text.isBoundary_of_append hle hstop)
  exact ⟨_, apply_eq_ok_iff.mpr
    ⟨before, removed, after, by rw [htext, List.append_assoc], hstart, by omega, rfl⟩⟩

theorem isBoundary_apply {text' : String} (h : e.apply text = .ok text') (hle : n ≤ e.start)
    (hn : IsBoundary text.toList n) : IsBoundary text'.toList n := by
  obtain ⟨before, removed, after, htext, hstart, -, rfl⟩ := apply_eq_ok_iff.mp h
  rw [htext, List.append_assoc] at hn
  rw [String.toList_ofList, List.append_assoc]
  exact Text.isBoundary_front _ (hstart ▸ hle) hn

theorem Fits.of_apply {f : Edit} {text' : String} (h : e.apply text = .ok text') (hf : f.Fits text)
    (hle : f.stop ≤ e.start) : f.Fits text' :=
  ⟨hf.ordered, isBoundary_apply h (Nat.le_trans hf.ordered hle) hf.start,
    isBoundary_apply h hle hf.stop⟩

theorem exists_applyAll (hfits : ∀ e ∈ edits, e.Fits text) (hback : Ascends edits.reverse) :
    ∃ text', applyAll edits text = .ok text' ∧
      bytes text' = weave edits.reverse 0 (bytes text) := by
  induction edits generalizing text with
  | nil =>
    refine ⟨text, rfl, ?_⟩
    have hnone : EndBy 0 [] := List.forall_mem_nil _
    exact (weave_of_endBy hnone (bytes text)).symm
  | cons e rest ih =>
    obtain ⟨hbefore, hrest⟩ := List.pairwise_cons.mp (List.pairwise_reverse.mp hback.apart)
    obtain ⟨mid, hmid⟩ := exists_apply (hfits e List.mem_cons_self)
    have hfits' : ∀ f ∈ rest, f.Fits mid := fun f hf =>
      (hfits f (List.mem_cons_of_mem e hf)).of_apply hmid (hbefore f hf)
    have hback' : Ascends rest.reverse :=
      ⟨fun f hf => (hfits' f (List.mem_reverse.mp hf)).ordered, List.pairwise_reverse.mpr hrest⟩
    obtain ⟨text', hall, hbytes⟩ := ih hfits' hback'
    refine ⟨text', ?_, ?_⟩
    · rw [applyAll, List.foldlM_cons, hmid]
      exact hall
    · obtain ⟨before, removed, after, htext, hstart, hstop, rfl⟩ := apply_eq_ok_iff.mp hmid
      have hends : EndBy e.start rest.reverse := fun f hf =>
        have hf := List.mem_reverse.mp hf
        ⟨(hfits f (List.mem_cons_of_mem e hf)).ordered, hbefore f hf⟩
      have hsplit : bytes text =
          Utf8.encode before ++ Utf8.encode removed ++ Utf8.encode after := by
        rw [bytes, htext, Text.encode_append, Text.encode_append]
      rw [hbytes, List.reverse_cons, hsplit, weave_concat hends (by simp [hstart]) (by simp; omega)]
      simp [bytes]

example :
    weave [⟨0, 0, "A"⟩, ⟨0, 1, "B"⟩, ⟨2, 2, "C"⟩] 0 (bytes "xyz") = bytes "AByCz" := rfl

end Apply

section Order

theorem weave_eq_iff (h : xs.Perm ys) (k : Nat) (bs : List UInt8) :
    weave xs k bs = weave ys k bs ↔ ∀ i ≤ bs.length, landing (k + i) xs = landing (k + i) ys := by
  induction bs generalizing k with
  | nil => simp [weave]
  | cons b bs ih =>
    have hhere := length_landing_perm h k
    rw [weave, weave, covers_perm h, List.append_assoc, List.append_assoc]
    constructor
    · intro hweave
      obtain ⟨hfirst, hrest⟩ := List.append_inj hweave hhere
      have hlater := (ih (k + 1)).mp (List.append_cancel_left hrest)
      intro i hi
      cases i with
      | zero => exact hfirst
      | succ i =>
        have := hlater i (Nat.le_of_succ_le_succ hi)
        rwa [Nat.add_assoc, Nat.add_comm 1] at this
    · intro hlanding
      have hlater : weave xs (k + 1) bs = weave ys (k + 1) bs := by
        refine (ih (k + 1)).mpr fun i hi => ?_
        have := hlanding (i + 1) (Nat.succ_le_succ hi)
        rwa [Nat.add_assoc, Nat.add_comm 1]
      have hfirst : landing k xs = landing k ys := hlanding 0 (Nat.zero_le _)
      rw [hlater, hfirst]

theorem landing_of_ascends (h : Ascends xs) (k : Nat) :
    landing k xs = landing k (xs.filter isInsertion) ++ landing k (xs.filter (!·.isInsertion)) := by
  induction xs with
  | nil => rfl
  | cons x xs ih =>
    obtain ⟨hbehind, hapart⟩ := List.pairwise_cons.mp h.apart
    have hrest := ih ⟨fun e he => h.ordered e (List.mem_cons_of_mem x he), hapart⟩
    cases hx : x.isInsertion with
    | true => simp [landing_cons, hx, hrest]
    | false =>
      by_cases hstart : x.start = k
      · -- what follows begins behind `x`, and so behind `k`
        have hlt : k < x.stop := by
          have := h.ordered x List.mem_cons_self
          simp only [isInsertion, beq_eq_false_iff_ne] at hx
          omega
        have hnone : ∀ e ∈ xs, e.start ≠ k := fun e he =>
          Nat.ne_of_gt (Nat.lt_of_lt_of_le hlt (hbehind e he))
        have hinsertions : landing k (xs.filter isInsertion) = [] :=
          landing_of_ne fun e he => hnone e (List.mem_filter.mp he).1
        rw [List.filter_cons_of_neg (by simp [hx]), List.filter_cons_of_pos (by simp [hx]),
          hinsertions, landing_cons, landing_cons, landing_of_ne hnone, landing_of_ne]
        · rfl
        · exact fun e he => hnone e ((List.mem_filter.mp he).1)
      · simp [landing_cons, hx, hstart, hrest]

theorem landing_replacements (hxs : Ascends xs) (hys : Ascends ys) (h : xs.Perm ys) (k : Nat) :
    landing k (xs.filter (!·.isInsertion)) = landing k (ys.filter (!·.isInsertion)) := by
  have hfilter : (xs.filter (!·.isInsertion)).filter (·.start == k) =
      (ys.filter (!·.isInsertion)).filter (·.start == k) := by
    refine List.Perm.eq_of_pairwise ?_ ((hxs.apart.filter _).filter _)
      ((hys.apart.filter _).filter _) ((h.filter _).filter _)
    intro e f he hf hle _
    simp only [List.mem_filter, isInsertion, Bool.not_eq_true', beq_eq_false_iff_ne,
      beq_iff_eq] at he hf
    have := hxs.ordered e he.1.1
    omega
  rw [landing, landing, hfilter]

/-- Two orders of the same edits come to the same if they agree on the insertions at each offset. -/
theorem landing_eq_iff (hxs : Ascends xs) (hys : Ascends ys) (h : xs.Perm ys) (k : Nat) :
    landing k xs = landing k ys ↔
      landing k (xs.filter isInsertion) = landing k (ys.filter isInsertion) := by
  rw [landing_of_ascends hxs, landing_of_ascends hys, landing_replacements hxs hys h,
    List.append_left_inj]

theorem weave_bytes_eq_iff (hxs : Ascends xs) (hys : Ascends ys) (h : xs.Perm ys)
    (hfits : ∀ e ∈ xs, e.Fits text) :
    weave xs 0 (bytes text) = weave ys 0 (bytes text) ↔
      ∀ k, landing k (xs.filter isInsertion) = landing k (ys.filter isInsertion) := by
  rw [weave_eq_iff h]
  simp only [Nat.zero_add, ← landing_eq_iff hxs hys h]
  constructor
  · intro hlanding k
    cases Nat.lt_or_ge (bytes text).length k with
    | inr hle => exact hlanding k hle
    | inl hlt =>
      have hends : EndBy (bytes text).length xs := fun e he =>
        ⟨(hfits e he).ordered, Text.length_bytes text ▸ Text.le_of_isBoundary (hfits e he).stop⟩
      have hends' : EndBy (bytes text).length ys := fun e he => hends e (h.mem_iff.mpr he)
      rw [landing_of_endBy hends hlt, landing_of_endBy hends' hlt]
  · exact fun hlanding i _ => hlanding i

end Order

end LanguageClient.Edit
