import LanguageClient.Proofs.Delta.Regions
import LanguageClient.Proofs.Delta.Touched
import Mathlib.Data.List.Chain

namespace LanguageClient

namespace Region

def Precedes (r r' : Region) : Prop :=
  ∃ gap, 0 < gap ∧ r'.oldStart = r.oldStop + gap ∧ r'.newStart = r.newStop + gap

end Region

namespace Span

variable {spans rest a b : List Span} {s : Span} {old new d i n : Nat}

theorem isEmpty_iff : s.IsEmpty ↔ s = kept 0 ∨ s = replaced 0 0 := by
  cases s <;> simp [IsEmpty, oldLength, newLength]

theorem normal_iff : Normal spans ↔
    (∀ s ∈ spans, s ≠ kept 0 ∧ s ≠ replaced 0 0) ∧
      spans.IsChain fun s t => s.isKept ≠ t.isKept := by
  induction spans with
  | nil => simp [Normal]
  | cons s rest ih =>
    rw [Normal, ih, isEmpty_iff, not_or, List.forall_mem_cons, List.isChain_cons]
    constructor
    · rintro ⟨hs, hnext, hne, hchain⟩
      exact ⟨⟨hs, hne⟩, fun t ht => (hnext t ht).symm, hchain⟩
    · rintro ⟨⟨hs, hne⟩, hnext, hchain⟩
      exact ⟨hs, fun t ht => (hnext t ht).symm, hne, hchain⟩

theorem pos_of_kept (h : Normal (kept n :: rest)) : 0 < n :=
  Nat.pos_of_ne_zero fun hn => h.1 ⟨hn, hn⟩

section Regions

def firstStart (old new : Nat) (spans : List Span) : Nat :=
  (regionsFrom old new spans).head?.elim (old + oldTotal spans) Region.oldStart

theorem firstStart_nil : firstStart old new [] = old := rfl

theorem firstStart_replaced : firstStart old new (replaced d i :: rest) = old := rfl

theorem firstStart_kept (h : Normal (kept n :: rest)) : firstStart old new (kept n :: rest) = old + n := by
  cases rest with
  | nil => rfl
  | cons t rest =>
    cases t with
    | kept m => exact absurd rfl (h.2.1 (kept m) rfl)
    | replaced d i => rfl

theorem firstStart_congr (hregions : regionsFrom old new a = regionsFrom old new b)
    (hlength : oldTotal a = oldTotal b) : firstStart old new a = firstStart old new b := by
  rw [firstStart, firstStart, hregions, hlength]

theorem precedes_of_head? (h : Normal (replaced d i :: rest)) :
    ∀ r ∈ (regionsFrom (old + d) (new + i) rest).head?,
      Region.Precedes ⟨old, old + d, new, new + i⟩ r := by
  intro r hr
  cases rest with
  | nil => cases hr
  | cons s rest =>
    cases s with
    | replaced d' i' => exact absurd rfl (h.2.1 (replaced d' i') rfl)
    | kept n =>
      refine ⟨n, pos_of_kept h.2.2, ?_⟩
      cases rest with
      | nil => cases hr
      | cons t rest =>
        cases t with
        | kept m => exact absurd rfl (h.2.2.2.1 (kept m) rfl)
        | replaced d' i' =>
          cases hr
          exact ⟨rfl, rfl⟩

theorem isChain_regionsFrom (h : Normal spans) (old new : Nat) :
    (regionsFrom old new spans).IsChain Region.Precedes := by
  induction spans generalizing old new with
  | nil => exact .nil
  | cons s rest ih =>
    cases s with
    | kept n => exact ih h.2.2 (old + n) (new + n)
    | replaced d i =>
      exact List.isChain_cons.mpr ⟨precedes_of_head? h, ih h.2.2 (old + d) (new + i)⟩

theorem eq_of_regionsFrom_eq (ha : Normal a) (hb : Normal b)
    (hregions : regionsFrom old new a = regionsFrom old new b) (hlength : oldTotal a = oldTotal b) :
    a = b := by
  induction a generalizing b old new with
  | nil =>
    have hfirst := firstStart_congr hregions hlength
    rw [firstStart_nil] at hfirst
    cases b with
    | nil => rfl
    | cons t b =>
      cases t with
      | kept m =>
        rw [firstStart_kept hb] at hfirst
        exact absurd hfirst (Nat.ne_of_lt (Nat.lt_add_of_pos_right (pos_of_kept hb)))
      | replaced d i => cases hregions
  | cons s a ih =>
    have hfirst := firstStart_congr hregions hlength
    cases s with
    | kept n =>
      have hn := pos_of_kept ha
      rw [firstStart_kept ha] at hfirst
      cases b with
      | nil =>
        rw [firstStart_nil] at hfirst
        omega
      | cons t b =>
        cases t with
        | kept m =>
          rw [firstStart_kept hb] at hfirst
          obtain rfl : n = m := Nat.add_left_cancel hfirst
          rw [ih ha.2.2 hb.2.2 hregions (Nat.add_left_cancel hlength)]
        | replaced d i =>
          rw [firstStart_replaced] at hfirst
          omega
    | replaced d i =>
      cases b with
      | nil => cases hregions
      | cons t b =>
        cases t with
        | kept m =>
          have hm := pos_of_kept hb
          rw [firstStart_replaced, firstStart_kept hb] at hfirst
          omega
        | replaced d' i' =>
          obtain ⟨hregion, hregions⟩ := List.cons.inj hregions
          obtain ⟨rfl, rfl⟩ : d = d' ∧ i = i' := by simpa using hregion
          rw [ih ha.2.2 hb.2.2 hregions (Nat.add_left_cancel hlength)]

theorem regionsFrom_eq_nil_iff : regionsFrom old new spans = [] ↔ spans.all isKept = true := by
  induction spans generalizing old new with
  | nil => simp [regionsFrom]
  | cons s rest ih => cases s <;> simp [regionsFrom, isKept, ih]

end Regions

end Span

namespace Delta

variable {a b d : Delta} {edits : List Edit} {length p j : Nat} {document : List Tagged}

def survivor? (d : Delta) (p : Nat) : Option Nat :=
  if p < d.oldLength ∧ d.touches p (p + 1) = false then d.track p .after else none

theorem survivor?_eq_some_iff (hd : d.IsNormal) :
    d.survivor? p = some j ↔ (d.image (places d.oldLength))[j]? = some (some p) := by
  have hplaces : Span.oldTotal d.spans = (places d.oldLength).length := (length_places _).symm
  constructor
  · intro h
    obtain ⟨⟨hp, hfree⟩, hj⟩ := Option.ite_none_right_eq_some.mp h
    obtain ⟨k, hk⟩ : ∃ k, d.track (p + 1) .before = some k :=
      Span.exists_track nofun (Nat.succ_le_of_lt hp)
    obtain ⟨-, hrange⟩ := Span.getElem?_image_of_clear hd (Nat.le_of_eq hplaces)
      (clear_of_touches hfree) (Nat.lt_succ_self p) hj hk
    exact (hrange 0 (by omega)).trans (getElem?_places hp)
  · intro h
    have hp : p < d.oldLength := by
      simpa [places] using Span.mem_of_some_mem_image (List.mem_of_getElem? h)
    have hplace := getElem?_places hp
    have hclear : Span.Clear 0 0 d.spans p (p + 1) := by
      refine Span.clear_of_getElem?_image (i := j) hd (distinct_places _) hplaces
        (Nat.lt_succ_self p) (by simpa [Nat.succ_le_iff] using hp) fun k hk => ?_
      obtain rfl : k = 0 := by omega
      exact h.trans hplace.symm
    have hfree : d.touches p (p + 1) = false := by
      rw [touches_eq_false_iff]
      intro r hr
      have := hclear r hr
      omega
    rw [survivor?, if_pos ⟨hp, hfree⟩]
    exact Span.track_of_getElem?_image hd (distinct_places _).nodup hplaces hplace h

theorem survivor?_of_ofEdits (h : ofEdits length edits = .ok d)
    (htags : document.map Prod.fst = places length) :
    d.survivor? p = some j ↔ ((Edit.replay edits document).map Prod.fst)[j]? = some (some p) := by
  rw [survivor?_eq_some_iff (isNormal_of_ofEdits h), image_of_ofEdits_replay h htags,
    oldLength_of_ofEdits h]

theorem eq_of_regions (ha : a.IsNormal) (hb : b.IsNormal) (hlength : a.oldLength = b.oldLength)
    (hregions : a.regions = b.regions) : a = b := by
  cases a
  cases b
  exact congrArg mk (Span.eq_of_regionsFrom_eq ha hb hregions hlength)

theorem eq_of_survivors (ha : a.IsNormal) (hb : b.IsNormal) (hold : a.oldLength = b.oldLength)
    (hnew : a.newLength = b.newLength) (h : ∀ p, a.survivor? p = b.survivor? p) : a = b := by
  refine eq_of_image_places ha hb hold ?_
  have hla : (a.image (places a.oldLength)).length = a.newLength := length_image a _ (by simp)
  have hlb : (b.image (places a.oldLength)).length = b.newLength := length_image b _ (by simp [hold])
  refine List.ext_getElem (by rw [hla, hlb, hnew]) fun j hja hjb => Option.ext fun p => ?_
  have hsurvivor : (a.image (places a.oldLength))[j]? = some (some p) ↔
      (b.image (places a.oldLength))[j]? = some (some p) := by
    rw [← survivor?_eq_some_iff ha, h p, hold, survivor?_eq_some_iff hb]
  simpa [List.getElem?_eq_getElem hja, List.getElem?_eq_getElem hjb] using hsurvivor

theorem isIdentity_iff_regions : d.isIdentity = true ↔ d.regions = [] :=
  Span.regionsFrom_eq_nil_iff.symm

theorem regions_identity (length : Nat) : (identity length).regions = [] := by
  cases length <;> rfl

theorem isIdentity_iff (hd : d.IsNormal) : d.isIdentity = true ↔ d = identity d.oldLength := by
  rw [isIdentity_iff_regions]
  constructor
  · intro hregions
    refine eq_of_regions hd (isNormal_identity _) (oldLength_identity _).symm ?_
    rw [hregions, regions_identity]
  · intro h
    rw [h, regions_identity]

def Machine.survivor? (d : Delta) (p : Nat) : Option Nat :=
  if p < Machine.oldLength d ∧ d.touches p (p + 1) = false then Machine.track d p .after else none

theorem survivor?_machine (hd : Machine.Built d) (p : Nat) : Machine.survivor? d p = d.survivor? p := by
  rw [Machine.survivor?, survivor?, track_machine hd, oldLength_machine hd.fits]

/-- Deltas whose lengths are words are in normal form: no span is empty, kept and replaced ones alternate,
and regions that follow each other have as many bytes between them in the new document as in the old one,
and some. So a delta is told by its regions and the length of the old document, or by where the bytes that
are left have come to and both lengths; and one without a region is an identity. -/
theorem normal_form (ha : Machine.Built a) (hb : Machine.Built b) :
    (∀ s ∈ a.spans, s ≠ .kept 0 ∧ s ≠ .replaced 0 0) ∧
      a.spans.IsChain (fun s t => s.isKept ≠ t.isKept) ∧
      (∀ r ∈ Machine.regions a, r.oldStart ≤ r.oldStop ∧ r.newStart ≤ r.newStop) ∧
      (Machine.regions a).IsChain Region.Precedes ∧
      (a = b ↔ Machine.oldLength a = Machine.oldLength b ∧ Machine.regions a = Machine.regions b) ∧
      (a = b ↔ Machine.oldLength a = Machine.oldLength b ∧
        Machine.newLength a = Machine.newLength b ∧
        ∀ p, Machine.survivor? a p = Machine.survivor? b p) ∧
      (∀ length edits document p j, Edit.LengthsFit length edits →
        Machine.ofEdits length edits = .ok a → document.map Prod.fst = places length →
        (Machine.survivor? a p = some j ↔
          ((Edit.replay edits document).map Prod.fst)[j]? = some (some p))) ∧
      (a.isIdentity = true ↔ a = identity (Machine.oldLength a)) := by
  have hna := ha.isNormal
  have hnb := hb.isNormal
  obtain ⟨hfilled, halternate⟩ := Span.normal_iff.mp hna
  simp only [survivor?_machine ha, survivor?_machine hb, regions_machine ha.fits,
    regions_machine hb.fits, oldLength_machine ha.fits, oldLength_machine hb.fits,
    newLength_machine ha.fits, newLength_machine hb.fits]
  refine ⟨hfilled, halternate, ?_, Span.isChain_regionsFrom hna 0 0, ⟨?_, ?_⟩, ⟨?_, ?_⟩, ?_,
    isIdentity_iff hna⟩
  · intro r hr
    exact Span.le_of_mem_regions hr
  · rintro rfl
    exact ⟨rfl, rfl⟩
  · rintro ⟨hlength, hregions⟩
    exact eq_of_regions hna hnb hlength hregions
  · rintro rfl
    exact ⟨rfl, rfl, fun _ => rfl⟩
  · rintro ⟨hold, hnew, hsurvivors⟩
    exact eq_of_survivors hna hnb hold hnew hsurvivors
  · intro length edits document p j hfit h htags
    rw [ofEdits_machine hfit] at h
    exact survivor?_of_ofEdits h htags

theorem normal_form_of_undone_edit :
    let a : Delta := ⟨[.kept 4]⟩
    let b : Delta := ⟨[.kept 1, .replaced 2 1, .kept 1, .replaced 0 2]⟩
    Machine.ofEdits 4 [⟨1, 1, "ab"⟩, ⟨1, 3, ""⟩] = .ok a ∧
      Machine.ofEdits 4 [⟨4, 4, "ab"⟩, ⟨1, 3, "x"⟩] = .ok b ∧
      a = identity 4 ∧ b.isIdentity = false ∧ (Machine.regions b).IsChain Region.Precedes ∧
      b ≠ a := by
  intro a b
  have hundone : Span.merge [.kept 1, .replaced 0 2, .kept 3] [.kept 1, .replaced 2 0, .kept 3] =
      some a.spans := by
    simp [a, Span.merge, Span.cons, Span.through, Span.newLength, Span.oldLength]
  have hapart : Span.merge [.kept 4, .replaced 0 2] [.kept 1, .replaced 2 1, .kept 3] =
      some b.spans := by
    simp [b, Span.merge, Span.cons, Span.through, Span.newLength, Span.oldLength, Span.dropNew,
      Span.dropOld]
  have hfita : Edit.LengthsFit 4 [⟨1, 1, "ab"⟩, ⟨1, 3, ""⟩] :=
    ⟨by decide, fun _ _ => ⟨by decide, fun _ _ => (by decide : 4 < word64)⟩⟩
  have hfitb : Edit.LengthsFit 4 [⟨4, 4, "ab"⟩, ⟨1, 3, "x"⟩] :=
    ⟨by decide, fun _ _ => ⟨by decide, fun _ _ => (by decide : 5 < word64)⟩⟩
  have ha : Machine.ofEdits 4 [⟨1, 1, "ab"⟩, ⟨1, 3, ""⟩] = .ok a :=
    (ofEdits_machine hfita).trans (ofEdits_pair rfl rfl hundone)
  have hb : Machine.ofEdits 4 [⟨4, 4, "ab"⟩, ⟨1, 3, "x"⟩] = .ok b :=
    (ofEdits_machine hfitb).trans (ofEdits_pair rfl rfl hapart)
  obtain ⟨-, -, -, -, -, -, -, hidentity⟩ := normal_form (.ofEdits hfita ha) (.ofEdits hfitb hb)
  obtain ⟨-, -, -, hchain, hregions, -, -, -⟩ := normal_form (.ofEdits hfitb hb) (.ofEdits hfita ha)
  refine ⟨ha, hb, hidentity.mp rfl, rfl, hchain, fun h => ?_⟩
  exact absurd (hregions.mp h).2 (by decide)

/-- Three bytes inserted before as many as a word counts: a region at the end of the new document is told
to begin with its first byte, behind no gap. -/
theorem not_normal_form_of_wrapped_length :
    let a : Delta := ⟨[.kept (word64 - 2), .replaced 1 1]⟩
    let b : Delta := ⟨[.replaced 0 3, .kept (word64 - 1)]⟩
    let d : Delta := ⟨[.replaced 0 3, .kept (word64 - 2), .replaced 1 1]⟩
    Machine.ofEdit (word64 - 1) ⟨word64 - 2, word64 - 1, "y"⟩ = .ok a ∧
      Machine.ofEdit (word64 - 1) ⟨0, 0, "abc"⟩ = .ok b ∧ Machine.compose a b = .ok d ∧
      Machine.regions d = [⟨0, 0, 0, 3⟩, ⟨word64 - 2, word64 - 1, 1, 2⟩] ∧
      ¬ (Machine.regions d).IsChain Region.Precedes := by
  intro a b d
  have hregions : Machine.regions d = [⟨0, 0, 0, 3⟩, ⟨word64 - 2, word64 - 1, 1, 2⟩] := by decide
  have hmerge : Span.merge a.spans b.spans = some d.spans := by
    simp [a, b, d, Span.merge, Span.cons, Span.through, Span.newLength, Span.oldLength, Span.dropNew,
      Span.dropOld, word64]
  refine ⟨rfl, rfl, ?_, hregions, fun hchain => ?_⟩
  · have hguard : Machine.newLength a = Machine.oldLength b := by decide
    have hwrap : d.wrap = d := by decide
    rw [Machine.compose, if_pos hguard, hmerge]
    exact congrArg Except.ok hwrap
  · rw [hregions, List.isChain_pair] at hchain
    obtain ⟨gap, -, -, hnew⟩ := hchain
    -- on the new side the second region begins before the first one ends
    have hback : 1 = 3 + gap := hnew
    omega

end Delta

end LanguageClient
