import LanguageClient.Proofs.Delta.Intact
import LanguageClient.Proofs.Delta.Machine

namespace LanguageClient

namespace Region

def Encloses (r : Region) (p : Nat) : Prop :=
  r.oldStart < p ∧ p < r.oldStop

def InsertsAt (r : Region) (p : Nat) : Prop :=
  r.oldStart = p ∧ r.oldStop = p

end Region

namespace Span

variable {s : Span} {spans rest : List Span} {old new p q i j n d m : Nat} {bias : Bias} {r : Region}

section Apart

theorem mem_regionsFrom_cons : r ∈ regionsFrom old new (s :: rest) ↔
    s.isKept = false ∧ r = ⟨old, old + s.oldLength, new, new + s.newLength⟩ ∨
      r ∈ regionsFrom (old + s.oldLength) (new + s.newLength) rest := by
  cases s <;> simp [regionsFrom, isKept, oldLength, newLength]

theorem oldStop_le_of_mem_regionsFrom (hr : r ∈ regionsFrom old new spans) :
    r.oldStop ≤ old + oldTotal spans := by
  induction spans generalizing old new with
  | nil => cases hr
  | cons s rest ih =>
    rw [oldTotal, ← Nat.add_assoc]
    obtain ⟨-, rfl⟩ | hr := mem_regionsFrom_cons.mp hr
    · exact Nat.le_add_right _ _
    · exact ih hr

theorem newStop_le_of_mem_regionsFrom (hr : r ∈ regionsFrom old new spans) :
    r.newStop ≤ new + newTotal spans := by
  induction spans generalizing old new with
  | nil => cases hr
  | cons s rest ih =>
    rw [newTotal, ← Nat.add_assoc]
    obtain ⟨-, rfl⟩ | hr := mem_regionsFrom_cons.mp hr
    · exact Nat.le_add_right _ _
    · exact ih hr

theorem le_of_mem_regions (hr : r ∈ regionsFrom old new spans) :
    r.oldStart ≤ r.oldStop ∧ r.newStart ≤ r.newStop := by
  induction spans generalizing old new with
  | nil => cases hr
  | cons s rest ih =>
    obtain ⟨-, rfl⟩ | hr := mem_regionsFrom_cons.mp hr
    · exact ⟨Nat.le_add_right _ _, Nat.le_add_right _ _⟩
    · exact ih hr

theorem lt_of_mem_regionsFrom (hnormal : Normal (replaced d m :: rest))
    (hr : r ∈ regionsFrom old new rest) : old < r.oldStart := by
  cases rest with
  | nil => cases hr
  | cons s rest =>
    cases s with
    | kept n =>
      have hn : n ≠ 0 := fun hn => hnormal.2.2.1 ⟨hn, hn⟩
      have hle : old + n ≤ r.oldStart := le_of_mem_regionsFrom hr
      omega
    | replaced d' m' => exact absurd rfl (hnormal.2.1 (replaced d' m') rfl)

theorem behind_of_mem_regionsFrom (hnormal : Normal (s :: rest))
    (hr : r ∈ regionsFrom (old + s.oldLength) new rest) (hle : r.oldStart ≤ old + p) :
    0 < p ∧ s.oldLength ≤ p := by
  have hstart := le_of_mem_regionsFrom hr
  cases s with
  | kept n =>
    have hn : n ≠ 0 := fun hn => hnormal.1 ⟨hn, hn⟩
    rw [oldLength] at hstart ⊢
    omega
  | replaced d m =>
    have hlt := lt_of_mem_regionsFrom hnormal hr
    omega

theorem pairwise_apart (hnormal : Normal spans) (old new : Nat) :
    (regionsFrom old new spans).Pairwise fun r r' => r.oldStop < r'.oldStart := by
  induction spans generalizing old new with
  | nil => exact .nil
  | cons s rest ih =>
    cases s with
    | kept n => exact ih hnormal.2.2 (old + n) (new + n)
    | replaced d m =>
      refine List.pairwise_cons.mpr ⟨?_, ih hnormal.2.2 (old + d) (new + m)⟩
      intro r hr
      exact lt_of_mem_regionsFrom hnormal hr

theorem apart_of_mem {r r' : Region} (hnormal : Normal spans) (hr : r ∈ regionsFrom old new spans)
    (hr' : r' ∈ regionsFrom old new spans) :
    r = r' ∨ r.oldStop < r'.oldStart ∨ r'.oldStop < r.oldStart := by
  have hapart := pairwise_apart hnormal old new
  refine List.Pairwise.forall_of_forall_of_flip
    (R := fun r r' => r = r' ∨ r.oldStop < r'.oldStart ∨ r'.oldStop < r.oldStart) ?_ ?_ ?_ hr hr'
  · exact fun r _ => .inl rfl
  · exact hapart.imp fun h => .inr (.inl h)
  · exact hapart.imp fun h => .inr (.inr h)

end Apart

section Step

theorem track_kept_of_lt (h : p < n) (bias : Bias) : track (kept n :: rest) p bias = some p := by
  rw [track, if_pos h]

theorem track_kept_of_le (h : n ≤ p) (bias : Bias) :
    track (kept n :: rest) p bias = (track rest (p - n) bias).map (n + ·) := by
  rw [track, if_neg (Nat.not_lt_of_le h)]

theorem track_replaced_zero (bias : Bias) : track (replaced d m :: rest) 0 bias =
    some (if d = 0 ∧ bias = .after then m else 0) := by
  rw [track.eq_def]
  exact if_pos rfl

theorem track_replaced_of_lt (hp : 0 < p) (h : p < d) (bias : Bias) :
    track (replaced d m :: rest) p bias =
      match bias with
      | .before => some 0
      | .after => some m
      | .strict => none := by
  rw [track.eq_def]
  dsimp only
  exact (if_neg (Nat.ne_of_gt hp)).trans (if_pos h)

theorem track_cons_of_le (hp : s.isKept = true ∨ 0 < p) (h : s.oldLength ≤ p) (bias : Bias) :
    track (s :: rest) p bias = (track rest (p - s.oldLength) bias).map (s.newLength + ·) := by
  cases s with
  | kept n => exact track_kept_of_le h bias
  | replaced d m =>
    have hpos : 0 < p := hp.resolve_left nofun
    have hle : d ≤ p := h
    rw [track.eq_def]
    dsimp only
    rw [if_neg (Nat.ne_of_gt hpos), if_neg (Nat.not_lt_of_le hle)]
    rfl

end Step

theorem le_oldTotal_of_track (h : track spans p bias = some j) : p ≤ oldTotal spans := by
  induction spans generalizing p j with
  | nil =>
    rw [track] at h
    split at h
    next hp => exact Nat.le_of_eq hp
    next => cases h
  | cons s rest ih =>
    rw [oldTotal]
    cases s with
    | kept n =>
      obtain ⟨hp, -⟩ | ⟨-, j', hj', -⟩ := track_kept h
      · exact Nat.le_trans (Nat.le_of_lt hp) (Nat.le_add_right n _)
      · exact Nat.sub_le_iff_le_add'.mp (ih hj')
    | replaced d m =>
      obtain ⟨rfl, -⟩ | ⟨⟨rfl, -⟩ | ⟨-, hp⟩, -⟩ | ⟨-, -, j', hj', -⟩ := track_replaced h
      · exact Nat.zero_le _
      · exact Nat.zero_le _
      · exact Nat.le_trans (Nat.le_of_lt hp) (Nat.le_add_right d _)
      · exact Nat.sub_le_iff_le_add'.mp (ih hj')

theorem exists_track_iff (hbias : bias ≠ .strict) :
    (∃ j, track spans p bias = some j) ↔ p ≤ oldTotal spans :=
  ⟨fun ⟨_, hj⟩ => le_oldTotal_of_track hj, exists_track hbias⟩

theorem track_before_le (hle : p ≤ q) (hp : track spans p .before = some i)
    (hq : track spans q bias = some j) : i ≤ j := by
  induction spans generalizing p q i j with
  | nil =>
    rw [track] at hp
    split at hp
    · cases hp
      exact Nat.zero_le j
    · cases hp
  | cons s rest ih =>
    cases s with
    | kept n =>
      obtain ⟨hp, rfl⟩ | ⟨hp, i', hi', rfl⟩ := track_kept hp
      · obtain ⟨-, rfl⟩ | ⟨-, j', -, rfl⟩ := track_kept hq <;> omega
      · obtain ⟨hq, -⟩ | ⟨-, j', hj', rfl⟩ := track_kept hq
        · omega
        · exact Nat.add_le_add_left (ih (Nat.sub_le_sub_right hle n) hi' hj') n
    | replaced d m =>
      obtain rfl | hpos := Nat.eq_zero_or_pos p
      · rw [track_zero_before hp]
        exact Nat.zero_le j
      · obtain hlt | hd : p < d ∨ (replaced d m).oldLength ≤ p := Nat.lt_or_ge p d
        · rw [track_replaced_of_lt hpos hlt] at hp
          cases hp
          exact Nat.zero_le j
        · have hposq : 0 < q := Nat.lt_of_lt_of_le hpos hle
          rw [track_cons_of_le (.inr hpos) hd] at hp
          rw [track_cons_of_le (.inr hposq) (Nat.le_trans hd hle)] at hq
          obtain ⟨i', hi', rfl⟩ := Option.map_eq_some_iff.mp hp
          obtain ⟨j', hj', rfl⟩ := Option.map_eq_some_iff.mp hq
          exact Nat.add_le_add_left (ih (Nat.sub_le_sub_right hle d) hi' hj') m

section Region

theorem track_from_region (hnormal : Normal spans) (hr : r ∈ regionsFrom old new spans)
    (hle : r.oldStart ≤ old + p) :
    ∃ d m rest, r.oldStop = r.oldStart + d ∧ r.newStop = r.newStart + m ∧
      ∀ bias, (track spans p bias).map (new + ·) =
        (track (replaced d m :: rest) (old + p - r.oldStart) bias).map (r.newStart + ·) := by
  induction spans generalizing old new p with
  | nil => cases hr
  | cons s rest ih =>
    obtain ⟨hreplaced, rfl⟩ | hr := mem_regionsFrom_cons.mp hr
    · cases s with
      | kept n => cases hreplaced
      | replaced d m => exact ⟨d, m, rest, rfl, rfl, fun _ => by rw [Nat.add_sub_cancel_left]⟩
    · obtain ⟨hpos, hbehind⟩ := behind_of_mem_regionsFrom hnormal hr hle
      have hplace : old + s.oldLength + (p - s.oldLength) = old + p := by omega
      obtain ⟨d, m, back, hstop, hstop', htrack⟩ := ih hnormal.2.2 hr (hplace.symm ▸ hle)
      refine ⟨d, m, back, hstop, hstop', fun bias => ?_⟩
      rw [← hplace, ← htrack bias, track_cons_of_le (.inr hpos) hbehind, Option.map_map]
      simp only [Function.comp_def, Nat.add_assoc]

/-- A place that no region has to do with comes to the same whatever the bias; insertions there matter
to one bias only. -/
theorem track_of_free (old new : Nat) (h : ∀ r ∈ regionsFrom old new spans,
    ¬ r.Encloses (old + p) ∧ (bias = .after → ¬ r.InsertsAt (old + p))) :
    track spans p bias = track spans p .before := by
  induction spans generalizing old new p with
  | nil => rw [track, track]
  | cons s rest ih =>
    have hbehind : s.isKept = true ∨ 0 < p → s.oldLength ≤ p →
        track (s :: rest) p bias = track (s :: rest) p .before := by
      intro hp hle
      have hplace : old + s.oldLength + (p - s.oldLength) = old + p := by omega
      rw [track_cons_of_le hp hle, track_cons_of_le hp hle,
        ih (old + s.oldLength) (new + s.newLength)]
      intro r hr
      rw [hplace]
      exact h r (mem_regionsFrom_cons.mpr (.inr hr))
    cases s with
    | kept n =>
      obtain hlt | hle := Nat.lt_or_ge p n
      · rw [track_kept_of_lt hlt, track_kept_of_lt hlt]
      · exact hbehind (.inl rfl) hle
    | replaced d m =>
      obtain ⟨hencloses, hinserts⟩ := h _ List.mem_cons_self
      obtain rfl | hpos := Nat.eq_zero_or_pos p
      · have hafter : ¬ (d = 0 ∧ bias = .after) := by
          rintro ⟨rfl, hbias⟩
          exact hinserts hbias ⟨rfl, rfl⟩
        have hbefore : ¬ (d = 0 ∧ Bias.before = .after) := by
          rintro ⟨-, hbias⟩
          cases hbias
        rw [track_replaced_zero, track_replaced_zero, if_neg hafter, if_neg hbefore]
      · obtain hlt | hle := Nat.lt_or_ge p d
        · exact absurd ⟨Nat.lt_add_of_pos_right hpos, Nat.add_lt_add_left hlt old⟩ hencloses
        · exact hbehind (.inr hpos) hle

end Region

end Span

namespace Delta

variable {d : Delta} {p q i j : Nat} {bias : Bias} {r : Region}

theorem track_of_free
    (h : ∀ r ∈ d.regions, ¬ r.Encloses p ∧ (bias = .after → ¬ r.InsertsAt p)) :
    d.track p bias = d.track p .before := by
  refine Span.track_of_free 0 0 fun r hr => ?_
  rw [Nat.zero_add]
  exact h r hr

theorem track_strict_of_free (h : ∀ r ∈ d.regions, ¬ r.Encloses p) :
    d.track p .strict = d.track p .before :=
  track_of_free fun r hr => ⟨h r hr, nofun⟩

section Normal

variable (hnormal : d.IsNormal)
include hnormal

theorem track_from_region (hr : r ∈ d.regions) (hle : r.oldStart ≤ p) :
    ∃ removed inserted rest, r.oldStop = r.oldStart + removed ∧ r.newStop = r.newStart + inserted ∧
      ∀ bias, d.track p bias =
        (Span.track (.replaced removed inserted :: rest) (p - r.oldStart) bias).map
          (r.newStart + ·) := by
  have hle : r.oldStart ≤ 0 + p := (Nat.zero_add p).symm ▸ hle
  obtain ⟨removed, inserted, rest, hold, hnew, htrack⟩ := Span.track_from_region hnormal hr hle
  refine ⟨removed, inserted, rest, hold, hnew, fun bias => ?_⟩
  simpa [track] using htrack bias

theorem track_strict_of_encloses (hr : r ∈ d.regions) (hp : r.Encloses p) :
    d.track p .strict = none := by
  obtain ⟨removed, inserted, rest, hold, -, htrack⟩ :=
    track_from_region hnormal hr (Nat.le_of_lt hp.1)
  obtain ⟨hstart, hstop⟩ := hp
  rw [htrack, Span.track_replaced_of_lt (by omega) (by omega)]
  rfl

theorem track_of_region (hr : r ∈ d.regions) (hp : r.Encloses p ∨ r.InsertsAt p) :
    d.track p .before = some r.newStart ∧ d.track p .after = some r.newStop := by
  obtain ⟨hstart, hstop⟩ | ⟨rfl, hstop⟩ := hp
  · obtain ⟨removed, inserted, rest, hold, hnew, htrack⟩ :=
      track_from_region hnormal hr (Nat.le_of_lt hstart)
    rw [htrack, htrack, Span.track_replaced_of_lt (by omega) (by omega),
      Span.track_replaced_of_lt (by omega) (by omega), hnew]
    exact ⟨rfl, rfl⟩
  · obtain ⟨removed, inserted, rest, hold, hnew, htrack⟩ :=
      track_from_region hnormal hr (Nat.le_refl r.oldStart)
    obtain rfl : removed = 0 := by omega
    rw [htrack, htrack, Nat.sub_self, Span.track_replaced_zero, Span.track_replaced_zero, hnew]
    exact ⟨rfl, rfl⟩

theorem track_strict_eq_none_iff (hp : p ≤ d.oldLength) :
    d.track p .strict = none ↔ ∃ r ∈ d.regions, r.Encloses p := by
  constructor
  · intro hnone
    apply Classical.byContradiction
    intro hfree
    have hbefore := track_strict_of_free fun r hr hencloses => hfree ⟨r, hr, hencloses⟩
    obtain ⟨j, hj⟩ : ∃ j, d.track p .before = some j := Span.exists_track nofun hp
    rw [hnone, hj] at hbefore
    cases hbefore
  · rintro ⟨r, hr, hencloses⟩
    exact track_strict_of_encloses hnormal hr hencloses

theorem before_of_strict (h : d.track p .strict = some j) : d.track p .before = some j := by
  rw [← h]
  refine (track_strict_of_free fun r hr hencloses => ?_).symm
  rw [track_strict_of_encloses hnormal hr hencloses] at h
  cases h

theorem track_mono (hle : p ≤ q) (hi : d.track p bias = some i) (hj : d.track q bias = some j) :
    i ≤ j := by
  cases bias with
  | before => exact Span.track_before_le hle hi hj
  | after => exact Span.track_le hle hi hj
  | strict =>
    exact Span.track_before_le hle (before_of_strict hnormal hi) (before_of_strict hnormal hj)

end Normal

section Machine

theorem regions_machine (hd : d.Fits) : Machine.regions d = d.regions := by
  refine (List.map_congr_left fun r hr => ?_).trans (List.map_id _)
  obtain ⟨hold, hnew⟩ := Span.le_of_mem_regions hr
  have hstop := Span.oldStop_le_of_mem_regionsFrom hr
  have hstop' := Span.newStop_le_of_mem_regionsFrom hr
  rw [Nat.zero_add] at hstop hstop'
  have holdWord := Nat.lt_of_le_of_lt hstop hd.old
  have hnewWord := Nat.lt_of_le_of_lt hstop' hd.new
  rw [Region.wrap, Nat.mod_eq_of_lt holdWord, Nat.mod_eq_of_lt hnewWord,
    Nat.mod_eq_of_lt (Nat.lt_of_le_of_lt hold holdWord),
    Nat.mod_eq_of_lt (Nat.lt_of_le_of_lt hnew hnewWord)]
  rfl

theorem track_machine (hd : Machine.Built d) (p : Nat) (bias : Bias) :
    Machine.track d p bias = d.track p bias := by
  rw [Machine.track]
  cases hi : d.track p bias with
  | none => rfl
  | some i =>
    have hle := Span.track_le_newTotal hd.isNormal (Span.le_oldTotal_of_track hi) hi
    exact congrArg some (Nat.mod_eq_of_lt (Nat.lt_of_le_of_lt hle hd.fits.new))

end Machine

/-- Tracking is a monotone map from the places of the old document to those of the new one, as long as
lengths are words. The biases differ only at a place that a region encloses or where a region inserts, and
there they lead to the two ends of that region, if a strict one leads anywhere. -/
theorem track_monotone (hd : Machine.Built d) (hle : p ≤ q) :
    (∀ bias, bias ≠ .strict →
        ((∃ i, Machine.track d p bias = some i) ↔ p ≤ Machine.oldLength d)) ∧
      (p ≤ Machine.oldLength d →
        (Machine.track d p .strict = none ↔ ∃ r ∈ Machine.regions d, r.Encloses p)) ∧
      ((¬ ∃ r ∈ Machine.regions d, r.Encloses p) →
        Machine.track d p .strict = Machine.track d p .before) ∧
      (∀ bias i, Machine.track d p bias = some i → i ≤ Machine.newLength d) ∧
      (∀ bias i j, Machine.track d p bias = some i → Machine.track d q bias = some j → i ≤ j) ∧
      (∀ i j, Machine.track d p .before = some i → Machine.track d p .after = some j → i ≤ j) ∧
      (∀ r ∈ Machine.regions d, r.Encloses p ∨ r.InsertsAt p →
        Machine.track d p .before = some r.newStart ∧ Machine.track d p .after = some r.newStop) ∧
      ((¬ ∃ r ∈ Machine.regions d, r.Encloses p ∨ r.InsertsAt p) →
        Machine.track d p .before = Machine.track d p .after) := by
  have hnormal := hd.isNormal
  simp only [track_machine hd, regions_machine hd.fits, oldLength_machine hd.fits,
    newLength_machine hd.fits]
  refine ⟨?_, track_strict_eq_none_iff hnormal, ?_, ?_, ?_, ?_, ?_, ?_⟩
  · intro bias hbias
    exact Span.exists_track_iff hbias
  · intro hfree
    exact track_strict_of_free fun r hr hp => hfree ⟨r, hr, hp⟩
  · intro bias i hi
    exact Span.track_le_newTotal hnormal (Span.le_oldTotal_of_track hi) hi
  · intro bias i j
    exact track_mono hnormal hle
  · intro i j
    exact Span.track_before_le (Nat.le_refl p)
  · intro r hr
    exact track_of_region hnormal hr
  · intro hfree
    refine (track_of_free fun r hr => ⟨?_, fun _ => ?_⟩).symm
    · exact fun hp => hfree ⟨r, hr, .inl hp⟩
    · exact fun hp => hfree ⟨r, hr, .inr hp⟩

theorem track_monotone_of_insertion :
    let d : Delta := ⟨[.kept 1, .replaced 2 3, .kept 2, .replaced 0 2, .kept 1]⟩
    Machine.ofEdits 6 [⟨1, 3, "xyz"⟩, ⟨6, 6, "ab"⟩] = .ok d ∧
      Machine.track d 2 .strict = none ∧
      Machine.track d 2 .before = some 1 ∧ Machine.track d 2 .after = some 4 ∧
      Machine.track d 5 .before = some 6 ∧ Machine.track d 5 .after = some 8 ∧ 1 ≤ 6 ∧ 4 ≤ 8 := by
  intro d
  have hfit : Edit.LengthsFit 6 [⟨1, 3, "xyz"⟩, ⟨6, 6, "ab"⟩] :=
    ⟨by decide, fun _ _ => ⟨by decide, fun _ _ => (by decide : 9 < word64)⟩⟩
  have hmerge : Span.merge [.kept 1, .replaced 2 3, .kept 3] [.kept 6, .replaced 0 2, .kept 1] =
      some d.spans := by
    simp [d, Span.merge, Span.cons, Span.through, Span.newLength, Span.oldLength, Span.dropNew,
      Span.dropOld]
  have hd : Machine.ofEdits 6 [⟨1, 3, "xyz"⟩, ⟨6, 6, "ab"⟩] = .ok d :=
    (ofEdits_machine hfit).trans (ofEdits_pair rfl rfl hmerge)
  have hbuilt : Machine.Built d := .ofEdits hfit hd
  have hreplaced : (⟨1, 3, 1, 4⟩ : Region) ∈ Machine.regions d := by decide
  have hinserted : (⟨5, 5, 6, 8⟩ : Region) ∈ Machine.regions d := by decide
  obtain ⟨-, hstrict, -, -, hmono, -, hends, -⟩ :=
    track_monotone (p := 2) (q := 5) hbuilt (by decide)
  obtain ⟨-, -, -, -, -, -, hends', -⟩ := track_monotone (p := 5) (q := 5) hbuilt (Nat.le_refl 5)
  obtain ⟨hbefore, hafter⟩ := hends _ hreplaced (.inl ⟨by decide, by decide⟩)
  obtain ⟨hbefore', hafter'⟩ := hends' _ hinserted (.inr ⟨rfl, rfl⟩)
  exact ⟨hd, (hstrict (by decide)).mpr ⟨_, hreplaced, by decide, by decide⟩, hbefore, hafter, hbefore',
    hafter', hmono _ _ _ hbefore hbefore', hmono _ _ _ hafter hafter'⟩

/-- With a byte inserted before as many bytes as a word counts, the last place comes to the start of the
new document, before the place of the last byte and behind the end. -/
theorem not_track_monotone_of_wrapped_length :
    let d : Delta := ⟨[.replaced 0 1, .kept (word64 - 1)]⟩
    Machine.ofEdit (word64 - 1) ⟨0, 0, "x"⟩ = .ok d ∧ Machine.newLength d = 0 ∧
      Machine.track d (word64 - 2) .before = some (word64 - 1) ∧
      Machine.track d (word64 - 1) .before = some 0 := by
  intro d
  refine ⟨rfl, by decide, by decide, by decide⟩

end Delta

end LanguageClient
