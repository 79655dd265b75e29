import LanguageClient.Proofs.Delta.Replay
import LanguageClient.Proofs.Delta.Track

namespace LanguageClient

namespace Span

variable {α : Type} {spans rest : List Span} {old new p q i j n d m : Nat} {bias : Bias}
  {xs : List (Option α)}

section Regions

theorem le_of_mem_regionsFrom {r : Region} (h : r ∈ regionsFrom old new spans) : old ≤ r.oldStart := by
  induction spans generalizing old new with
  | nil => cases h
  | cons s rest ih =>
    cases s with
    | kept n => exact Nat.le_of_add_right_le (ih h)
    | replaced d i =>
      cases h with
      | head => exact Nat.le_refl old
      | tail _ h => exact Nat.le_of_add_right_le (ih h)

theorem pairwise_regionsFrom (old new : Nat) (spans : List Span) :
    (regionsFrom old new spans).Pairwise fun r r' => r.oldStart ≤ r'.oldStart := by
  induction spans generalizing old new with
  | nil => exact .nil
  | cons s rest ih =>
    cases s with
    | kept n => exact ih (old + n) (new + n)
    | replaced d i =>
      refine List.pairwise_cons.mpr ⟨?_, ih (old + d) (new + i)⟩
      intro r hr
      exact Nat.le_of_add_right_le (le_of_mem_regionsFrom hr)

theorem any_takeWhile {regions : List Region} (f : Region → Bool)
    (h : regions.Pairwise fun r r' => r.oldStart ≤ r'.oldStart) :
    (regions.takeWhile (·.oldStart < q)).any f = true ↔
      ∃ r ∈ regions, r.oldStart < q ∧ f r = true := by
  induction regions with
  | nil => simp
  | cons r rest ih =>
    obtain ⟨hfirst, hrest⟩ := List.pairwise_cons.mp h
    by_cases hr : r.oldStart < q
    · simp [hr, ih hrest]
    · have hbehind : ∀ r' ∈ rest, ¬ r'.oldStart < q := fun r' hr' =>
        Nat.not_lt_of_le (Nat.le_trans (Nat.le_of_not_lt hr) (hfirst r' hr'))
      simp +contextual [hr, hbehind]

end Regions

/-- Whether no region of the spans that begin at `old` overlaps the range from `old + p` to `old + q`. -/
def Clear (old new : Nat) (spans : List Span) (p q : Nat) : Prop :=
  ∀ r ∈ regionsFrom old new spans, r.oldStart < old + q → r.oldStop ≤ old + p

section Clear

theorem Clear.of_kept (h : Clear old new (kept n :: rest) p q) (hp : n ≤ p) (hq : n ≤ q) :
    Clear (old + n) (new + n) rest (p - n) (q - n) := by
  intro r hr hstart
  have := h r hr
  omega

theorem Clear.of_replaced (h : Clear old new (replaced d m :: rest) p q) (hp : d ≤ p) (hq : d ≤ q) :
    Clear (old + d) (new + m) rest (p - d) (q - d) := by
  intro r hr hstart
  have := h r (List.mem_cons_of_mem _ hr)
  omega

theorem Clear.le_start (h : Clear old new (replaced d m :: rest) p q) (hq : 0 < q) : d ≤ p := by
  have := h _ List.mem_cons_self (Nat.lt_add_of_pos_right hq)
  exact Nat.le_of_add_le_add_left this

theorem track_zero_before (h : track spans 0 .before = some j) : j = 0 := by
  induction spans generalizing j with
  | nil =>
    cases h
    rfl
  | cons s rest ih =>
    cases s with
    | kept n =>
      obtain ⟨-, rfl⟩ | ⟨hn, j', hj', rfl⟩ := track_kept h
      · rfl
      · rw [Nat.zero_sub] at hj'
        rw [ih hj', Nat.le_zero.mp hn]
    | replaced d m =>
      cases h
      simp

theorem Clear.of_start_lt (h : Clear old new (kept n :: rest) p q)
    (hnormal : Normal (kept n :: rest)) (hstart : p < n)
    (hj : track (kept n :: rest) q .before = some j) : q ≤ n ∧ j = q := by
  obtain ⟨hlt, rfl⟩ | ⟨hle, j', hj', rfl⟩ := track_kept hj
  · exact ⟨Nat.le_of_lt hlt, rfl⟩
  · obtain rfl : n = q := by
      cases rest with
      | nil =>
        rw [track] at hj'
        split at hj'
        · omega
        · cases hj'
      | cons s rest =>
        cases s with
        | kept m => exact absurd rfl (hnormal.2.1 (kept m) rfl)
        | replaced d m =>
          have := h ⟨old + n, old + n + d, new + n, new + n + m⟩ List.mem_cons_self
          dsimp only at this
          omega
    rw [Nat.sub_self] at hj'
    exact ⟨Nat.le_refl n, by rw [track_zero_before hj', Nat.add_zero]⟩

theorem track_behind (hnormal : Normal (replaced d m :: rest)) (hd : d ≤ p)
    (hi : track (replaced d m :: rest) p .after = some i) :
    ∃ i', track rest (p - d) .after = some i' ∧ i = m + i' := by
  obtain ⟨rfl, hd', -⟩ | ⟨hzero, rfl | ⟨-, hbias⟩⟩ | ⟨-, -, hrest⟩ := track_replaced hi
  · omega
  · -- only text inserted at the very start is passed, and what follows it begins with a kept span
    have hnext : track rest 0 .after = some 0 :=
      track_zero_of_kept hnormal.2.2 (by simpa [isKept] using hnormal.2.1)
    refine ⟨0, ?_, rfl⟩
    rwa [show p - d = 0 by omega]
  · exact absurd rfl hbias
  · exact hrest

end Clear

theorem getElem?_image_cons {s : Span} (hlength : oldTotal (s :: rest) ≤ xs.length)
    (hle : s.oldLength ≤ p)
    (h : j = i + (q - s.oldLength - (p - s.oldLength)) ∧
      ∀ k < q - s.oldLength - (p - s.oldLength),
        (image rest (xs.drop s.oldLength))[i + k]? = (xs.drop s.oldLength)[p - s.oldLength + k]?) :
    s.newLength + j = s.newLength + i + (q - p) ∧
      ∀ k < q - p, (image (s :: rest) xs)[s.newLength + i + k]? = xs[p + k]? := by
  rw [oldTotal] at hlength
  have hfront := length_front s xs (by omega)
  obtain ⟨hplace, hrest⟩ := h
  refine ⟨by omega, ?_⟩
  intro k hk
  rw [image, List.getElem?_append_right (by omega), hfront, Nat.add_assoc, Nat.add_sub_cancel_left,
    hrest k (by omega), List.getElem?_drop]
  congr 1
  omega

theorem getElem?_image_of_clear (hnormal : Normal spans) (hlength : oldTotal spans ≤ xs.length)
    (hclear : Clear old new spans p q) (hlt : p < q) (hi : track spans p .after = some i)
    (hj : track spans q .before = some j) :
    j = i + (q - p) ∧ ∀ k < q - p, (image spans xs)[i + k]? = xs[p + k]? := by
  induction spans generalizing old new p q i j xs with
  | nil =>
    rw [track] at hj
    split at hj
    · omega
    · cases hj
  | cons s rest ih =>
    have hdrop : oldTotal rest ≤ (xs.drop s.oldLength).length := by
      rw [oldTotal] at hlength
      rw [List.length_drop]
      omega
    cases s with
    | kept n =>
      obtain ⟨hstart, rfl⟩ | ⟨hstart, i', hi', rfl⟩ := track_kept hi
      · obtain ⟨hstop, rfl⟩ := hclear.of_start_lt hnormal hstart hj
        refine ⟨by omega, ?_⟩
        intro k hk
        have hfront : (front (kept n) xs).length = n :=
          length_front (kept n) xs (Nat.le_trans (Nat.le_add_right n _) hlength)
        rw [image, List.getElem?_append_left (by omega), front, List.getElem?_take_of_lt (by omega)]
      · obtain ⟨hstop, -⟩ | ⟨hstop, j', hj', rfl⟩ := track_kept hj
        · omega
        · exact getElem?_image_cons hlength hstart <| ih hnormal.2.2 hdrop
            (hclear.of_kept hstart hstop) (Nat.sub_lt_sub_right hstart hlt) hi' hj'
    | replaced d m =>
      have hd : d ≤ p := hclear.le_start (Nat.zero_lt_of_lt hlt)
      obtain ⟨i', hi', rfl⟩ := track_behind hnormal hd hi
      obtain hq | ⟨hq, -⟩ | ⟨-, hstop, j', hj', rfl⟩ := track_replaced hj
      · omega
      · omega
      · exact getElem?_image_cons hlength hd <| ih hnormal.2.2 hdrop
          (hclear.of_replaced hd hstop) (Nat.sub_lt_sub_right hd hlt) hi' hj'

theorem track_le_newTotal (hnormal : Normal spans) (hp : p ≤ oldTotal spans)
    (hi : track spans p bias = some i) : i ≤ newTotal spans :=
  track_le hp hi (track_oldTotal hnormal)

end Span

theorem Text.getElem?_tagged {text : String} {i : Nat} {b : UInt8} (h : (bytes text)[i]? = some b) :
    (tagged text)[i]? = some (some i, b) := by
  obtain ⟨hlt, -⟩ := List.getElem?_eq_some_iff.mp h
  rw [length_bytes] at hlt
  simp [tagged, List.getElem?_zip_eq_some, Delta.getElem?_places hlt, h]

theorem Edit.getElem?_replay {edits : List Edit} {text : String} {i j : Nat}
    (h : ((replay edits (Text.tagged text)).map Prod.fst)[j]? = some (some i)) :
    (replay edits (Text.tagged text))[j]? = (Text.tagged text)[i]? := by
  rw [List.getElem?_map] at h
  obtain ⟨⟨_, b⟩, hj, rfl⟩ := Option.map_eq_some_iff.mp h
  have hmem := mem_of_mem_replay (List.mem_of_getElem? hj)
  rw [hj, Text.getElem?_tagged (Text.getElem?_of_mem_tagged hmem)]

namespace Delta

variable {α : Type} {d : Delta} {start stop : Nat} {r : Nat × Nat} {edits : List Edit}
  {text text' : String}

theorem touches_iff :
    d.touches start stop = true ↔ ∃ r ∈ d.regions, r.oldStart < stop ∧ start < r.oldStop := by
  rw [touches, regions, Span.any_takeWhile _ (Span.pairwise_regionsFrom 0 0 d.spans)]
  simp

theorem clear_of_touches (h : d.touches start stop = false) :
    Span.Clear 0 0 d.spans start stop := by
  intro r hr hstart
  rw [Nat.zero_add] at hstart ⊢
  apply Nat.le_of_not_lt
  intro hstop
  rw [touches_iff.mpr ⟨r, hr, hstart, hstop⟩] at h
  cases h

section Range

variable (h : d.trackRange start stop = some r) (hnormal : d.IsNormal) (hle : start ≤ stop)
include h hnormal hle

theorem getElem?_image_of_trackRange {xs : List (Option α)} (hlength : d.oldLength ≤ xs.length) :
    r.2 = r.1 + (stop - start) ∧
      ∀ k < stop - start, (d.image xs)[r.1 + k]? = xs[start + k]? := by
  obtain ⟨hfree, i, j, hi, hj, rfl⟩ := trackRange_eq_some_iff.mp h
  dsimp only
  obtain hlt | rfl := Nat.lt_or_eq_of_le hle
  · obtain ⟨rfl, hplaces⟩ :=
      Span.getElem?_image_of_clear hnormal hlength (clear_of_touches hfree) hlt hi hj
    exact ⟨Nat.max_eq_right (Nat.le_add_right ..), hplaces⟩
  · have hji : j ≤ i := Span.track_le (Nat.le_refl start) hj hi
    refine ⟨by omega, ?_⟩
    intro k hk
    omega

theorem trackRange_le_newLength (hstop : stop ≤ d.oldLength) : r.2 ≤ d.newLength := by
  obtain ⟨-, i, j, hi, hj, rfl⟩ := trackRange_eq_some_iff.mp h
  exact Nat.max_le.mpr ⟨Span.track_le_newTotal hnormal (Nat.le_trans hle hstop) hi,
    Span.track_le_newTotal hnormal hstop hj⟩

end Range

/-- What the edits left at the place of a range are the very bytes that the range held. -/
theorem extract_replay_of_trackRange (happly : Edit.applyAll edits text = .ok text')
    (hd : ofEdits (Text.size text) edits = .ok d) (hle : start ≤ stop) (hstop : stop ≤ Text.size text)
    (h : d.trackRange start stop = some r) :
    (Edit.replay edits (Text.tagged text)).extract r.1 r.2 =
      (Text.tagged text).extract start stop := by
  obtain ⟨d', hd', hnormal, hold, -, htags, -⟩ := ofEdits_replay happly
  cases hd.symm.trans hd'
  have hplaces : d.oldLength ≤ (places (Text.size text)).length := by simp [hold]
  obtain ⟨hlength, hrange⟩ := getElem?_image_of_trackRange h hnormal hle hplaces
  have hsize : r.2 - r.1 = stop - start := by omega
  rw [List.extract_eq_take_drop, List.extract_eq_take_drop, hsize]
  apply List.ext_getElem?
  intro k
  rw [List.getElem?_take, List.getElem?_take]
  split
  next hk =>
    rw [List.getElem?_drop, List.getElem?_drop]
    apply Edit.getElem?_replay
    rw [htags, hrange k hk, getElem?_places (by omega)]
  next => rfl

theorem extract_bytes_of_trackRange (happly : Edit.applyAll edits text = .ok text')
    (hd : ofEdits (Text.size text) edits = .ok d) (hle : start ≤ stop) (hstop : stop ≤ Text.size text)
    (h : d.trackRange start stop = some r) :
    (Text.bytes text').extract r.1 r.2 = (Text.bytes text).extract start stop := by
  obtain ⟨-, -, -, -, -, -, hbytes⟩ := ofEdits_replay happly
  have hslice := congrArg (List.map Prod.snd)
    (extract_replay_of_trackRange happly hd hle hstop h)
  simpa [List.extract_eq_take_drop, List.map_take, List.map_drop, hbytes] using hslice

end Delta

end LanguageClient
