import LanguageClient.Proofs.Delta.Carry
import LanguageClient.Workspace.Mapping

namespace LanguageClient

open Text (byteLength IsBoundary)

namespace Span

variable {spans : List Span} {p q i j : Nat} {bias : Bias}

theorem exists_track (hbias : bias ≠ .strict) (hp : p ≤ oldTotal spans) :
    ∃ j, track spans p bias = some j := by
  induction spans generalizing p with
  | nil =>
    obtain rfl := Nat.le_zero.mp hp
    exact ⟨0, rfl⟩
  | cons s rest ih =>
    rw [track.eq_def]
    cases s with
    | kept n =>
      dsimp only
      split
      next => exact ⟨p, rfl⟩
      next hle =>
        obtain ⟨j, hj⟩ := ih (p := p - n) (by simp only [oldTotal, oldLength] at hp; omega)
        exact ⟨n + j, by rw [hj]; rfl⟩
    | replaced d i =>
      dsimp only
      split
      next => exact ⟨_, rfl⟩
      next =>
        split
        next =>
          cases bias with
          | before | after => exact ⟨_, rfl⟩
          | strict => exact absurd rfl hbias
        next hle =>
          obtain ⟨j, hj⟩ := ih (p := p - d) (by simp only [oldTotal, oldLength] at hp; omega)
          exact ⟨i + j, by rw [hj]; rfl⟩

section Step

variable {rest : List Span} {d n : Nat}

theorem track_kept (h : track (kept n :: rest) p bias = some j) :
    p < n ∧ j = p ∨ n ≤ p ∧ ∃ j', track rest (p - n) bias = some j' ∧ j = n + j' := by
  rw [track] at h
  split at h
  next hlt =>
    cases h
    exact .inl ⟨hlt, rfl⟩
  next hle =>
    obtain ⟨j', hj', rfl⟩ := Option.map_eq_some_iff.mp h
    exact .inr ⟨Nat.le_of_not_lt hle, j', hj', rfl⟩

theorem track_replaced (h : track (replaced d n :: rest) p bias = some j) :
    p = 0 ∧ 0 < d ∧ j = 0 ∨
      (p = 0 ∧ d = 0 ∨ 0 < p ∧ p < d) ∧ (j = n ∨ j = 0 ∧ bias ≠ .after) ∨
      0 < p ∧ d ≤ p ∧ ∃ j', track rest (p - d) bias = some j' ∧ j = n + j' := by
  rw [track.eq_def] at h
  dsimp only at h
  split at h
  next hzero =>
    cases h
    by_cases hd : d = 0
    · refine .inr (.inl ⟨.inl ⟨hzero, hd⟩, ?_⟩)
      by_cases hbias : bias = .after
      · exact .inl (if_pos ⟨hd, hbias⟩)
      · exact .inr ⟨if_neg fun hboth => hbias hboth.2, hbias⟩
    · exact .inl ⟨hzero, Nat.pos_of_ne_zero hd, if_neg fun hboth => hd hboth.1⟩
  next hpos =>
    split at h
    next hlt =>
      refine .inr (.inl ⟨.inr ⟨Nat.pos_of_ne_zero hpos, hlt⟩, ?_⟩)
      cases bias with
      | before =>
        cases h
        exact .inr ⟨rfl, by decide⟩
      | after =>
        cases h
        exact .inl rfl
      | strict => cases h
    next hle =>
      obtain ⟨j', hj', rfl⟩ := Option.map_eq_some_iff.mp h
      exact .inr (.inr ⟨Nat.pos_of_ne_zero hpos, Nat.le_of_not_lt hle, j', hj', rfl⟩)

end Step

theorem track_le (hle : p ≤ q) (hp : track spans p bias = some i)
    (hq : track spans q .after = some j) : i ≤ j := by
  induction spans generalizing p q i j with
  | nil =>
    rw [track] at hp
    split at hp
    · cases hp
      exact Nat.zero_le j
    · cases hp
  | cons s rest ih =>
    cases s with
    | kept n =>
      obtain ⟨hp, rfl⟩ | ⟨hp, i', hi', rfl⟩ := track_kept hp
      · obtain ⟨-, rfl⟩ | ⟨-, j', -, rfl⟩ := track_kept hq <;> omega
      · obtain ⟨hq, -⟩ | ⟨-, j', hj', rfl⟩ := track_kept hq
        · omega
        · exact Nat.add_le_add_left (ih (Nat.sub_le_sub_right hle n) hi' hj') n
    | replaced d n =>
      have hbehind := track_replaced hq
      obtain ⟨-, -, rfl⟩ | ⟨hp, hi⟩ | ⟨hp, hd, i', hi', rfl⟩ := track_replaced hp
      · exact Nat.zero_le j
      · have hi : i ≤ n := by
          obtain rfl | ⟨rfl, -⟩ := hi
          · exact Nat.le_refl i
          · exact Nat.zero_le n
        obtain hq | ⟨-, rfl | ⟨-, hbias⟩⟩ | ⟨-, -, j', -, rfl⟩ := hbehind
        · omega
        · exact hi
        · exact absurd rfl hbias
        · exact Nat.le_trans hi (Nat.le_add_right n j')
      · obtain hq | ⟨hq, -⟩ | ⟨-, -, j', hj', rfl⟩ := hbehind
        · omega
        · omega
        · exact Nat.add_le_add_left (ih (Nat.sub_le_sub_right hle d) hi' hj') n

theorem isBoundary_track {cs ds : List Char} (h : Carries spans cs ds) (hp : IsBoundary cs p)
    (hj : track spans p bias = some j) : IsBoundary ds j := by
  induction spans generalizing cs ds p j with
  | nil =>
    rw [track] at hj
    split at hj
    · cases hj
      exact Text.isBoundary_zero ds
    · cases hj
  | cons s rest ih =>
    obtain ⟨a, b, cs', ds', rfl, rfl, htakes, hrest⟩ := h
    have hlater : ∀ {j'}, byteLength a ≤ p → track rest (p - byteLength a) bias = some j' →
        IsBoundary (b ++ ds') (byteLength b + j') := fun hle hj' =>
      Text.isBoundary_append b (ih hrest (Text.isBoundary_of_append hle hp) hj')
    cases s with
    | kept n =>
      obtain ⟨rfl, rfl⟩ := htakes
      obtain ⟨hlt, rfl⟩ | ⟨hle, j', hj', rfl⟩ := track_kept hj
      · exact Text.isBoundary_front ds' (Nat.le_of_lt hlt) hp
      · exact hlater hle hj'
    | replaced d i =>
      obtain ⟨rfl, rfl⟩ := htakes
      obtain ⟨-, -, rfl⟩ | ⟨-, rfl | ⟨rfl, -⟩⟩ | ⟨-, hle, j', hj', rfl⟩ := track_replaced hj
      · exact Text.isBoundary_zero _
      · exact Text.isBoundary_append b (Text.isBoundary_zero ds')
      · exact Text.isBoundary_zero _
      · exact hlater hle hj'

end Span

namespace Delta

variable {d : Delta} {start stop start' stop' : Nat} {cs ds : List Char}

theorem trackRange_of_touches (h : d.touches start stop = true) : d.trackRange start stop = none := by
  rw [trackRange, if_pos h]

theorem trackRange_eq_some_iff {r : Nat × Nat} :
    d.trackRange start stop = some r ↔ d.touches start stop = false ∧
      ∃ i j, d.track start .after = some i ∧ d.track stop .before = some j ∧ (i, max i j) = r := by
  rw [trackRange]
  cases d.touches start stop with
  | true => simp
  | false => simp [Option.bind_eq_some_iff]

theorem trackRange_eq_none_iff (hle : start ≤ stop) (hstop : stop ≤ d.oldLength) :
    d.trackRange start stop = none ↔ d.touches start stop = true := by
  cases htouch : d.touches start stop with
  | true => simp [trackRange_of_touches htouch]
  | false =>
    obtain ⟨i, hi⟩ : ∃ i, d.track start .after = some i :=
      Span.exists_track nofun (Nat.le_trans hle hstop)
    obtain ⟨j, hj⟩ : ∃ j, d.track stop .before = some j := Span.exists_track nofun hstop
    have hsome := trackRange_eq_some_iff.mpr ⟨htouch, i, j, hi, hj, rfl⟩
    simp [hsome]

theorem le_of_trackRange {r : Nat × Nat} (h : d.trackRange start stop = some r) : r.1 ≤ r.2 := by
  obtain ⟨-, i, j, -, -, rfl⟩ := trackRange_eq_some_iff.mp h
  exact Nat.le_max_left i j

theorem trackRange_le {r r' : Nat × Nat} (h : d.trackRange start stop = some r)
    (h' : d.trackRange start' stop' = some r') (hle : start ≤ stop) (hfollows : stop ≤ start') :
    r.2 ≤ r'.1 := by
  obtain ⟨-, i, j, hi, hj, rfl⟩ := trackRange_eq_some_iff.mp h
  obtain ⟨-, i', j', hi', -, rfl⟩ := trackRange_eq_some_iff.mp h'
  exact Nat.max_le.mpr
    ⟨Span.track_le (Nat.le_trans hle hfollows) hi hi', Span.track_le hfollows hj hi'⟩

theorem isBoundary_trackRange {r : Nat × Nat} (h : d.trackRange start stop = some r)
    (hcarries : Span.Carries d.spans cs ds) (hstart : IsBoundary cs start)
    (hstop : IsBoundary cs stop) : IsBoundary ds r.1 ∧ IsBoundary ds r.2 := by
  obtain ⟨-, i, j, hi, hj, rfl⟩ := trackRange_eq_some_iff.mp h
  have hi' := Span.isBoundary_track hcarries hstart hi
  have hj' := Span.isBoundary_track hcarries hstop hj
  refine ⟨hi', ?_⟩
  cases Nat.le_total i j with
  | inl hle => rwa [Nat.max_eq_right hle]
  | inr hle => rwa [Nat.max_eq_left hle]

end Delta

end LanguageClient
