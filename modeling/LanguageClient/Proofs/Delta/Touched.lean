import LanguageClient.Proofs.Delta.Regions

namespace LanguageClient

namespace Span

variable {α : Type} {spans : List Span} {old new p q i : Nat} {xs : List (Option α)}

theorem clear_of_getElem?_image (hnormal : Normal spans) (hxs : Places xs)
    (hlength : oldTotal spans = xs.length) (hlt : p < q) (hq : q ≤ xs.length)
    (h : ∀ k < q - p, (image spans xs)[i + k]? = xs[p + k]?) : Clear old new spans p q := by
  induction spans generalizing old new p q i xs with
  | nil => exact fun r hr => nomatch hr
  | cons s rest ih =>
    rw [oldTotal] at hlength
    have hrest : oldTotal rest = (xs.drop s.oldLength).length := by
      rw [List.length_drop]
      omega
    have hplace : xs[p]? = some xs[p] := List.getElem?_eq_getElem (Nat.lt_of_lt_of_le hlt hq)
    obtain ⟨x, hx⟩ : ∃ x, xs[p] = some x := Option.ne_none_iff_exists'.mp fun hnone =>
      hxs.isSome (hnone ▸ List.getElem_mem _)
    rw [hx] at hplace
    have hfirst : (image (s :: rest) xs)[i]? = some (some x) :=
      (h 0 (Nat.sub_pos_of_lt hlt)).trans hplace
    have hfront := length_front s xs (by omega)
    obtain ⟨n, rfl, hp, rfl⟩ | ⟨hp, hi, -⟩ :=
      getElem?_image_cons_cases hxs.nodup (by omega) hplace hfirst
    · -- a region behind the span would separate its last byte from the next one
      have hstop : q ≤ n := by
        apply Nat.le_of_not_lt
        intro hn
        have hnext := h (n - i) (by omega)
        rw [Nat.add_sub_cancel' (Nat.le_of_lt hp)] at hnext
        have hend := length_le_of_getElem?_image_kept hnormal hxs hlength hnext
        omega
      intro r hr hstart
      have hle : old + n ≤ r.oldStart := le_of_mem_regionsFrom hr
      omega
    · have hclear : Clear (old + s.oldLength) (new + s.newLength) rest (p - s.oldLength)
          (q - s.oldLength) := by
        refine ih hnormal.2.2 (hxs.drop _) hrest (by omega) (by rw [List.length_drop]; omega)
          (i := i - s.newLength) fun k hk => ?_
        have hk := h k (by omega)
        rw [image, List.getElem?_append_right (by omega), hfront] at hk
        rw [List.getElem?_drop, show s.oldLength + (p - s.oldLength + k) = p + k by omega, ← hk]
        congr 1
        omega
      intro r hr hstart
      obtain ⟨-, rfl⟩ | hr := mem_regionsFrom_cons.mp hr
      · exact Nat.add_le_add_left hp old
      · have := hclear r hr (by omega)
        omega

end Span

namespace Edit

/-- Where an edit leaves a range that it does not reach into, though it may abut it. -/
def shift? (range : Nat × Nat) (e : Edit) : Option (Nat × Nat) :=
  if e.stop ≤ range.1 then
    some (e.start + Text.size e.insert + (range.1 - e.stop),
      e.start + Text.size e.insert + (range.2 - e.stop))
  else if range.2 ≤ e.start then some range
  else none

variable {e : Edit} {edits : List Edit} {range range' : Nat × Nat} {d d' : Delta} {k : Nat}
  {xs : List Tagged}

theorem getElem?_redo_of_shift? (hedit : e.start ≤ e.stop) (hle : range.1 ≤ range.2)
    (hlength : range.2 ≤ xs.length) (h : shift? range e = some range') :
    range'.1 ≤ range'.2 ∧ range'.2 ≤ (redo xs e).length ∧
      range'.2 - range'.1 = range.2 - range.1 ∧
      ∀ k < range.2 - range.1, (redo xs e)[range'.1 + k]? = xs[range.1 + k]? := by
  have hredo : (redo xs e).length = min e.start xs.length + Text.size e.insert +
      (xs.length - e.stop) := by
    simp [redo, Nat.add_assoc]
  unfold shift? at h
  split at h
  next hstop =>
    cases h
    dsimp only
    have hfront : (xs.take e.start ++ (Text.bytes e.insert).map fun b => ((none, b) : Tagged)).length =
        e.start + Text.size e.insert := by
      simp
      omega
    refine ⟨by omega, by omega, by omega, fun k hk => ?_⟩
    rw [redo, List.getElem?_append_right (by omega), hfront, List.getElem?_drop]
    congr 1
    omega
  next =>
    split at h
    next hstart =>
      cases h
      refine ⟨hle, by omega, rfl, fun k hk => ?_⟩
      have hfront : range.1 + k < (xs.take e.start).length := by
        rw [List.length_take]
        omega
      rw [redo, List.append_assoc, List.getElem?_append_left hfront,
        List.getElem?_take_of_lt (by omega)]
    next => cases h

theorem getElem?_replay_of_shifts (hvalid : edits.foldlM Delta.andThen d = .ok d')
    (hle : range.1 ≤ range.2) (hlength : range.2 ≤ xs.length)
    (h : edits.foldlM shift? range = some range') (hk : k < range.2 - range.1) :
    (replay edits xs)[range'.1 + k]? = xs[range.1 + k]? := by
  induction edits generalizing d range xs with
  | nil =>
    cases h
    rfl
  | cons e edits ih =>
    obtain ⟨step, next, hstep, -, hvalid⟩ := Delta.exists_of_foldlM_cons hvalid
    obtain ⟨hedit, -⟩ := Delta.bounds_of_ofEdit hstep
    rw [List.foldlM_cons] at h
    obtain ⟨mid, hmid, h⟩ := Option.bind_eq_some_iff.mp h
    obtain ⟨hle', hlength', hwidth, hbytes⟩ := getElem?_redo_of_shift? hedit hle hlength hmid
    exact (ih hvalid hle' hlength' h (hwidth ▸ hk)).trans (hbytes k hk)

end Edit

namespace Delta

variable {d : Delta} {edits : List Edit} {length start stop k : Nat} {document : List Tagged}

theorem touches_eq_false_iff :
    d.touches start stop = false ↔ ∀ r ∈ d.regions, r.oldStop ≤ start ∨ stop ≤ r.oldStart := by
  rw [← Bool.not_eq_true, touches_iff]
  constructor
  · intro hfree r hr
    obtain hstart | hbehind := Nat.lt_or_ge r.oldStart stop
    · exact .inl (Nat.le_of_not_lt fun hstop => hfree ⟨r, hr, hstart, hstop⟩)
    · exact .inr hbehind
  · rintro hfree ⟨r, hr, hstart, hstop⟩
    obtain hbefore | hbehind := hfree r hr
    · exact Nat.not_le_of_lt hstop hbefore
    · exact Nat.not_le_of_lt hstart hbehind

theorem touches_self_iff (hnormal : d.IsNormal) (hpos : 0 < start) :
    d.touches start start = true ↔
      d.touches (start - 1) start = true ∧ d.touches start (start + 1) = true := by
  simp only [touches_iff]
  constructor
  · rintro ⟨r, hr, hstart, hstop⟩
    exact ⟨⟨r, hr, hstart, by omega⟩, r, hr, by omega, hstop⟩
  · rintro ⟨⟨r, hr, hstart, hstop⟩, r', hr', hstart', hstop'⟩
    obtain rfl | hapart | hapart := Span.apart_of_mem hnormal hr hr'
    · exact ⟨r, hr, hstart, hstop'⟩
    · omega
    · omega

section Replay

variable (h : ofEdits length edits = .ok d) (htags : document.map Prod.fst = places length)
include h htags

theorem touches_eq_false_iff_replay (hlt : start < stop) (hstop : stop ≤ length) :
    d.touches start stop = false ↔
      ∃ i, ∀ k < stop - start,
        ((Edit.replay edits document).map Prod.fst)[i + k]? = some (some (start + k)) := by
  have hnormal := isNormal_of_ofEdits h
  have hold := oldLength_of_ofEdits h
  have hplaces : Span.oldTotal d.spans = (places length).length :=
    hold.trans (length_places length).symm
  have hplace : ∀ k < stop - start, (places length)[start + k]? = some (some (start + k)) := by
    intro k hk
    exact getElem?_places (by omega)
  rw [image_of_ofEdits_replay h htags]
  constructor
  · intro hfree
    obtain ⟨i, hi⟩ : ∃ i, d.track start .after = some i :=
      Span.exists_track (by decide) (show start ≤ d.oldLength by omega)
    obtain ⟨j, hj⟩ : ∃ j, d.track stop .before = some j :=
      Span.exists_track (by decide) (show stop ≤ d.oldLength by omega)
    obtain ⟨-, hrange⟩ := Span.getElem?_image_of_clear hnormal (Nat.le_of_eq hplaces)
      (clear_of_touches hfree) hlt hi hj
    exact ⟨i, fun k hk => (hrange k hk).trans (hplace k hk)⟩
  · rintro ⟨i, hi⟩
    have hclear : Span.Clear 0 0 d.spans start stop :=
      Span.clear_of_getElem?_image hnormal (distinct_places length) hplaces hlt
        ((length_places length).symm ▸ hstop) fun k hk => (hi k hk).trans (hplace k hk).symm
    rw [touches_eq_false_iff]
    intro r hr
    have := hclear r hr
    omega

theorem mem_replay_iff (hk : k < length) :
    some k ∈ (Edit.replay edits document).map Prod.fst ↔ d.touches k (k + 1) = false := by
  rw [touches_eq_false_iff_replay h htags (Nat.lt_succ_self k) hk, List.mem_iff_getElem?]
  simp

end Replay

/-- Which ranges count as touched. One that holds bytes is untouched exactly if they are all left, next to
each other, and it is so if each edit in turn ends where the range then begins, begins where it ends,
or is further away. An empty range is touched exactly if the bytes on both sides of it are gone. -/
theorem touches_replay (h : ofEdits length edits = .ok d)
    (htags : document.map Prod.fst = places length) (hle : start ≤ stop) (hstop : stop ≤ length) :
    let left := (Edit.replay edits document).map Prod.fst
    (start < stop → (d.touches start stop = false ↔
        ∃ i, ∀ k < stop - start, left[i + k]? = some (some (start + k)))) ∧
      (start = stop → 0 < start → start < length → (d.touches start stop = true ↔
        some (start - 1) ∉ left ∧ some start ∉ left)) ∧
      (start = stop → start = 0 ∨ start = length → d.touches start stop = false) ∧
      (d.touches start stop = false ↔ ∀ r ∈ d.regions, r.oldStop ≤ start ∨ stop ≤ r.oldStart) ∧
      (start < stop → (edits.foldlM Edit.shift? (start, stop)).isSome →
        d.touches start stop = false) := by
  intro left
  have hnormal := isNormal_of_ofEdits h
  have hadjacent : start < stop → (d.touches start stop = false ↔
      ∃ i, ∀ k < stop - start, left[i + k]? = some (some (start + k))) :=
    fun hlt => touches_eq_false_iff_replay h htags hlt hstop
  refine ⟨hadjacent, ?_, ?_, touches_eq_false_iff, ?_⟩
  · rintro rfl hpos hlt
    rw [touches_self_iff hnormal hpos, mem_replay_iff h htags hlt,
      mem_replay_iff h htags (by omega), Nat.sub_add_cancel hpos, Bool.not_eq_false,
      Bool.not_eq_false]
  · rintro rfl hend
    rw [touches_eq_false_iff]
    intro r hr
    obtain rfl | rfl := hend
    · exact .inr (Nat.zero_le _)
    · have hstop := Span.oldStop_le_of_mem_regionsFrom hr
      rw [Nat.zero_add] at hstop
      exact .inl (oldLength_of_ofEdits h ▸ hstop)
  · intro hlt hshifts
    obtain ⟨range, hrange⟩ := Option.isSome_iff_exists.mp hshifts
    refine (hadjacent hlt).mpr ⟨range.1, fun k hk => ?_⟩
    have hlength : document.length = length := by
      rw [← List.length_map (f := Prod.fst), htags, length_places]
    rw [List.getElem?_map, Edit.getElem?_replay_of_shifts h hle (hlength ▸ hstop) hrange hk,
      ← List.getElem?_map, htags, getElem?_places (by omega)]

theorem touches_replay_of_abutting :
    let edits : List Edit := [⟨1, 2, "x"⟩, ⟨2, 3, ""⟩]
    let d : Delta := ⟨[.kept 1, .replaced 2 1, .kept 3]⟩
    ofEdits 6 edits = .ok d ∧ (Text.tagged "abcdef").map Prod.fst = places 6 ∧
      d.touches 2 2 = true ∧ d.touches 3 6 = false ∧ d.touches 6 6 = false := by
  intro edits d
  have hmerge : Span.merge [.kept 1, .replaced 1 1, .kept 4] [.kept 2, .replaced 1 0, .kept 3] =
      some d.spans := by
    simp [d, Span.merge, Span.cons, Span.through, Span.newLength, Span.oldLength, Span.dropNew,
      Span.dropOld]
  have hd : ofEdits 6 edits = .ok d := ofEdits_pair rfl rfl hmerge
  have htags : (Text.tagged "abcdef").map Prod.fst = places 6 := rfl
  obtain ⟨-, hempty, -, -, -⟩ := touches_replay hd htags (Nat.le_refl 2) (by decide)
  obtain ⟨-, -, -, -, hshifts⟩ := touches_replay hd htags (show 3 ≤ 6 by decide) (by decide)
  obtain ⟨-, -, hend, -, -⟩ := touches_replay hd htags (Nat.le_refl 6) (by decide)
  exact ⟨hd, htags, (hempty rfl (by decide) (by decide)).mpr (by decide),
    hshifts (by decide) rfl, hend rfl (.inr rfl)⟩

end Delta

end LanguageClient
