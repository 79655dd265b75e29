import LanguageClient.Delta.Track
import LanguageClient.Proofs.Delta.Edits
import LanguageClient.Proofs.Text.Bytes

namespace LanguageClient

/-- A byte with its offset in the text that it comes from; one that was inserted has none. -/
abbrev Tagged := Option Nat × UInt8

namespace Text

def tagged (text : String) : List Tagged :=
  (Delta.places (size text)).zip (bytes text)

@[simp] theorem map_fst_tagged (text : String) :
    (tagged text).map Prod.fst = Delta.places (size text) :=
  List.map_fst_zip (by simp)

@[simp] theorem map_snd_tagged (text : String) : (tagged text).map Prod.snd = bytes text :=
  List.map_snd_zip (by simp)

theorem getElem?_of_mem_tagged {text : String} {i : Nat} {b : UInt8}
    (h : (some i, b) ∈ tagged text) : (bytes text)[i]? = some b := by
  obtain ⟨k, hk⟩ := List.mem_iff_getElem?.mp h
  obtain ⟨hplace, hbyte⟩ := List.getElem?_zip_eq_some.mp hk
  simp only [Delta.places, List.getElem?_map, Option.map_eq_some_iff] at hplace
  obtain ⟨m, hm, hmi⟩ := hplace
  cases hmi
  obtain ⟨_, rfl⟩ := List.getElem?_eq_some_iff.mp hm
  simpa using hbyte

end Text

namespace Edit

def redo (xs : List Tagged) (e : Edit) : List Tagged :=
  xs.take e.start ++ (Text.bytes e.insert).map (none, ·) ++ xs.drop e.stop

def replay (edits : List Edit) (xs : List Tagged) : List Tagged :=
  edits.foldl redo xs

theorem map_snd_redo {e : Edit} {text text' : String} {xs : List Tagged}
    (h : e.apply text = .ok text') (hxs : xs.map Prod.snd = Text.bytes text) :
    (redo xs e).map Prod.snd = Text.bytes text' := by
  rw [bytes_of_apply h, ← hxs]
  simp [redo, List.map_take, List.map_drop, Function.comp_def]

theorem map_snd_replay {edits : List Edit} {s t : String} {xs : List Tagged}
    (h : applyAll edits s = .ok t) (hxs : xs.map Prod.snd = Text.bytes s) :
    (replay edits xs).map Prod.snd = Text.bytes t := by
  induction edits generalizing s xs with
  | nil =>
    cases h
    exact hxs
  | cons e edits ih =>
    obtain ⟨s', hs', h⟩ := exists_of_applyAll_cons h
    exact ih h (map_snd_redo hs' hxs)

theorem map_fst_redo {e : Edit} {length : Nat} {d : Delta} {xs : List Tagged}
    (h : Delta.ofEdit length e = .ok d) (hxs : xs.length = length) :
    (redo xs e).map Prod.fst = d.image (xs.map Prod.fst) := by
  rw [Delta.image_of_ofEdit h _ (by simpa using hxs)]
  simp [redo, List.map_take, List.map_drop, Function.comp_def, List.map_const']

theorem mem_of_mem_redo {e : Edit} {xs : List Tagged} {i : Nat} {b : UInt8}
    (h : (some i, b) ∈ redo xs e) : (some i, b) ∈ xs := by
  simp only [redo, List.mem_append, List.mem_map] at h
  rcases h with (h | ⟨c, -, hc⟩) | h
  · exact List.mem_of_mem_take h
  · cases hc
  · exact List.mem_of_mem_drop h

theorem mem_of_mem_replay {edits : List Edit} {xs : List Tagged} {i : Nat} {b : UInt8}
    (h : (some i, b) ∈ replay edits xs) : (some i, b) ∈ xs := by
  induction edits generalizing xs with
  | nil => exact h
  | cons e edits ih => exact mem_of_mem_redo (ih h)

end Edit

namespace Span

variable {α : Type} {s : Span} {rest : List Span} {xs : List (Option α)} {i j : Nat}

theorem mem_of_some_mem_image {spans : List Span} {xs : List (Option α)} {x : α}
    (h : some x ∈ image spans xs) : some x ∈ xs := by
  induction spans generalizing xs with
  | nil => cases h
  | cons s rest ih =>
    rcases List.mem_append.mp h with hfront | hrest
    · cases s with
      | kept n => exact List.mem_of_mem_take hfront
      | replaced d i => simp [front] at hfront
    · exact List.mem_of_mem_drop (ih hrest)

theorem track_zero_of_kept {spans : List Span} (h : Normal spans)
    (hkept : ∀ t ∈ spans.head?, t.isKept) : track spans 0 .after = some 0 := by
  cases spans with
  | nil => rfl
  | cons s rest =>
    cases s with
    | kept n =>
      have hn : n ≠ 0 := fun hn => h.1 ⟨hn, hn⟩
      simp [track, Nat.pos_of_ne_zero hn]
    | replaced d i => simp [isKept] at hkept

theorem eq_of_getElem?_eq {xs : List (Option α)} (hnodup : xs.Nodup) {i j : Nat} {x : Option α}
    (hi : xs[i]? = some x) (hj : xs[j]? = some x) : i = j := by
  obtain ⟨hlt, -⟩ := List.getElem?_eq_some_iff.mp hi
  exact (List.getElem?_inj hlt hnodup).mp (hi.trans hj.symm)

theorem le_of_mem_drop {xs : List (Option α)} (hnodup : xs.Nodup) {n i : Nat} {x : Option α}
    (hi : xs[i]? = some x) (h : x ∈ xs.drop n) : n ≤ i := by
  obtain ⟨k, hk⟩ := List.mem_iff_getElem?.mp h
  rw [List.getElem?_drop] at hk
  have := eq_of_getElem?_eq hnodup hi hk
  omega

theorem getElem?_image_cons_cases (hnodup : xs.Nodup) (hlength : s.oldLength ≤ xs.length) {x : α}
    (hi : xs[i]? = some (some x)) (hj : (image (s :: rest) xs)[j]? = some (some x)) :
    (∃ n, s = kept n ∧ i < n ∧ j = i) ∨
      s.oldLength ≤ i ∧ s.newLength ≤ j ∧
        (image rest (xs.drop s.oldLength))[j - s.newLength]? = some (some x) := by
  have hfront := length_front s xs hlength
  obtain hlt | hge := Nat.lt_or_ge j s.newLength
  · rw [image, List.getElem?_append_left (by omega)] at hj
    cases s with
    | kept n =>
      have hlt : j < n := hlt
      rw [front, List.getElem?_take_of_lt hlt] at hj
      obtain rfl := eq_of_getElem?_eq hnodup hi hj
      exact .inl ⟨n, rfl, hlt, rfl⟩
    | replaced d m => simp [front, List.getElem?_replicate] at hj
  · rw [image, List.getElem?_append_right (by omega), hfront] at hj
    have hmem := mem_of_some_mem_image (List.mem_of_getElem? hj)
    exact .inr ⟨le_of_mem_drop hnodup hi hmem, hge, hj⟩

theorem track_of_getElem?_image {spans : List Span} (h : Normal spans) {xs : List (Option α)}
    (hnodup : xs.Nodup) (hlen : oldTotal spans = xs.length) {i j : Nat} {x : α}
    (hi : xs[i]? = some (some x)) (hj : (image spans xs)[j]? = some (some x)) :
    track spans i .after = some j := by
  induction spans generalizing xs i j with
  | nil => simp [image] at hj
  | cons s rest ih =>
    rw [oldTotal] at hlen
    obtain ⟨n, rfl, hlt, rfl⟩ | ⟨hle, hge, hj⟩ := getElem?_image_cons_cases hnodup (by omega) hi hj
    · simp [track, hlt]
    · have htrack : track rest (i - s.oldLength) .after = some (j - s.newLength) := by
        apply ih h.2.2 hnodup.drop (by simp; omega) _ hj
        rwa [List.getElem?_drop, Nat.add_sub_cancel' hle]
      cases s with
      | kept n =>
        have hn : n ≤ i := hle
        have hj : n ≤ j := hge
        simp only [oldLength, newLength] at htrack
        simp [track, htrack, Nat.not_lt_of_le hn, Nat.add_sub_cancel' hj]
      | replaced d i' =>
        have hd : d ≤ i := hle
        have hj : i' ≤ j := hge
        simp only [oldLength, newLength] at htrack
        -- at offset zero `track` stops behind this span, and does not look at the rest
        by_cases hzero : i = 0
        · subst hzero
          obtain rfl : d = 0 := Nat.le_zero.mp hd
          have hnext : track rest 0 .after = some 0 :=
            track_zero_of_kept h.2.2 (by simpa [isKept] using h.2.1)
          rw [Nat.sub_zero, hnext] at htrack
          have : j - i' = 0 := (Option.some.inj htrack).symm
          simp [track]
          omega
        · simp [track, htrack, hzero, Nat.not_lt_of_le hd, Nat.add_sub_cancel' hj]

theorem track_oldTotal {spans : List Span} (h : Normal spans) :
    track spans (oldTotal spans) .after = some (newTotal spans) := by
  induction spans with
  | nil => rfl
  | cons s rest ih =>
    have ih := ih h.2.2
    cases s with
    | kept n =>
      simp [track, oldTotal, newTotal, oldLength, newLength, ih, Nat.not_lt_of_le (Nat.le_add_right ..)]
    | replaced d i =>
      simp only [track, oldTotal, newTotal, oldLength, newLength]
      split
      next hzero =>
        have hrest : newTotal rest = 0 := by
          have hnext := track_zero_of_kept h.2.2 (by simpa [isKept] using h.2.1)
          rw [show oldTotal rest = 0 by omega, hnext] at ih
          exact (Option.some.inj ih).symm
        simp [show d = 0 by omega, hrest]
      next => simp [ih, Nat.not_lt_of_le (Nat.le_add_right ..)]

end Span

namespace Delta

variable {d d' : Delta} {edits : List Edit} {length : Nat} {s t : String} {xs : List Tagged}
  {ys : List (Option Nat)}

theorem map_fst_replay (h : edits.foldlM andThen d = .ok d') (hlength : d.oldLength ≤ ys.length)
    (htags : xs.map Prod.fst = d.image ys) : (Edit.replay edits xs).map Prod.fst = d'.image ys := by
  induction edits generalizing d xs with
  | nil =>
    cases h
    exact htags
  | cons e edits ih =>
    obtain ⟨step, next, hstep, hcompose, h⟩ := exists_of_foldlM_cons h
    have hxs : xs.length = d.newLength := by
      rw [← List.length_map (f := Prod.fst), htags, length_image d ys hlength]
    -- the tags go through `step` as they went through `d`, so they go through `next`
    refine ih h (oldLength_of_compose hcompose ▸ hlength) ?_
    rw [Edit.map_fst_redo hstep hxs, htags, image_of_compose hcompose ys hlength]

theorem image_of_ofEdits_replay (h : ofEdits length edits = .ok d)
    (htags : xs.map Prod.fst = places length) :
    (Edit.replay edits xs).map Prod.fst = d.image (places length) := by
  refine map_fst_replay h (by simp) ?_
  rw [htags, image_identity, List.take_of_length_le (by simp)]

theorem exists_foldlM_andThen (h : Edit.applyAll edits s = .ok t) (hlength : d.newLength = Text.size s) :
    ∃ d', edits.foldlM andThen d = .ok d' ∧ d'.newLength = Text.size t := by
  induction edits generalizing s d with
  | nil =>
    cases h
    exact ⟨d, rfl, hlength⟩
  | cons e edits ih =>
    obtain ⟨s', hs', h⟩ := Edit.exists_of_applyAll_cons h
    obtain ⟨hle, hstop⟩ := Edit.bounds_of_apply hs'
    rw [← hlength] at hstop
    obtain ⟨step, hstep⟩ := exists_ofEdit hle hstop
    obtain ⟨next, hnext⟩ := exists_compose (oldLength_of_ofEdit hstep).symm
    have hnextlength : next.newLength = Text.size s' := by
      rw [newLength_of_compose hnext, newLength_of_ofEdit hstep, Edit.size_of_apply hs', hlength]
    have hand : d.andThen e = .ok next := by
      rw [andThen, hstep]
      exact hnext
    rw [List.foldlM_cons, hand]
    exact ih h hnextlength

/-- The delta of edits that apply to a text is the one that replaying them shows. -/
theorem ofEdits_replay (h : Edit.applyAll edits s = .ok t) :
    ∃ d, ofEdits (Text.size s) edits = .ok d ∧ d.IsNormal ∧ d.oldLength = Text.size s ∧
      d.newLength = Text.size t ∧
      (Edit.replay edits (Text.tagged s)).map Prod.fst = d.image (places (Text.size s)) ∧
      (Edit.replay edits (Text.tagged s)).map Prod.snd = Text.bytes t := by
  obtain ⟨d, hd, hnew⟩ := exists_foldlM_andThen h (newLength_identity (Text.size s))
  exact ⟨d, hd, isNormal_of_ofEdits hd, oldLength_of_ofEdits hd, hnew,
    image_of_ofEdits_replay hd (Text.map_fst_tagged s),
    Edit.map_snd_replay h (Text.map_snd_tagged s)⟩

/-- Every byte that survives all the edits is where the delta says, and the same byte still; what is
behind the last byte stays behind it. -/
theorem track_surviving_bytes {s t : String} {edits : List Edit}
    (h : Edit.applyAll edits s = .ok t) :
    ∃ d, ofEdits (Text.size s) edits = .ok d ∧
      d.oldLength = Text.size s ∧ d.newLength = Text.size t ∧
      (Edit.replay edits (Text.tagged s)).map Prod.snd = Text.bytes t ∧
      (∀ i j b, (Edit.replay edits (Text.tagged s))[j]? = some (some i, b) →
        d.track i .after = some j ∧
          (Text.bytes s)[i]? = some b ∧ (Text.bytes t)[j]? = some b) ∧
      d.track (Text.size s) .after = some (Text.size t) := by
  obtain ⟨d, hd, hnormal, hold, hnew, htags, hbytes⟩ := ofEdits_replay h
  refine ⟨d, hd, hold, hnew, hbytes, ?_, ?_⟩
  · intro i j b hj
    have hs : (Text.bytes s)[i]? = some b :=
      Text.getElem?_of_mem_tagged (Edit.mem_of_mem_replay (List.mem_of_getElem? hj))
    obtain ⟨hi, -⟩ := List.getElem?_eq_some_iff.mp hs
    refine ⟨?_, hs, ?_⟩
    · have hplace : (places (Text.size s))[i]? = some (some i) := by
        rw [Text.length_bytes] at hi
        simp [places, List.getElem?_range hi]
      have htag : (d.image (places (Text.size s)))[j]? = some (some i) := by
        rw [← htags, List.getElem?_map, hj]
        rfl
      exact Span.track_of_getElem?_image hnormal (distinct_places _).nodup
        (hold.trans (length_places _).symm) hplace htag
    · rw [← hbytes, List.getElem?_map, hj]
      rfl
  · rw [← hold, ← hnew]
    exact Span.track_oldTotal hnormal

theorem track_surviving_bytes_of_overlap :
    Edit.applyAll [⟨1, 3, "xyz"⟩, ⟨2, 5, ""⟩] "aé0b" = .ok "axb" ∧
      ∃ d, ofEdits 5 [⟨1, 3, "xyz"⟩, ⟨2, 5, ""⟩] = .ok d ∧
        d.track 0 .after = some 0 ∧ d.track 4 .after = some 2 ∧ d.track 5 .after = some 3 := by
  have h : Edit.applyAll [⟨1, 3, "xyz"⟩, ⟨2, 5, ""⟩] "aé0b" = .ok "axb" := rfl
  obtain ⟨d, hd, -, -, -, hbytes, hend⟩ := track_surviving_bytes h
  exact ⟨h, d, hd, (hbytes 0 0 97 rfl).1, (hbytes 4 2 98 rfl).1, hend⟩

end Delta

end LanguageClient
