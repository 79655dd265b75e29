import LanguageClient.Proofs.Client.Mapping
import LanguageClient.Proofs.Delta.Intact

namespace LanguageClient

open Text (bytes tagged IsBoundary offsetAt)

namespace Mapping

variable {m : Mapping} {s : Documents} {uri : String} {b : Baseline} {d : Delta}

section Answer

variable (hb : Table.get? uri m.baseline = some b) (hd : m.changes s uri = .ok d)
include hb

theorem base_eq : m.base uri = .ok b := by
  rw [base, hb]

include hd

theorem mapOffset_eq {offset : Nat} (hle : offset ≤ Text.size b.text) (bias : Bias) :
    m.mapOffset s uri offset bias = .ok (d.track offset bias) := by
  simp [mapOffset, base_eq hb, hd, Nat.not_lt_of_le hle, bind, Except.bind, pure, Except.pure]

theorem mapPosition_eq (p : Position) (bias : Bias) :
    m.mapPosition s uri p bias = .ok (d.track (offsetAt b.text p) bias) := by
  rw [← mapOffset_eq hb hd (Text.le_of_isBoundary (Text.isBoundary_offsetAt b.text p)) bias]
  simp [mapPosition, base_eq hb, bind, Except.bind]

theorem mapRange_eq {start stop : Nat} (hle : start ≤ stop) (hstop : stop ≤ Text.size b.text) :
    m.mapRange s uri start stop = .ok (d.trackRange start stop) := by
  simp [mapRange, base_eq hb, hd, Nat.not_lt_of_le hle, Nat.not_lt_of_le hstop, bind, Except.bind,
    pure, Except.pure]

omit hb in
theorem touches_eq (start stop : Nat) : m.touches s uri start stop = .ok (d.touches start stop) := by
  simp [touches, hd, bind, Except.bind, pure, Except.pure]

end Answer

def Lands (text : String) (place : Option Nat) : Prop :=
  ∀ p ∈ place, p ≤ Text.size text ∧ IsBoundary text.toList p

theorem lands_track {text text' : String} {p : Nat} (h : Span.Carries d.spans text.toList text'.toList)
    (hp : IsBoundary text.toList p) (bias : Bias) : Lands text' (d.track p bias) := by
  intro j hj
  have hj' := Span.isBoundary_track h hp hj
  exact ⟨Text.le_of_isBoundary hj', hj'⟩

theorem isSome_track {p : Nat} {bias : Bias} (hbias : bias ≠ .strict) (hp : p ≤ d.oldLength) :
    (d.track p bias).isSome = true :=
  Option.isSome_iff_exists.mpr (Span.exists_track hbias hp)

end Mapping

namespace Client

open Mapping (Lands)

/-- No place between two characters of a baseline comes to one inside a character, and every position of
the protocol has an answer, however far it is out of range. A bias to one side never lacks a place. -/
theorem mapped_places_land (settings : Settings) (policy : HolderPolicy) (processId : Nat) (hashing : Hashing)
    (before : List Act) (a : Act) (after : List Act) (m : Mapping)
    (hm : ((new settings policy processId hashing).run before).mapping? a = some m)
    (hlive : ∀ a' ∈ after, a'.released? ≠ some m.scope) (uri : String) (b : Baseline)
    (hb : Table.get? uri m.baseline = some b)
    (hopen : closesIn uri after ((new settings policy processId hashing).run (before ++ [a])) = false) :
    let s := (((new settings policy processId hashing).run (before ++ [a])).run after).documents
    ∃ d, s.get? uri = some d ∧
      (∀ offset bias, IsBoundary b.text.toList offset →
        ∃ place, m.mapOffset s uri offset bias = .ok place ∧
          (bias ≠ .strict → place.isSome = true) ∧ Lands d.text place) ∧
      ∀ position bias,
        ∃ place, m.mapPosition s uri position bias = .ok place ∧
          (bias ≠ .strict → place.isSome = true) ∧ Lands d.text place := by
  intro s
  obtain ⟨d, delta, hget, htext, hdelta, hchanges⟩ :=
    exists_changes_of_mapping? settings policy processId hashing hm hlive hb hopen
  have hcarries := Delta.carries_of_ofEdits htext hdelta
  have htracks : ∀ offset bias, IsBoundary b.text.toList offset →
      (bias ≠ .strict → (delta.track offset bias).isSome = true) ∧
        Lands d.text (delta.track offset bias) := by
    intro offset bias hoffset
    have hle : offset ≤ delta.oldLength :=
      Delta.oldLength_of_ofEdits hdelta ▸ Text.le_of_isBoundary hoffset
    exact ⟨fun hbias => Mapping.isSome_track hbias hle, Mapping.lands_track hcarries hoffset bias⟩
  refine ⟨d, hget, ?_, ?_⟩
  · intro offset bias hoffset
    exact ⟨_, Mapping.mapOffset_eq hb hchanges (Text.le_of_isBoundary hoffset) bias,
      htracks offset bias hoffset⟩
  · intro position bias
    exact ⟨_, Mapping.mapPosition_eq hb hchanges position bias,
      htracks _ bias (Text.isBoundary_offsetAt b.text position)⟩

theorem mapped_places_land_of_replaced_character :
    let before : List Act := [.openFile "a" "text" "aéz"]
    let after : List Act := [.updateFile "a" [⟨1, 3, "日"⟩], .sync, .updateFile "a" [⟨0, 1, ""⟩]]
    let s := (((new .standard .exclusive 1 .rising).run (before ++ [.startMapping])).run after).documents
    let m : Mapping := ⟨0, [("a", ⟨1, 0, "aéz"⟩)]⟩
    m.mapOffset s "a" 1 .strict = .ok none ∧ m.mapOffset s "a" 1 .after = .ok (some 3) ∧
      m.mapPosition s "a" ⟨0, 7⟩ .before = .ok (some 4) ∧
      IsBoundary "日z".toList 3 ∧ IsBoundary "日z".toList 4 := by
  intro before after s m
  have hm : ((new .standard .exclusive 1 .rising).run before).mapping? .startMapping = some m := rfl
  have hb : Table.get? "a" m.baseline = some ⟨1, 0, "aéz"⟩ := rfl
  have hlive : ∀ a' ∈ after, a'.released? ≠ some m.scope := by decide
  obtain ⟨d, hget, hoffsets, hpositions⟩ :=
    mapped_places_land .standard .exclusive 1 .rising before .startMapping after m hm hlive "a" _ hb rfl
  obtain ⟨-, delta, -, -, hdelta, hchanges⟩ :=
    exists_changes_of_mapping? .standard .exclusive 1 .rising hm hlive hb rfl
  have hmerge : Span.merge [.kept 1, .replaced 2 3, .kept 1] [.replaced 1 0, .kept 4] =
      some [.replaced 3 3, .kept 1] := by
    simp [Span.merge, Span.cons, Span.through, Span.newLength, Span.oldLength, Span.dropOld]
  cases (Delta.ofEdits_pair rfl rfl hmerge).symm.trans hdelta
  cases hget
  have hinside := Mapping.mapOffset_eq hb hchanges (show 1 ≤ Text.size "aéz" by decide)
  have hfar := Mapping.mapPosition_eq hb hchanges ⟨0, 7⟩ .before
  obtain ⟨place, hplace, -, hlands⟩ := hoffsets 1 .after rfl
  cases hplace.symm.trans (hinside .after)
  obtain ⟨place, hplace, -, hlands'⟩ := hpositions ⟨0, 7⟩ .before
  cases hplace.symm.trans hfar
  exact ⟨hinside .strict, hinside .after, hfar, (hlands 3 rfl).2, (hlands' 4 rfl).2⟩

/-- A range of a baseline that has a place has it with all its bytes. Exactly the ranges that were touched
have none. The bytes at the place are those of the range, each of them the very byte that was there: in
the replay of the edits, nothing that was inserted stands among them. Ranges that follow each other keep
their order. -/
theorem mapped_range_intact (settings : Settings) (policy : HolderPolicy) (processId : Nat) (hashing : Hashing)
    (before : List Act) (a : Act) (after : List Act) (m : Mapping)
    (hm : ((new settings policy processId hashing).run before).mapping? a = some m)
    (hlive : ∀ a' ∈ after, a'.released? ≠ some m.scope) (uri : String) (b : Baseline)
    (hb : Table.get? uri m.baseline = some b)
    (hopen : closesIn uri after ((new settings policy processId hashing).run (before ++ [a])) = false) :
    let c := (new settings policy processId hashing).run (before ++ [a])
    let s := (c.run after).documents
    let edits := c.pending uri ++ editsIn uri after c
    ∃ d, s.get? uri = some d ∧ Edit.applyAll edits b.text = .ok d.text ∧
      (Edit.replay edits (tagged b.text)).map Prod.snd = bytes d.text ∧
      (∀ start stop, start ≤ stop → stop ≤ Text.size b.text →
        ∃ place touched, m.mapRange s uri start stop = .ok place ∧
          m.touches s uri start stop = .ok touched ∧ (place = none ↔ touched = true) ∧
          ∀ r, place = some r → r.1 ≤ r.2 ∧ r.2 ≤ Text.size d.text ∧
            (bytes d.text).extract r.1 r.2 = (bytes b.text).extract start stop ∧
            (Edit.replay edits (tagged b.text)).extract r.1 r.2 =
              (tagged b.text).extract start stop) ∧
      ∀ start stop start' stop' r r', start ≤ stop → stop ≤ start' → start' ≤ stop' →
        stop' ≤ Text.size b.text → m.mapRange s uri start stop = .ok (some r) →
        m.mapRange s uri start' stop' = .ok (some r') → r.2 ≤ r'.1 := by
  intro c s edits
  obtain ⟨d, delta, hget, htext, hdelta, hchanges⟩ :=
    exists_changes_of_mapping? settings policy processId hashing hm hlive hb hopen
  obtain ⟨delta', hdelta', hnormal, hold, hnew, -, hbytes⟩ := Delta.ofEdits_replay htext
  cases hdelta.symm.trans hdelta'
  refine ⟨d, hget, htext, hbytes, ?_, ?_⟩
  · intro start stop hle hstop
    rw [← hold] at hstop
    have hrange := Mapping.mapRange_eq hb hchanges hle (hold ▸ hstop)
    refine ⟨_, _, hrange, Mapping.touches_eq hchanges start stop,
      Delta.trackRange_eq_none_iff hle hstop, ?_⟩
    intro r hr
    exact ⟨Delta.le_of_trackRange hr, hnew ▸ Delta.trackRange_le_newLength hr hnormal hle hstop,
      Delta.extract_bytes_of_trackRange htext hdelta hle (hold ▸ hstop) hr,
      Delta.extract_replay_of_trackRange htext hdelta hle (hold ▸ hstop) hr⟩
  · intro start stop start' stop' r r' hle hfollows hle' hstop' hr hr'
    have hstop : stop ≤ Text.size b.text := Nat.le_trans hfollows (Nat.le_trans hle' hstop')
    rw [Mapping.mapRange_eq hb hchanges hle hstop] at hr
    rw [Mapping.mapRange_eq hb hchanges hle' hstop'] at hr'
    exact Delta.trackRange_le (Except.ok.inj hr) (Except.ok.inj hr') hle hfollows

theorem mapped_range_intact_of_insertions :
    let before : List Act := [.openFile "a" "text" "aéz"]
    let after : List Act := [.updateFile "a" [⟨1, 1, "日"⟩], .sync, .updateFile "a" [⟨6, 6, "!"⟩]]
    let s := (((new .standard .exclusive 1 .rising).run (before ++ [.startMapping])).run after).documents
    let m : Mapping := ⟨0, [("a", ⟨1, 0, "aéz"⟩)]⟩
    m.mapRange s "a" 1 3 = .ok (some (4, 6)) ∧ m.mapRange s "a" 0 3 = .ok none ∧
      (bytes "a日é!z").extract 4 6 = bytes "é" ∧
      (Edit.replay [⟨1, 1, "日"⟩, ⟨6, 6, "!"⟩] (tagged "aéz")).extract 4 6 =
        [(some 1, 0xC3), (some 2, 0xA9)] := by
  intro before after s m
  have hm : ((new .standard .exclusive 1 .rising).run before).mapping? .startMapping = some m := rfl
  have hb : Table.get? "a" m.baseline = some ⟨1, 0, "aéz"⟩ := rfl
  have hlive : ∀ a' ∈ after, a'.released? ≠ some m.scope := by decide
  obtain ⟨d, hget, -, -, hranges, -⟩ :=
    mapped_range_intact .standard .exclusive 1 .rising before .startMapping after m hm hlive "a" _ hb rfl
  obtain ⟨-, delta, -, -, hdelta, hchanges⟩ :=
    exists_changes_of_mapping? .standard .exclusive 1 .rising hm hlive hb rfl
  have hmerge : Span.merge [.kept 1, .replaced 0 3, .kept 3] [.kept 6, .replaced 0 1, .kept 1] =
      some [.kept 1, .replaced 0 3, .kept 2, .replaced 0 1, .kept 1] := by
    simp [Span.merge, Span.cons, Span.through, Span.newLength, Span.oldLength, Span.dropNew,
      Span.dropOld]
  cases (Delta.ofEdits_pair rfl rfl hmerge).symm.trans hdelta
  cases hget
  have hplace := Mapping.mapRange_eq hb hchanges (show 1 ≤ 3 by decide) (by decide)
  obtain ⟨place, touched, hanswer, -, -, hintact⟩ := hranges 1 3 (by decide) (by decide)
  cases hanswer.symm.trans hplace
  obtain ⟨-, -, hbytes, hreplay⟩ := hintact (4, 6) rfl
  exact ⟨hplace, Mapping.mapRange_eq hb hchanges (by decide) (by decide), hbytes, hreplay⟩

end Client

end LanguageClient
