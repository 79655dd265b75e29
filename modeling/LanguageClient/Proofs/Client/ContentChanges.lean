import LanguageClient.Client.Frame
import LanguageClient.Proofs.Text.Position
import LanguageClient.Proofs.Workspace.Follow

namespace LanguageClient

namespace ContentChange

def applyTo (text : String) (c : ContentChange) : Except Edit.Refusal String :=
  match c.range with
  | some r => Edit.apply ⟨Text.offsetAt text r.start, Text.offsetAt text r.stop, c.text⟩ text
  | none => .ok c.text

def applyAll (changes : List ContentChange) (text : String) : Except Edit.Refusal String :=
  changes.foldlM applyTo text

end ContentChange

namespace Edit

/-- Whether edits made one after another begin and end at good places, each of the text that it meets. -/
def allEnds (good : String → Nat → Bool) : List Edit → String → Bool
  | [], _ => true
  | e :: rest, text =>
    good text e.start && good text e.stop &&
      match e.apply text with
      | .ok next => allEnds good rest next
      | .error _ => true

def spareBreaks : List Edit → String → Bool :=
  allEnds fun text n => !Text.inBreak text.toList n

def placesFit : List Edit → String → Bool :=
  allEnds Text.placeFits

theorem ends_of_allEnds {good : String → Nat → Bool} {e : Edit} {rest : List Edit} {text next : String}
    (hnext : e.apply text = .ok next) (h : allEnds good (e :: rest) text = true) :
    (good text e.start = true ∧ good text e.stop = true) ∧ allEnds good rest next = true := by
  rw [allEnds, hnext, Bool.and_eq_true, Bool.and_eq_true] at h
  exact h

theorem isBoundary_of_apply {e : Edit} {text text' : String} (h : e.apply text = .ok text') :
    Text.IsBoundary text.toList e.start ∧ Text.IsBoundary text.toList e.stop := by
  obtain ⟨before, removed, after, htext, hstart, hstop, -⟩ := apply_eq_ok_iff.mp h
  constructor
  · exact Text.isBoundary_iff.mpr ⟨before, removed ++ after, by rw [htext, List.append_assoc], hstart⟩
  · refine Text.isBoundary_iff.mpr ⟨before ++ removed, after, htext, ?_⟩
    rw [Text.byteLength_append, hstop]

theorem applyTo_positionAt {e : Edit} {text text' : String} (h : e.apply text = .ok text')
    (hstart : Text.inBreak text.toList e.start = false)
    (hstop : Text.inBreak text.toList e.stop = false)
    (hfits : Text.placeFits text e.start = true ∧ Text.placeFits text e.stop = true) :
    ContentChange.applyTo text
      ⟨some ⟨Text.positionAt text e.start, Text.positionAt text e.stop⟩, e.insert⟩ = .ok text' := by
  obtain ⟨hbegins, hends⟩ := isBoundary_of_apply h
  rw [ContentChange.applyTo]
  dsimp only
  rw [Text.offsetAt_positionAt hbegins hfits.1 hstart, Text.offsetAt_positionAt hends hfits.2 hstop]
  exact h

end Edit

namespace ContentChange

theorem exists_sequential {edits : List Edit} {text text' : String}
    (h : Edit.applyAll edits text = .ok text') :
    ∃ changes, sequential? edits text = some changes ∧
      (Edit.spareBreaks edits text = true → Edit.placesFit edits text = true →
        applyAll changes text = .ok text') := by
  induction edits generalizing text with
  | nil => exact ⟨[], rfl, fun _ _ => h⟩
  | cons e rest ih =>
    obtain ⟨next, hnext, happly⟩ := Edit.exists_of_applyAll_cons h
    obtain ⟨changes, hchanges, hserved⟩ := ih happly
    refine ⟨⟨some ⟨Text.positionAt text e.start, Text.positionAt text e.stop⟩, e.insert⟩ :: changes,
      ?_, ?_⟩
    · simp [sequential?, hnext, hchanges, Except.toOption]
    · intro hspares hfits
      obtain ⟨⟨hstart, hstop⟩, hrest⟩ := Edit.ends_of_allEnds hnext hspares
      obtain ⟨hends, hrest'⟩ := Edit.ends_of_allEnds hnext hfits
      change (do applyAll changes (← applyTo text _)) = _
      rw [Edit.applyTo_positionAt hnext (Bool.not_eq_true' _ ▸ hstart) (Bool.not_eq_true' _ ▸ hstop)
        hends]
      exact hserved hrest hrest'

end ContentChange

theorem Batch.applyAll_contentChanges {b : Batch}
    (h : Edit.applyAll b.edits b.previousText = .ok b.text) (kind : SyncKind) (threshold : Nat)
    (hspares : kind = .incremental → threshold < Text.size b.text →
      Edit.spareBreaks b.edits b.previousText = true)
    (hfits : kind = .incremental → threshold < Text.size b.text →
      Edit.placesFit b.edits b.previousText = true) :
    ContentChange.applyAll (b.contentChanges kind threshold) b.previousText = .ok b.text := by
  rw [contentChanges]
  split
  next hranges =>
    obtain ⟨changes, hchanges, hserved⟩ := ContentChange.exists_sequential h
    rw [hchanges, Option.getD_some]
    exact hserved (hspares hranges.1 hranges.2) (hfits hranges.1 hranges.2)
  next => rfl

namespace Documents

theorem Sound.applyAll_of_mem_sync {s : Documents} (hs : s.Sound) {b : Batch} (hb : b ∈ s.sync.1) :
    Edit.applyAll b.edits b.previousText = .ok b.text := by
  obtain ⟨e, he, rfl⟩ := List.mem_map.mp hb
  exact hs.edited (hs.sorted.get?_of_mem (List.mem_filter.mp he).1)

/-- A server that had the text of the last sync has the text of this one when it has made the
changes that it is told: always if the whole text is sent, and if ranges are sent, as long as no
edit begins or ends inside a line break or where 32 bits are not enough for the line or the column. -/
theorem contentChanges_faithful (policy : HolderPolicy) (moves : List Move) (b : Batch)
    (hb : b ∈ ((new policy).run moves).sync.1) (kind : SyncKind) (threshold : Nat)
    (hspares : kind = .incremental → threshold < Text.size b.text →
      Edit.spareBreaks b.edits b.previousText = true)
    (hfits : kind = .incremental → threshold < Text.size b.text →
      Edit.placesFit b.edits b.previousText = true) :
    ContentChange.applyAll (b.contentChanges kind threshold) b.previousText = .ok b.text :=
  Batch.applyAll_contentChanges ((sound_new policy).run.applyAll_of_mem_sync hb) kind threshold
    hspares hfits

theorem contentChanges_faithful_of_whole_breaks :
    let s := (new .exclusive).run [.openFile "u" "text" "é\r\n😀b",
      .updateFile "u" [⟨8, 8, "ß"⟩, ⟨2, 4, "\n"⟩], .updateFile "u" [⟨7, 9, "\r\nx"⟩]]
    ∃ b ∈ s.sync.1, b.text = "é\n😀\r\nxb" ∧
      (b.contentChanges .incremental 0).map ContentChange.range =
        [some ⟨⟨1, 2⟩, ⟨1, 2⟩⟩, some ⟨⟨0, 1⟩, ⟨1, 0⟩⟩, some ⟨⟨1, 2⟩, ⟨1, 3⟩⟩] ∧
      ContentChange.applyAll (b.contentChanges .incremental 0) b.previousText = .ok b.text := by
  intro s
  let b : Batch := ⟨1, "u", 0, 1, "é\r\n😀b", "é\n😀\r\nxb",
    [⟨8, 8, "ß"⟩, ⟨2, 4, "\n"⟩, ⟨7, 9, "\r\nx"⟩]⟩
  have hb : b ∈ s.sync.1 := by decide
  refine ⟨b, hb, rfl, by decide, ?_⟩
  exact contentChanges_faithful .exclusive _ b hb .incremental 0 (fun _ _ => by decide) fun _ _ => by decide

/-- An insertion between a carriage return and its line feed is made before both of them. -/
theorem contentChanges_of_cut_break :
    let s := (new .exclusive).run [.openFile "u" "text" "a\r\n", .updateFile "u" [⟨2, 2, "x"⟩]]
    ∃ b ∈ s.sync.1, b.previousText = "a\r\n" ∧ b.text = "a\rx\n" ∧
      ContentChange.applyAll (b.contentChanges .incremental 0) b.previousText = .ok "ax\r\n" := by
  intro s
  exact ⟨⟨1, "u", 0, 1, "a\r\n", "a\rx\n", [⟨2, 2, "x"⟩]⟩, by decide, rfl, rfl, rfl⟩

end Documents

end LanguageClient
