import LanguageClient.Proofs.Client.Mapping
import LanguageClient.Proofs.Text.Order
import LanguageClient.Proofs.Workspace.Rebase

namespace LanguageClient

open Text (IsBoundary offsetAt)

namespace Edit

variable {e : Edit} {edits front rest : List Edit} {text text' : String}

theorem fits_of_apply (h : e.apply text = .ok text') : e.Fits text := by
  obtain ⟨before, removed, after, htext, hstart, hstop, -⟩ := apply_eq_ok_iff.mp h
  refine ⟨by omega, ?_, ?_⟩
  · rw [Text.isBoundary_iff]
    exact ⟨before, removed ++ after, by rw [htext, List.append_assoc], hstart⟩
  · rw [Text.isBoundary_iff]
    exact ⟨before ++ removed, after, htext, by rw [Text.byteLength_append, hstop]⟩

theorem exists_fits_of_append (h : applyAll (front ++ e :: rest) text = .ok text') :
    ∃ middle, applyAll front text = .ok middle ∧ e.Fits middle := by
  rw [applyAll_append] at h
  obtain ⟨middle, hfront, hrest⟩ := exists_of_bind_eq_ok h
  obtain ⟨next, happly, -⟩ := exists_of_applyAll_cons hrest
  exact ⟨middle, hfront, fits_of_apply happly⟩

theorem eq_of_isEmpty (hempty : e.isEmpty = true) (h : e.apply text = .ok text') : text' = text := by
  obtain ⟨before, removed, after, htext, hstart, hstop, rfl⟩ := apply_eq_ok_iff.mp h
  simp only [isEmpty, Bool.and_eq_true, beq_iff_eq, String.isEmpty_iff] at hempty
  obtain ⟨hrange, hinsert⟩ := hempty
  have hremoved : removed = [] := Text.eq_nil_of_byteLength (by omega)
  rw [hinsert, ← String.ofList_toList (s := text), htext, hremoved]
  simp

theorem applyAll_filter (h : applyAll edits text = .ok text') :
    applyAll (edits.filter (!·.isEmpty)) text = .ok text' := by
  induction edits generalizing text with
  | nil => exact h
  | cons e rest ih =>
    obtain ⟨next, happly, h⟩ := exists_of_applyAll_cons h
    cases hempty : e.isEmpty with
    | true =>
      rw [List.filter_cons_of_neg (by simp [hempty]), ← eq_of_isEmpty hempty happly]
      exact ih h
    | false =>
      rw [List.filter_cons_of_pos (by simp [hempty]), applyAll, List.foldlM_cons, happly]
      exact ih h

end Edit

namespace Documents

variable {s : Documents} {uri text : String} {d : Document} {edits : List Edit}

theorem exists_updateFile (hget : s.get? uri = some d)
    (h : Edit.applyAll edits d.text = .ok text) :
    ∃ s' d', s.updateFile uri edits = .ok s' ∧ s'.get? uri = some d' ∧ d'.text = text := by
  have hget' : s.workspace.get? uri = some d := hget
  let d' : Document := { d with text, pending := d.pending ++ edits.filter (!·.isEmpty) }
  have hedit : d.edit edits = .ok d' := by
    simp [Document.edit, Edit.applyAll_filter h, bind, Except.bind, pure, Except.pure, d']
  refine ⟨s.put uri d', d', ?_, get?_put_self, rfl⟩
  simp [updateFile, Workspace.updateFile, hget', hedit, bind, Except.bind, pure, Except.pure, put]

end Documents

namespace Mapping

structure Disjoint (ranges : List (Nat × Nat)) : Prop where
  ordered : ∀ r ∈ ranges, r.1 ≤ r.2
  apart : ranges.Pairwise Apart

def Distinct (r r' : Range) : Prop :=
  r.stop ≤ r'.start ∨ r'.stop ≤ r.start

variable {text : String} {d : Delta} {edits : List TextEdit}

theorem offsets_ordered {e : TextEdit} (h : e.range.start ≤ e.range.stop) :
    (offsets text e).1 ≤ (offsets text e).2 :=
  Text.offsetAt_mono text h

theorem disjoint_offsets (hordered : ∀ e ∈ edits, e.range.start ≤ e.range.stop)
    (hdistinct : edits.Pairwise fun e f => Distinct e.range f.range) :
    Disjoint (edits.map (offsets text)) where
  ordered := by
    intro r hr
    obtain ⟨e, he, rfl⟩ := List.mem_map.mp hr
    exact offsets_ordered (hordered e he)
  apart := by
    refine List.pairwise_map.mpr (hdistinct.imp ?_)
    intro e f h
    exact h.imp (Text.offsetAt_mono text) (Text.offsetAt_mono text)

theorem present?_eq_none_iff {e : TextEdit} (h : (offsets text e).1 ≤ (offsets text e).2)
    (hlength : d.oldLength = Text.size text) :
    present? text d e = none ↔ d.touches (offsets text e).1 (offsets text e).2 = true := by
  have hstop : (offsets text e).2 ≤ d.oldLength :=
    hlength ▸ Text.le_of_isBoundary (Text.isBoundary_offsetAt text e.range.stop)
  rw [present?, Option.map_eq_none_iff, Delta.trackRange_eq_none_iff h hstop]

theorem backward_moved_perm (text : String) (d : Delta) (edits : List TextEdit) :
    (backward (moved text d edits)).Perm (edits.filterMap (present? text d)) := by
  have hperm := backward_perm (moved text d edits)
  rwa [edits_moved, List.filterMap_map, Function.id_comp] at hperm

end Mapping

namespace Client

open Mapping (Disjoint Distinct offsets present?)

/-- Rebased edits are a batch that the document takes. For a document that is still open, edits that are not
inverted always have an answer. If they are apart as well, the batch goes from back to front; it has the
edits whose ranges nothing touched, each with its new text at its present place; and the document takes
it, each edit fitting the text that those before it left. Ranges that are apart as positions are apart as
offsets, however far the positions are out of range. -/
theorem rebased_batch_taken (settings : Settings) (policy : HolderPolicy) (processId : Nat) (hashing : Hashing)
    (before : List Act) (a : Act) (after : List Act) (m : Mapping)
    (hm : ((new settings policy processId hashing).run before).mapping? a = some m)
    (hlive : ∀ a' ∈ after, a'.released? ≠ some m.scope) (uri : String) (b : Baseline)
    (hb : Table.get? uri m.baseline = some b)
    (hopen : closesIn uri after ((new settings policy processId hashing).run (before ++ [a])) = false) :
    let c := ((new settings policy processId hashing).run (before ++ [a])).run after
    ∃ d delta, c.documents.get? uri = some d ∧ m.changes c.documents uri = .ok delta ∧
      (∀ edits : List TextEdit, (∀ e ∈ edits, e.range.start ≤ e.range.stop) →
        (∃ changes, m.mapEdits c.documents uri edits = .ok changes) ∧
          (edits.Pairwise (fun e f => Distinct e.range f.range) →
            Disjoint (edits.map (offsets b.text)))) ∧
      ∀ edits : List TextEdit, Disjoint (edits.map (offsets b.text)) →
        ∃ changes c' d', m.mapEdits c.documents uri edits = .ok changes ∧
          (∀ e ∈ edits, present? b.text delta e = none ↔
            delta.touches (offsets b.text e).1 (offsets b.text e).2 = true) ∧
          changes.Perm (edits.filterMap (present? b.text delta)) ∧
          changes.Pairwise (fun e f => f.stop ≤ e.start) ∧
          c.updateFile uri changes = .ok c' ∧ c'.documents.get? uri = some d' ∧
          Edit.applyAll changes d.text = .ok d'.text ∧
          ∀ front e rest, changes = front ++ e :: rest →
            ∃ middle, Edit.applyAll front d.text = .ok middle ∧ e.Fits middle := by
  intro c
  obtain ⟨d, delta, hget, htext, hdelta, hchanges⟩ :=
    exists_changes_of_mapping? settings policy processId hashing hm hlive hb hopen
  have hanswer : ∀ {edits : List TextEdit},
      (∀ e ∈ edits, (offsets b.text e).1 ≤ (offsets b.text e).2) →
      m.mapEdits c.documents uri edits =
        .ok (Mapping.backward (Mapping.moved b.text delta edits)) :=
    Mapping.mapEdits_eq hb hchanges
  refine ⟨d, delta, hget, hchanges, ?_, ?_⟩
  · intro edits hordered
    exact ⟨⟨_, hanswer fun e he => Mapping.offsets_ordered (hordered e he)⟩,
      Mapping.disjoint_offsets hordered⟩
  · intro edits hdisjoint
    have hordered : ∀ e ∈ edits, (offsets b.text e).1 ≤ (offsets b.text e).2 := fun e he =>
      hdisjoint.ordered _ (List.mem_map_of_mem he)
    have htracks := Mapping.tracks_moved (d := delta) hordered
    have hapart := Mapping.pairwise_moved (d := delta) (List.pairwise_map.mp hdisjoint.apart)
    obtain ⟨text, happly, -⟩ := Mapping.exists_applyAll_backward htracks hapart
      (Delta.carries_of_ofEdits htext hdelta)
    obtain ⟨s', d', hupdate, hget', rfl⟩ := Documents.exists_updateFile hget happly
    refine ⟨_, { c with documents := s' }, d', hanswer hordered, ?_,
      Mapping.backward_moved_perm b.text delta edits,
      List.pairwise_reverse.mp (Mapping.ascends_backward htracks hapart).apart, ?_, hget', happly, ?_⟩
    · intro e he
      exact Mapping.present?_eq_none_iff (hordered e he) (Delta.oldLength_of_ofEdits hdelta)
    · rw [updateFile, hupdate]
      rfl
    · intro front e rest hsplit
      rw [hsplit] at happly
      exact Edit.exists_fits_of_append happly

theorem rebased_batch_taken_of_far_position :
    let before : List Act := [.openFile "a" "text" "aéz\nb"]
    let after : List Act := [.updateFile "a" [⟨0, 1, ""⟩], .sync, .updateFile "a" [⟨2, 2, "ü"⟩]]
    let c := ((new .standard .exclusive 1 .rising).run (before ++ [.startMapping])).run after
    let m : Mapping := ⟨0, [("a", ⟨1, 0, "aéz\nb"⟩)]⟩
    let edits : List TextEdit :=
      [⟨⟨⟨0, 9⟩, ⟨7, 7⟩⟩, "!"⟩, ⟨⟨⟨0, 1⟩, ⟨0, 2⟩⟩, "e"⟩, ⟨⟨⟨0, 0⟩, ⟨0, 1⟩⟩, "X"⟩]
    ∃ c' d', m.mapEdits c.documents "a" edits = .ok [⟨5, 7, "!"⟩, ⟨0, 2, "e"⟩] ∧
      c.updateFile "a" [⟨5, 7, "!"⟩, ⟨0, 2, "e"⟩] = .ok c' ∧
      c'.documents.get? "a" = some d' ∧ d'.text = "eüz!" := by
  intro before after c m edits
  have hm : ((new .standard .exclusive 1 .rising).run before).mapping? .startMapping = some m := rfl
  have hb : Table.get? "a" m.baseline = some ⟨1, 0, "aéz\nb"⟩ := rfl
  have hlive : ∀ a' ∈ after, a'.released? ≠ some m.scope := by decide
  obtain ⟨d, delta, hget, hchanges, -, hbatch⟩ :=
    rebased_batch_taken .standard .exclusive 1 .rising before .startMapping after m hm hlive "a" _ hb rfl
  obtain ⟨-, delta', -, -, hdelta, hchanges'⟩ :=
    exists_changes_of_mapping? .standard .exclusive 1 .rising hm hlive hb rfl
  have hmerge : Span.merge [.replaced 1 0, .kept 5] [.kept 2, .replaced 0 2, .kept 3] =
      some [.replaced 1 0, .kept 2, .replaced 0 2, .kept 3] := by
    simp [Span.merge, Span.cons, Span.through, Span.newLength, Span.oldLength, Span.dropNew,
      Span.dropOld]
  cases (Delta.ofEdits_pair rfl rfl hmerge).symm.trans hdelta
  cases hchanges.symm.trans hchanges'
  cases hget
  obtain ⟨changes, c', d', hedits, -, -, -, hupdate, hget', happly, -⟩ :=
    hbatch edits ⟨by decide, by decide⟩
  have hsorted : Mapping.backward (Mapping.moved "aéz\nb"
      ⟨[.replaced 1 0, .kept 2, .replaced 0 2, .kept 3]⟩ edits) = [⟨5, 7, "!"⟩, ⟨0, 2, "e"⟩] :=
    List.mergeSort_of_pairwise (by decide)
  have hordered : ∀ e ∈ edits, (offsets "aéz\nb" e).1 ≤ (offsets "aéz\nb" e).2 := by decide
  have hanswer := Mapping.mapEdits_eq hb hchanges hordered
  rw [hsorted] at hanswer
  cases hedits.symm.trans hanswer
  have htext : Edit.applyAll [⟨5, 7, "!"⟩, ⟨0, 2, "e"⟩] "éüz\nb" = .ok "eüz!" := rfl
  exact ⟨c', d', hedits, hupdate, hget', Except.ok.inj (happly.symm.trans htext)⟩

end Client

end LanguageClient
