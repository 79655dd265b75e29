import LanguageClient.Proofs.Client.Mapping
import LanguageClient.Proofs.Workspace.Rebase

namespace LanguageClient.Client

open Mapping (Apart backward inOrder moved offsets)
open Text (bytes)

variable {c : Client} {uri : String} {m : Mapping} {b : Baseline}

theorem exists_follows_of_mapping? {a : Act} {after : List Act} (hs : c.documents.Sound)
    (hm : c.mapping? a = some m) (hlive : ∀ a' ∈ after, a'.released? ≠ some m.scope)
    (hb : Table.get? uri m.baseline = some b) (hopen : closesIn uri after (c.act a) = false) :
    ∃ edits, ((c.act a).run after).documents.Follows uri b edits :=
  ⟨_, follows_of_mapping? hs hm hlive hb hopen⟩

/-- Rebased edits are made all at once. For a document that is still open and edits of its baseline that
are apart, those whose ranges nothing touched become a batch that the present text takes, and each
replaces its range there. Insertions that come to one place stand in the text in the reverse of the order
in which they were listed; this is the order of their baseline positions exactly if it makes no
difference to what is inserted at that place. -/
theorem rebase_makes_edits_at_once (settings : Settings) (policy : HolderPolicy) (processId : Nat) (hashing : Hashing)
    (before : List Act) (a : Act) (after : List Act) (m : Mapping)
    (hm : ((new settings policy processId hashing).run before).mapping? a = some m)
    (hlive : ∀ a' ∈ after, a'.released? ≠ some m.scope) (uri : String) (b : Baseline)
    (hb : Table.get? uri m.baseline = some b)
    (hopen : closesIn uri after ((new settings policy processId hashing).run (before ++ [a])) = false)
    (edits : List TextEdit) (hordered : ∀ e ∈ edits, (offsets b.text e).1 ≤ (offsets b.text e).2)
    (hapart : edits.Pairwise fun e f => Apart (offsets b.text e) (offsets b.text f)) :
    let s := (((new settings policy processId hashing).run (before ++ [a])).run after).documents
    ∃ d delta text, s.get? uri = some d ∧ m.changes s uri = .ok delta ∧
      let kept := moved b.text delta edits
      let changes := backward kept
      kept.map (·.origin) =
          (edits.map (offsets b.text)).filter (fun r => !delta.touches r.1 r.2) ∧
        m.mapEdits s uri edits = .ok changes ∧
        Edit.applyAll changes d.text = .ok text ∧
        bytes text = Edit.weave changes.reverse 0 (bytes d.text) ∧
        (bytes text = Edit.weave (inOrder kept) 0 (bytes d.text) ↔
          ∀ k, Edit.landing k ((kept.map (·.edit)).reverse.filter Edit.isInsertion) =
            Edit.landing k ((inOrder kept).filter Edit.isInsertion)) := by
  intro s
  have hstart : ((new settings policy processId hashing).run before).documents.Sound :=
    sound_run (sound_new ..) before
  have hrun : (new settings policy processId hashing).run (before ++ [a]) =
      ((new settings policy processId hashing).run before).act a := run_append _ before [a]
  rw [hrun] at hopen
  have hs : s.Sound := sound_run (sound_run (sound_new ..) _) after
  obtain ⟨since, hfollows⟩ := exists_follows_of_mapping? hstart hm hlive hb hopen
  rw [← hrun] at hfollows
  obtain ⟨d, hget, htext⟩ := hfollows.exists_text hs
  obtain ⟨delta, hdelta, hchanges⟩ := hfollows.changes hb hs
  obtain ⟨text, happly, hbytes, horder⟩ := Mapping.exists_applyAll_backward
    (Mapping.tracks_moved hordered) (Mapping.pairwise_moved hapart)
    (Delta.carries_of_ofEdits htext hdelta)
  exact ⟨d, delta, text, hget, hchanges,
    Mapping.origins_moved hordered (Delta.oldLength_of_ofEdits hdelta),
    Mapping.mapEdits_eq hb hchanges hordered, happly, hbytes, horder⟩

theorem rebase_makes_edits_at_once_of_deletion :
    let before : List Act := [.openFile "a" "text" "xyz"]
    let s := (((new .standard .exclusive 1 .rising).run (before ++ [.startMapping])).run
      [.updateFile "a" [⟨0, 1, ""⟩]]).documents
    let m : Mapping := ⟨0, [("a", ⟨1, 0, "xyz"⟩)]⟩
    let edits : List TextEdit :=
      [⟨⟨⟨0, 3⟩, ⟨0, 3⟩⟩, "!"⟩, ⟨⟨⟨0, 1⟩, ⟨0, 2⟩⟩, "Q"⟩, ⟨⟨⟨0, 0⟩, ⟨0, 1⟩⟩, "X"⟩]
    m.mapEdits s "a" edits = .ok [⟨2, 2, "!"⟩, ⟨0, 1, "Q"⟩] ∧
      ∃ text, Edit.applyAll [⟨2, 2, "!"⟩, ⟨0, 1, "Q"⟩] "yz" = .ok text ∧
        bytes text = Edit.weave [⟨0, 1, "Q"⟩, ⟨2, 2, "!"⟩] 0 (bytes "yz") ∧
        bytes text = bytes "Qz!" := by
  intro before s m edits
  have hs : s.Sound := sound_run (sound_run (sound_new ..) _) _
  have hb : Table.get? "a" m.baseline = some ⟨1, 0, "xyz"⟩ := rfl
  have hfollows : s.Follows "a" ⟨1, 0, "xyz"⟩ [⟨0, 1, ""⟩] :=
    ⟨_, [], rfl, rfl, rfl, rfl, .refl nofun⟩
  have hdelta : Delta.ofEdits 3 [⟨0, 1, ""⟩] = .ok ⟨[.replaced 1 0, .kept 2]⟩ := by
    rw [Delta.ofEdits_cons]
    rfl
  obtain ⟨delta, hdelta', hchanges⟩ := hfollows.changes hb hs
  cases hdelta.symm.trans hdelta'
  obtain ⟨d, delta, text, hget, hanswer, -, hedits, happly, hbytes, -⟩ :=
    rebase_makes_edits_at_once .standard .exclusive 1 .rising before .startMapping
      [.updateFile "a" [⟨0, 1, ""⟩]] m rfl (by decide) "a" ⟨1, 0, "xyz"⟩ hb rfl edits (by decide)
      (by decide)
  cases hget
  cases hchanges.symm.trans hanswer
  have hsorted : backward (moved "xyz" ⟨[.replaced 1 0, .kept 2]⟩ edits) =
      [⟨2, 2, "!"⟩, ⟨0, 1, "Q"⟩] := List.mergeSort_of_pairwise (by decide)
  rw [hsorted] at hedits happly hbytes
  exact ⟨hedits, text, happly, hbytes, hbytes⟩

/-- Two insertions at one place come out in the reverse of their order. -/
theorem rebase_reverses_insertions :
    let before : List Act := [.openFile "a" "text" "x"]
    let c := (new .standard .exclusive 1 .rising).run before
    let m : Mapping := ⟨0, [("a", ⟨1, 0, "x"⟩)]⟩
    let edits : List TextEdit := [⟨⟨⟨0, 0⟩, ⟨0, 0⟩⟩, "A"⟩, ⟨⟨⟨0, 0⟩, ⟨0, 0⟩⟩, "B"⟩]
    c.mapping? .startMapping = some m ∧
      m.mapEdits (c.act .startMapping).documents "a" edits = .ok [⟨0, 0, "A"⟩, ⟨0, 0, "B"⟩] ∧
      Edit.applyAll [⟨0, 0, "A"⟩, ⟨0, 0, "B"⟩] "x" = .ok "BAx" ∧
      Edit.weave (inOrder (moved "x" (.identity 1) edits)) 0 (bytes "x") = bytes "ABx" := by
  intro before c m edits
  have hs : (c.act .startMapping).documents.Sound := sound_act (sound_run (sound_new ..) before) _
  have hb : Table.get? "a" m.baseline = some ⟨1, 0, "x"⟩ := rfl
  have hfollows : (c.act .startMapping).documents.Follows "a" ⟨1, 0, "x"⟩ [] :=
    ⟨_, [], rfl, rfl, rfl, rfl, .refl nofun⟩
  obtain ⟨delta, hdelta, hchanges⟩ := hfollows.changes hb hs
  cases hdelta
  refine ⟨rfl, ?_, rfl, ?_⟩
  · rw [Mapping.mapEdits_eq hb hchanges (by decide)]
    exact congrArg _ (List.mergeSort_of_pairwise (by decide))
  · have hsorted : (moved "x" (.identity 1) edits).mergeSort Mapping.Moved.precedes =
        moved "x" (.identity 1) edits := List.mergeSort_of_pairwise (by decide)
    rw [inOrder, hsorted]
    rfl

end LanguageClient.Client
