import LanguageClient.Proofs.Workspace.Moves

namespace LanguageClient

namespace Workspace

def gather {α : Type} (tells : Workspace → Move → List α) : List Move → Workspace → List α
  | [], _ => []
  | mv :: rest, w => tells w mv ++ gather tells rest (w.move mv)

theorem gather_append {α : Type} (tells : Workspace → Move → List α) (moves more : List Move)
    (w : Workspace) :
    gather tells (moves ++ more) w = gather tells moves w ++ gather tells more (w.run moves) := by
  induction moves generalizing w with
  | nil => rfl
  | cons mv rest ih =>
    rw [List.cons_append, gather, ih, gather, List.append_assoc]
    rfl

/-- Batches that lead from an opened text to a version and its text: each holds edits, begins where the
one before it ended and makes the next version. -/
inductive Linked : List Batch → Nat → String → Prop
  | opened (text : String) : Linked [] 0 text
  | synced {past : List Batch} {b : Batch} (hpast : Linked past b.previousVersion b.previousText)
      (hedits : b.edits ≠ []) (hversion : b.version = b.previousVersion + 1)
      (happlies : Edit.applyAll b.edits b.previousText = .ok b.text) :
      Linked (past ++ [b]) b.version b.text

variable {w w' : Workspace} {uri : String} {d : Document} {mv : Move} {id : Nat}

structure Told (w : Workspace) (id : Nat) (batches : List Batch) (edits : List Edit) : Prop where
  linked : ∃ version text, Linked batches version text
  unborn : w.nextId ≤ id → batches = [] ∧ edits = []
  present : ∀ {uri d}, w.get? uri = some d → d.id = id →
    Linked batches d.version d.syncedText ∧ edits = batches.flatMap (·.edits) ++ d.pending

section Told

variable {batches : List Batch} {edits : List Edit}

theorem told_new (policy : HolderPolicy) (id : Nat) : (new policy).Told id [] [] where
  linked := ⟨0, "", .opened ""⟩
  unborn _ := ⟨rfl, rfl⟩
  present h := by cases h

namespace Told

variable (hs : w.Sound) (h : w.Told id batches edits)
include hs h

theorem put {d' : Document} {more : List Edit} (hget : w.get? uri = some d)
    (hbaseline : d'.baseline = d.baseline) (hpending : d'.pending = d.pending ++ more) :
    (w.put uri d').Told id batches (edits ++ if d.id = id then more else []) := by
  obtain ⟨hid, hversion, hsynced⟩ := Document.baseline_eq_iff.mp hbaseline
  constructor
  case linked => exact h.linked
  case unborn =>
    intro hle
    have hne : d.id ≠ id := Nat.ne_of_lt (Nat.lt_of_lt_of_le (hs.fresh hget) hle)
    rw [if_neg hne, List.append_nil]
    exact h.unborn hle
  case present =>
    intro uri' d'' hget'' heq
    obtain ⟨rfl, rfl⟩ | ⟨hne, hget'⟩ := get?_put_cases hget''
    · rw [hid] at heq
      obtain ⟨hlinked, hedits⟩ := h.present hget heq
      rw [hversion, hsynced, hpending, if_pos heq, hedits, List.append_assoc]
      exact ⟨hlinked, rfl⟩
    · have hother : d.id ≠ id := fun heq' => hne (hs.apart hget hget' (heq'.trans heq.symm))
      rw [if_neg hother, List.append_nil]
      exact h.present hget' heq

omit hs in
theorem add (languageId text : String) : (w.add uri languageId text).Told id batches edits where
  linked := h.linked
  unborn hle := h.unborn (Nat.le_of_succ_le hle)
  present {uri' d'} hget heq := by
    obtain ⟨rfl, rfl⟩ | ⟨-, hget⟩ := get?_add_cases hget
    · obtain ⟨rfl, rfl⟩ := h.unborn (Nat.le_of_eq heq)
      exact ⟨.opened text, rfl⟩
    · exact h.present hget heq

omit hs in
theorem erase : (w.erase uri).Told id batches edits where
  linked := h.linked
  unborn := h.unborn
  present hget heq := h.present (get?_of_erase hget).2 heq

theorem sync : w.sync.2.Told id (batches ++ Move.sync.batches id w) edits := by
  by_cases hopen : ∃ uri d, w.get? uri = some d ∧ d.id = id
  · obtain ⟨uri, d, hget, rfl⟩ := hopen
    obtain ⟨hlinked, hedits⟩ := h.present hget rfl
    have hsynced : Linked (batches ++ Move.sync.batches d.id w) d.synced.version d.synced.syncedText ∧
        edits = (batches ++ Move.sync.batches d.id w).flatMap (·.edits) ++ d.synced.pending := by
      rw [hs.batches_sync hget]
      cases hp : d.hasPending with
      | false =>
        rw [if_neg Bool.false_ne_true, List.append_nil, d.synced_of_not_hasPending hp]
        exact ⟨hlinked, hedits⟩
      | true =>
        rw [if_pos rfl, d.synced_of_hasPending hp]
        refine ⟨.synced hlinked ?_ rfl (hs.each hget).edited, ?_⟩
        · simpa [Document.hasPending, Document.batch] using hp
        · simpa [Document.batch] using hedits
    constructor
    case linked => exact ⟨_, _, hsynced.1⟩
    case unborn => exact fun hle => absurd (hs.fresh hget) (Nat.not_lt.mpr hle)
    case present =>
      intro uri' d' hget' heq
      obtain ⟨d₀, h₀, rfl⟩ := get?_sync_cases hget'
      rw [d₀.id_synced] at heq
      obtain rfl := hs.apart h₀ hget heq
      cases h₀.symm.trans hget
      exact hsynced
  · have hgone : ∀ uri d, w.get? uri = some d → d.id ≠ id :=
      fun uri d hget heq => hopen ⟨uri, d, hget, heq⟩
    rw [hs.batches_sync_of_forall hgone, List.append_nil]
    constructor
    case linked => exact h.linked
    case unborn => exact h.unborn
    case present =>
      intro uri' d' hget' heq
      obtain ⟨d₀, h₀, rfl⟩ := get?_sync_cases hget'
      rw [d₀.id_synced] at heq
      exact absurd heq (hgone uri' d₀ h₀)

theorem step (hstep : w.Step mv w') :
    w'.Told id (batches ++ mv.batches id w) (edits ++ mv.accepted id w) := by
  cases hstep with
  | refused haccepted hbatches =>
    rw [haccepted, hbatches, List.append_nil, List.append_nil]
    exact h
  | changed haccepted hbatches _ hget hbaseline hpending =>
    rw [haccepted, hbatches, List.append_nil]
    exact h.put hs hget hbaseline hpending
  | opened =>
    change Told _ _ (batches ++ []) (edits ++ [])
    rw [List.append_nil, List.append_nil]
    exact h.add _ _
  | closed =>
    change Told _ _ (batches ++ []) (edits ++ [])
    rw [List.append_nil, List.append_nil]
    exact h.erase
  | synced =>
    change Told _ _ _ (edits ++ [])
    rw [List.append_nil]
    exact h.sync hs

theorem run (moves : List Move) :
    (w.run moves).Told id (batches ++ gather (Move.batches id) moves w)
      (edits ++ gather (Move.accepted id) moves w) := by
  induction moves generalizing w batches edits with
  | nil =>
    rw [gather, gather, List.append_nil, List.append_nil]
    exact h
  | cons mv rest ih =>
    have hstep := w.step_move mv
    rw [gather, gather, ← List.append_assoc, ← List.append_assoc]
    exact ih (hs.step hstep) (h.step hs hstep)

end Told

end Told

def Gone (w : Workspace) (id : Nat) : Prop :=
  id < w.nextId ∧ ∀ uri d, w.get? uri = some d → d.id ≠ id

namespace Gone

variable (hs : w.Sound) (h : w.Gone id)
include hs h

theorem step (hstep : w.Step mv w') :
    w'.Gone id ∧ mv.batches id w = [] ∧ mv.accepted id w = [] := by
  obtain ⟨hlt, hgone⟩ := h
  cases hstep with
  | refused haccepted hbatches => exact ⟨⟨hlt, hgone⟩, hbatches id, haccepted id⟩
  | changed haccepted hbatches _ hget hbaseline =>
    have hne := hgone _ _ hget
    refine ⟨⟨hlt, ?_⟩, hbatches id, (haccepted id).trans (if_neg hne)⟩
    intro uri' d'' hget''
    obtain ⟨rfl, rfl⟩ | ⟨-, hget'⟩ := get?_put_cases hget''
    · rw [(Document.baseline_eq_iff.mp hbaseline).1]
      exact hne
    · exact hgone _ _ hget'
  | opened =>
    refine ⟨⟨Nat.lt_succ_of_lt hlt, ?_⟩, rfl, rfl⟩
    intro uri' d' hget
    obtain ⟨rfl, rfl⟩ | ⟨-, hget⟩ := get?_add_cases hget
    · exact Nat.ne_of_gt hlt
    · exact hgone _ _ hget
  | closed => exact ⟨⟨hlt, fun uri' d' hget => hgone _ _ (get?_of_erase hget).2⟩, rfl, rfl⟩
  | synced =>
    refine ⟨⟨hlt, ?_⟩, hs.batches_sync_of_forall hgone, rfl⟩
    intro uri' d' hget
    obtain ⟨d₀, h₀, rfl⟩ := get?_sync_cases hget
    rw [d₀.id_synced]
    exact hgone uri' d₀ h₀

theorem run (moves : List Move) :
    gather (Move.batches id) moves w = [] ∧
      gather (Move.accepted id) moves w = [] := by
  induction moves generalizing w with
  | nil => exact ⟨rfl, rfl⟩
  | cons mv rest ih =>
    obtain ⟨hgone, hbatches, haccepted⟩ := h.step hs (w.step_move mv)
    obtain ⟨hbatches', haccepted'⟩ := ih (hs.step (w.step_move mv)) hgone
    rw [gather, gather, hbatches, haccepted, hbatches', haccepted']
    exact ⟨rfl, rfl⟩

end Gone

section Openings

variable {moves : List Move}

theorem openings_step (h : w.Step mv w') :
    mv.openings w = [] ∧ w'.nextId = w.nextId ∨
      mv.openings w = [w.nextId] ∧ w'.nextId = w.nextId + 1 := by
  cases h with
  | refused _ _ hopenings | changed _ _ hopenings => exact .inl ⟨hopenings, rfl⟩
  | opened _ hopenings => exact .inr ⟨hopenings, rfl⟩
  | closed | synced => exact .inl ⟨rfl, rfl⟩

theorem nextId_le_move (w : Workspace) (mv : Move) : w.nextId ≤ (w.move mv).nextId := by
  obtain ⟨-, heq⟩ | ⟨-, heq⟩ := openings_step (w.step_move mv)
  · exact Nat.le_of_eq heq.symm
  · exact heq ▸ Nat.le_succ _

theorem le_of_mem_openings (h : id ∈ gather Move.openings moves w) : w.nextId ≤ id := by
  induction moves generalizing w with
  | nil => cases h
  | cons mv rest ih =>
    obtain hnow | hlater := List.mem_append.mp h
    · obtain ⟨heq, -⟩ | ⟨heq, -⟩ := openings_step (w.step_move mv)
      · rw [heq] at hnow
        cases hnow
      · rw [heq] at hnow
        exact Nat.le_of_eq (List.mem_singleton.mp hnow).symm
    · exact Nat.le_trans (w.nextId_le_move mv) (ih hlater)

theorem pairwise_openings (moves : List Move) (w : Workspace) :
    (gather Move.openings moves w).Pairwise (· < ·) := by
  induction moves generalizing w with
  | nil => exact List.Pairwise.nil
  | cons mv rest ih =>
    rw [gather]
    obtain ⟨heq, -⟩ | ⟨heq, hnext⟩ := openings_step (w.step_move mv)
    · rw [heq]
      exact ih _
    · rw [heq]
      refine List.pairwise_cons.mpr ⟨?_, ih _⟩
      intro id hid
      exact Nat.lt_of_lt_of_le (hnext ▸ Nat.lt_succ_self _) (le_of_mem_openings hid)

theorem exists_of_step (h : w.Step mv w') (hget : w'.get? uri = some d) :
    (∃ uri' d', w.get? uri' = some d' ∧ d'.id = d.id) ∨ d.id ∈ mv.openings w := by
  cases h with
  | refused => exact .inl ⟨uri, d, hget, rfl⟩
  | changed _ _ _ hold hbaseline =>
    obtain ⟨rfl, rfl⟩ | ⟨-, hget⟩ := get?_put_cases hget
    · exact .inl ⟨_, _, hold, (Document.baseline_eq_iff.mp hbaseline).1.symm⟩
    · exact .inl ⟨uri, d, hget, rfl⟩
  | opened _ hopenings =>
    obtain ⟨rfl, rfl⟩ | ⟨-, hget⟩ := get?_add_cases hget
    · rw [hopenings]
      exact .inr List.mem_cons_self
    · exact .inl ⟨uri, d, hget, rfl⟩
  | closed => exact .inl ⟨uri, d, (get?_of_erase hget).2, rfl⟩
  | synced =>
    obtain ⟨d₀, h₀, rfl⟩ := get?_sync_cases hget
    exact .inl ⟨uri, d₀, h₀, d₀.id_synced.symm⟩

theorem mem_openings_of_get? (hget : (w.run moves).get? uri = some d) :
    (∃ uri' d', w.get? uri' = some d' ∧ d'.id = d.id) ∨ d.id ∈ gather Move.openings moves w := by
  induction moves generalizing w with
  | nil => exact .inl ⟨uri, d, hget, rfl⟩
  | cons mv rest ih =>
    obtain ⟨uri', d', hget', heq⟩ | hlater := ih hget
    · rw [← heq]
      exact (exists_of_step (w.step_move mv) hget').imp_right (List.mem_append_left _)
    · exact .inr (List.mem_append_right _ hlater)

end Openings

theorem gone_closeFile (hs : w.Sound) (hget : w.get? uri = some d) (hholders : d.holders ≤ 1) :
    (w.move (.closeFile uri)).Gone d.id := by
  have hmove : w.move (.closeFile uri) = w.erase uri := by
    rw [move, closeFile, hget]
    dsimp only
    rw [if_pos hholders]
    rfl
  rw [hmove]
  refine ⟨hs.fresh hget, ?_⟩
  intro uri' d' hget' heq
  obtain ⟨hne, hget'⟩ := get?_of_erase hget'
  exact hne (hs.apart hget hget' heq.symm)

/-- The history of a document is one line from its opening on, and a batch of edits is taken whole or not
at all. What is accepted is handed over once and in order, unless it is still pending when the last
holder closes the document. -/
theorem linear_history (policy : HolderPolicy) (moves : List Move) :
    let start := new policy
    let w := start.run moves
    let batches id := gather (Move.batches id) moves start
    let accepted id := gather (Move.accepted id) moves start
    (∀ uri d, w.get? uri = some d → Edit.applyAll d.pending d.syncedText = .ok d.text ∧
      (∀ e ∈ d.pending, e.isEmpty = false) ∧ 1 ≤ d.holders) ∧
      (∀ uri edits error, w.updateFile uri edits = .error error →
        w.move (.updateFile uri edits) = w ∧
          ((w.get? uri = none ∧ error = .notOpen uri) ∨
            ∃ d before e after middle refusal, w.get? uri = some d ∧
              edits.filter (!·.isEmpty) = before ++ e :: after ∧
              Edit.applyAll before d.text = .ok middle ∧ e.apply middle = .error refusal ∧
              error = .invalidEdit uri refusal.message)) ∧
      (∀ id, ∃ version text, Linked (batches id) version text) ∧
      (∀ uri d, w.get? uri = some d → Linked (batches d.id) d.version d.syncedText ∧
        accepted d.id = (batches d.id).flatMap (·.edits) ++ d.pending) ∧
      (∀ past uri rest d, moves = past ++ .closeFile uri :: rest →
        (start.run past).get? uri = some d → d.holders ≤ 1 →
        accepted d.id = (batches d.id).flatMap (·.edits) ++ d.pending) ∧
      (gather Move.openings moves start).Pairwise (· < ·) ∧
      (∀ uri d, w.get? uri = some d → d.id ∈ gather Move.openings moves start) ∧
      ∀ uri uri' d d', w.get? uri = some d → w.get? uri' = some d' → d.id = d'.id → uri = uri' := by
  intro start w batches accepted
  have hstart : start.Sound := sound_new policy
  have hs : w.Sound := hstart.run moves
  have htold : ∀ id, w.Told id (batches id) (accepted id) :=
    fun id => (told_new policy id).run hstart moves
  refine ⟨?_, ?_, fun id => (htold id).linked, ?_, ?_, pairwise_openings moves start, ?_, ?_⟩
  · intro uri d hget
    have hd := hs.each hget
    exact ⟨hd.edited, hd.real, hd.held⟩
  · intro uri edits error h
    refine ⟨?_, updateFile_eq_error_iff.mp h⟩
    rw [move, h]
    rfl
  · intro uri d hget
    exact (htold d.id).present hget rfl
  · rintro past uri rest d rfl hget hholders
    have hpast : (start.run past).Sound := hstart.run past
    have htold := (told_new policy d.id).run hstart past
    have hgone := gone_closeFile hpast hget hholders
    obtain ⟨hbatches, haccepted⟩ := hgone.run (hpast.step (step_move _ _)) rest
    have hedits := (htold.present hget rfl).2
    change gather _ _ _ = List.flatMap _ (gather _ _ _) ++ _
    rw [gather_append, gather_append, gather, gather, hbatches, haccepted]
    simpa [Move.batches, Move.accepted, Move.asks?] using hedits
  · intro uri d hget
    obtain ⟨uri', d', hget', -⟩ | hmem := mem_openings_of_get? hget
    · cases hget'
    · exact hmem
  · intro uri uri' d d' hget hget' heq
    exact hs.apart hget hget' heq

theorem linear_history_of_reopening :
    let start := new .shared
    let moves : List Move := [.openFile "u" "text" "a", .updateFile "u" [⟨0, 0, "x"⟩],
      .openFile "u" "text" "", .closeFile "u", .sync, .updateFile "u" [⟨0, 0, ""⟩, ⟨2, 2, "y"⟩],
      .closeFile "u", .openFile "u" "text" "b"]
    let accepted := gather (Move.accepted 1) moves start
    accepted = [⟨0, 0, "x"⟩, ⟨2, 2, "y"⟩] ∧
      accepted = (gather (Move.batches 1) moves start).flatMap (·.edits) ++ [⟨2, 2, "y"⟩] ∧
      ((start.run moves).get? "u").map (·.id) = some 2 := by
  intro start moves accepted
  obtain ⟨-, -, -, -, hclosed, -⟩ := linear_history .shared moves
  let d : Document := ⟨1, "text", 1, "xay", "xa", [⟨2, 2, "y"⟩], 1⟩
  exact ⟨by decide, hclosed (moves.take 6) "u" (moves.drop 7) d rfl (by decide) (Nat.le_refl 1),
    by decide⟩

/-- An edit that was accepted is in no batch if its document is closed before a sync. -/
theorem accepted_in_no_batch_of_close :
    let start := new .exclusive
    let moves : List Move :=
      [.openFile "u" "text" "a", .updateFile "u" [⟨0, 0, "x"⟩], .closeFile "u", .sync]
    gather (Move.accepted 1) moves start = [⟨0, 0, "x"⟩] ∧
      ∀ b ∈ gather (Move.batches 1) moves start, ⟨0, 0, "x"⟩ ∉ b.edits := by
  decide

end Workspace

end LanguageClient
