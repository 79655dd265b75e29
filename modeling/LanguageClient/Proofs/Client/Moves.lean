import LanguageClient.Proofs.Client.Wire
import LanguageClient.Proofs.Workspace.Follow

namespace LanguageClient.Client

open Documents (Move)

variable (c : Client)

section Untouched

theorem documents_pushIfReady (f : Frame) : (c.pushIfReady f).documents = c.documents :=
  (congrArg Wire.documents (c.wire_pushIfReady f)).trans (Wire.documents_sendIfReady _ _)

theorem documents_enqueue (f : Frame) : (c.enqueue f).documents = c.documents :=
  (congrArg Wire.documents (c.wire_enqueue f)).trans (Wire.documents_enqueue _ _)

theorem documents_of_startRequest {c c' : Client} {method : String} {params : Option Json}
    {key : Option String} {id : Nat} (h : c.startRequest method params key = .ok (id, c')) :
    c'.documents = c.documents :=
  (congrArg Wire.documents (wire_of_startRequest h)).trans (Wire.documents_enqueue _ _)

theorem documents_disconnect : c.disconnect.documents = c.documents :=
  congrArg Wire.documents c.wire_disconnect

theorem documents_cancel (key : String) : (c.cancel key).2.documents = c.documents := by
  obtain h | ⟨p, h⟩ | ⟨id, h⟩ := c.wire_cancel key
  · exact congrArg Wire.documents h
  · exact congrArg Wire.documents h
  · exact (congrArg Wire.documents h).trans (Wire.documents_enqueue _ _)

theorem documents_receive (raw : String) : (c.receive raw).2.2.documents = c.documents := by
  obtain h | ⟨r, h⟩ := c.wire_receive raw
  · exact congrArg Wire.documents h
  · exact congrArg Wire.documents h

end Untouched

section Moves

def syncMoves : List Move :=
  if c.isReady ∧ c.syncKind = .off then [] else [.sync]

def moves : Act → List Move
  | .openFile uri languageId text => [.openFile uri languageId text]
  | .openBehind uri languageId text => [.openFile uri languageId text]
  | .closeFile uri => [.closeFile uri]
  | .updateFile uri edits => [.updateFile uri edits]
  | .replaceText uri text =>
    (c.documents.get? uri).toList.map fun d => .updateFile uri [⟨0, Text.size d.text, text⟩]
  | .sync => c.syncMoves
  | .startMapping => [.startMapping]
  | .release m => [.release m]
  | .startMapped method _ _ =>
    if c.isReady then
      c.syncMoves ++ .startMapping ::
        if c.sync.2.startMapping.2.refuses method then [.release c.sync.2.startMapping.1] else []
    else []
  | .finishMapped call m outcome =>
    match call.shape.ofOutcome outcome with
    | .ok _ => []
    | .error _ => [.release m]
  | .finishConnect generation outcome => if c.completes generation outcome then [.sync] else []
  | _ => []

theorem documents_sync : c.sync.2.documents = c.documents.run c.syncMoves := by
  have h := congrArg Wire.documents c.wire_sync
  rw [syncMoves]
  by_cases hoff : c.isReady = true ∧ c.syncKind = .off
  · rw [if_pos hoff] at h ⊢
    exact h
  · rw [if_neg hoff] at h ⊢
    exact h.trans (Wire.documents_sendIfReady _ _)

theorem documents_finishConnect (generation : Nat) (outcome : Outcome) :
    (c.finishConnect generation outcome).2.documents =
      c.documents.run (if c.completes generation outcome then [.sync] else []) := by
  have h := congrArg Wire.documents (c.wire_finishConnect generation outcome)
  refine h.trans ?_
  split
  · rfl
  · split <;> rfl

theorem documents_openFile (uri languageId text : String) :
    (c.act (.openFile uri languageId text)).documents =
      c.documents.move (.openFile uri languageId text) := by
  rw [act, openFile, Documents.move]
  cases c.documents.openFile uri languageId text with
  | error e => rfl
  | ok r =>
    obtain ⟨outcome, s'⟩ := r
    cases outcome with
    | opened d => exact documents_pushIfReady _ _
    | joined holders => rfl

theorem documents_openBehind (uri languageId text : String) :
    (c.act (.openBehind uri languageId text)).documents =
      c.documents.move (.openFile uri languageId text) := by
  rw [act, Documents.move]
  cases c.documents.openFile uri languageId text <;> rfl

theorem documents_closeFile (uri : String) :
    (c.act (.closeFile uri)).documents = c.documents.move (.closeFile uri) := by
  rw [act, closeFile, Documents.move]
  cases c.documents.closeFile uri with
  | error e => rfl
  | ok r =>
    obtain ⟨outcome, s'⟩ := r
    cases outcome with
    | closed => exact documents_pushIfReady _ _
    | released remaining => rfl

theorem documents_updateFile (uri : String) (edits : List Edit) :
    (c.act (.updateFile uri edits)).documents = c.documents.move (.updateFile uri edits) := by
  rw [act, updateFile, Documents.move]
  cases c.documents.updateFile uri edits <;> rfl

theorem documents_replaceText (uri text : String) :
    (c.act (.replaceText uri text)).documents =
      c.documents.run (c.moves (.replaceText uri text)) := by
  rw [act_replaceText, moves]
  cases c.documents.get? uri with
  | none => rfl
  | some d => exact c.documents_updateFile uri _

theorem documents_startMapped (method : String) (params : Option Json) (key : Option String) :
    (c.act (.startMapped method params key)).documents =
      c.documents.run (c.moves (.startMapped method params key)) := by
  have hmapping : c.sync.2.startMapping.2.documents =
      c.documents.run (c.syncMoves ++ [.startMapping]) := by
    rw [Documents.run_append, ← c.documents_sync]
    rfl
  rw [act, moves]
  cases c.mappedCourse method params key with
  | unready hready hmapped =>
    rw [hmapped, hready]
    rfl
  | refused hready hstart hmapped =>
    rw [hmapped, if_pos hready, if_pos (refuses_of_refused hstart), List.append_cons,
      Documents.run_append, ← hmapping]
    rfl
  | asks hready hstart hmapped =>
    rw [hmapped, if_pos hready, if_neg (Bool.eq_false_iff.mp (refuses_of_startRequest hstart)),
      List.append_cons, Documents.run_append, ← hmapping]
    exact documents_of_startRequest hstart

theorem documents_finishMapped (call : Call) (m : Mapping) (outcome : Outcome) :
    (c.finishMapped call m outcome).2.documents =
      c.documents.run (c.moves (.finishMapped call m outcome)) := by
  rw [finishMapped, moves]
  cases call.shape.ofOutcome outcome <;> rfl

@[simp] theorem documents_beginShutdown :
    (c.act .beginShutdown).documents = c.documents := by
  rw [act]
  cases c.shutdownCourse with
  | asks _ hstart hshutdown =>
    rw [hshutdown]
    exact documents_of_startRequest hstart
  | letsGo _ hshutdown =>
    rw [hshutdown]
    exact c.documents_disconnect

@[simp] theorem documents_afterShutdown (outcome : Outcome) :
    (c.afterShutdown outcome).2.documents = c.documents := by
  rw [afterShutdown]
  split
  · exact c.documents_enqueue _
  · rfl

theorem documents_act (a : Act) : (c.act a).documents = c.documents.run (c.moves a) := by
  cases a with
  | openFile uri languageId text => exact c.documents_openFile uri languageId text
  | openBehind uri languageId text => exact c.documents_openBehind uri languageId text
  | closeFile uri => exact c.documents_closeFile uri
  | updateFile uri edits => exact c.documents_updateFile uri edits
  | replaceText uri text => exact c.documents_replaceText uri text
  | sync => exact c.documents_sync
  | startMapping => rfl
  | release m => rfl
  | startMapped method params key => exact c.documents_startMapped method params key
  | finishMapped call m outcome => exact c.documents_finishMapped call m outcome
  | beginConnect transport => exact congrArg Wire.documents (c.wire_beginConnect transport)
  | finishConnect generation outcome => exact c.documents_finishConnect generation outcome
  | disconnect => exact c.documents_disconnect
  | beginShutdown => exact c.documents_beginShutdown
  | afterShutdown outcome => exact c.documents_afterShutdown outcome
  | request method params key =>
    rw [act]
    cases hstart : c.startRequest method params key with
    | error e => rfl
    | ok r => exact documents_of_startRequest hstart
  | notify method params => exact c.documents_enqueue _
  | cancel key => exact c.documents_cancel key
  | forget id => rfl
  | write now => exact congrArg Wire.documents (c.wire_write now)
  | sweep now => rfl
  | receive raw => exact c.documents_receive raw
  | respond id answer => exact congrArg Wire.documents (c.wire_push _)
  | onNotification method h =>
    rw [act, onNotification]
    split <;> rfl
  | removeNotificationHandler method => rfl
  | onRequest method h =>
    rw [act, onRequest]
    split <;> rfl
  | onUnhandled name => rfl
  | addTransport transport => rfl
  | happen transport event => rfl

def Act.isQuiet : Act → Bool
  | .closeFile _ | .updateFile _ _ | .replaceText _ _ => false
  | _ => true

theorem eq_sync_of_mem_syncMoves {mv : Move} (h : mv ∈ c.syncMoves) : mv = .sync := by
  unfold syncMoves at h
  split at h
  · cases h
  · exact List.mem_singleton.mp h

theorem nextScope_sync : c.sync.2.documents.history.nextScope = c.documents.history.nextScope := by
  rw [documents_sync, syncMoves]
  split
  · rfl
  · obtain ⟨entries, hhistory⟩ := c.documents.exists_history_sync
    exact (congrArg History.nextScope hhistory :)

/-- A move of an act is as quiet as the act, or it releases a scope: the one that the act names, or that
of a mapping which nobody was handed. -/
theorem mem_moves_cases {a : Act} {mv : Move} (h : mv ∈ c.moves a) :
    (mv.released? = none ∧ (a.isQuiet = true → mv.isQuiet = true)) ∨
      ∃ m, mv = .release m ∧
        (a.released? = some m.scope ∨ m.scope = c.documents.history.nextScope) := by
  cases a with
  | openFile | openBehind | startMapping =>
    rw [List.mem_singleton.mp h]
    exact .inl ⟨rfl, fun _ => rfl⟩
  | closeFile | updateFile =>
    rw [List.mem_singleton.mp h]
    exact .inl ⟨rfl, id⟩
  | replaceText uri text =>
    obtain ⟨d, -, rfl⟩ := List.mem_map.mp h
    exact .inl ⟨rfl, id⟩
  | sync =>
    rw [c.eq_sync_of_mem_syncMoves h]
    exact .inl ⟨rfl, fun _ => rfl⟩
  | release m => exact .inr ⟨m, List.mem_singleton.mp h, .inl rfl⟩
  | startMapped method params key =>
    rw [moves] at h
    split at h
    · cases List.mem_append.mp h with
      | inl h =>
        rw [c.eq_sync_of_mem_syncMoves h]
        exact .inl ⟨rfl, fun _ => rfl⟩
      | inr h =>
        cases h with
        | head => exact .inl ⟨rfl, fun _ => rfl⟩
        | tail _ h =>
          split at h
          · exact .inr ⟨_, List.mem_singleton.mp h, .inr c.nextScope_sync⟩
          · cases h
    · cases h
  | finishMapped call m outcome =>
    rw [moves] at h
    split at h
    next => cases h
    next e he =>
      refine .inr ⟨m, List.mem_singleton.mp h, .inl ?_⟩
      rw [Act.released?, he]
  | finishConnect generation outcome =>
    rw [moves] at h
    split at h
    · rw [List.mem_singleton.mp h]
      exact .inl ⟨rfl, fun _ => rfl⟩
    · cases h
  | _ => cases h

theorem isQuiet_of_mem_moves {a : Act} (ha : a.isQuiet = true) {mv : Move} (h : mv ∈ c.moves a) :
    mv.isQuiet = true := by
  obtain ⟨-, hquiet⟩ | ⟨m, rfl, -⟩ := c.mem_moves_cases h
  · exact hquiet ha
  · rfl

theorem closesIn_moves (uri : String) (a : Act) :
    Documents.closesIn uri (c.moves a) c.documents = c.closes uri a := by
  cases ha : a.isQuiet with
  | true =>
    rw [Documents.closesIn_of_isQuiet fun mv h => c.isQuiet_of_mem_moves ha h]
    cases a <;> first | rfl | cases ha
  | false =>
    cases a with
    | closeFile other =>
      rw [moves, Documents.closesIn, Documents.closesIn, Bool.or_false, closes, Move.closes,
        closeFile]
      cases c.documents.closeFile uri with
      | error e => rfl
      | ok r =>
        obtain ⟨outcome, s'⟩ := r
        cases outcome <;> rfl
    | updateFile other edits => rfl
    | replaceText other text =>
      rw [moves]
      cases c.documents.get? other <;> rfl
    | _ => cases ha

theorem editsIn_moves (uri : String) (a : Act) :
    Documents.editsIn uri (c.moves a) c.documents = c.edits uri a := by
  cases ha : a.isQuiet with
  | true =>
    rw [Documents.editsIn_of_isQuiet fun mv h => c.isQuiet_of_mem_moves ha h]
    cases a <;> first | rfl | cases ha
  | false =>
    have hupdate : ∀ other edits, Documents.editsIn uri [.updateFile other edits] c.documents =
        c.edits uri (.updateFile other edits) := by
      intro other edits
      rw [Documents.editsIn, Documents.editsIn, List.append_nil, Client.edits, Move.edits,
        updateFile]
      cases c.documents.updateFile uri edits <;> rfl
    cases a with
    | closeFile other => rfl
    | updateFile other edits => exact hupdate other edits
    | replaceText other text =>
      by_cases heq : other = uri
      · subst heq
        cases hget : c.documents.get? other with
        | none => simp [moves, edits, hget, Documents.editsIn]
        | some d =>
          rw [moves, hget]
          refine (hupdate other _).trans ?_
          rw [edits, edits, c.replaceText_of_get? hget, hget]
          simp
      · cases hget : c.documents.get? other <;>
          simp [moves, edits, heq, hget, Documents.editsIn, Move.edits]
    | _ => cases ha

theorem released_of_mem_moves {a : Act} {mv : Move} (h : mv ∈ c.moves a) {scope : Nat}
    (hscope : mv.released? = some scope) :
    a.released? = some scope ∨ scope = c.documents.history.nextScope := by
  obtain ⟨hnone, -⟩ | ⟨m, rfl, hm⟩ := c.mem_moves_cases h
  · cases hnone.symm.trans hscope
  · cases hscope
    exact hm

end Moves

end LanguageClient.Client
