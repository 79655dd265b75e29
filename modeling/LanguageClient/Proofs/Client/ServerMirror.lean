import LanguageClient.Proofs.Client.Mirror
import LanguageClient.Proofs.Client.Moves

namespace LanguageClient

def Wire.Knows (w : Wire) (m : Mirror) : Prop :=
  (w.ready = false → m = []) ∧ (w.ready = true → m.Agrees w.documents)

/-- What is known on every line is what a client that tells everything would have told. -/
structure Wire.Mirrored (w : Wire) : Prop where
  sound : w.documents.Sound
  phase : w.phase = .initialized ↔ w.isReady = true
  told : ∀ g, w.attached = some g → ∃ fs, w.pushed g = some fs ∧
    ((∀ f ∈ fs, f.IsWhole) → w.Knows (Mirror.ofFrames fs))
  fresh : ∀ g fs, w.pushed g = some fs → g ≤ w.generation
  queue : ∀ f ∈ w.queue, f.documentNotice? = none
  inTurn : ∀ g fs, w.pushed g = some fs → (∀ f ∈ fs, f.IsWhole) → Mirror.InTurn [] fs

namespace Wire.Mirrored

variable {w w' : Wire} {s : Documents} {fs : List Frame} (h : w.Mirrored)
include h

theorem tell (hpushed : w'.pushed = (w.send fs).pushed) (hattached : w'.attached = w.attached)
    (hgeneration : w'.generation = w.generation) (hsound : w'.documents.Sound)
    (hphase : w'.phase = .initialized ↔ w'.isReady = true)
    (hqueue : ∀ f ∈ w'.queue, f.documentNotice? = none)
    (htell : ∀ m : Mirror, w.attached.isSome → w.Knows m → (∀ f ∈ fs, f.IsWhole) →
      w'.Knows (fs.foldl Mirror.hear m) ∧ m.InTurn fs) : w'.Mirrored := by
  -- a line is as it was, unless it is the attached one
  have hlines : ∀ g all, w'.pushed g = some all → (w.attached ≠ some g ∧ w.pushed g = some all) ∨
      w.attached = some g ∧ ∃ old, w.pushed g = some old ∧ all = old ++ fs := by
    intro g all hall
    rw [hpushed] at hall
    by_cases hg : w.attached = some g
    · simp only [send, hg, if_true] at hall
      obtain ⟨old, hold, rfl⟩ := Option.map_eq_some_iff.mp hall
      exact .inr ⟨hg, old, hold, rfl⟩
    · simp only [send, hg, if_false] at hall
      exact .inl ⟨hg, hall⟩
  have hsplit : ∀ g old, w.attached = some g → w.pushed g = some old →
      (∀ f ∈ old ++ fs, f.IsWhole) → Mirror.InTurn [] (old ++ fs) ∧
        w'.Knows (Mirror.ofFrames (old ++ fs)) := by
    intro g old hg hold hwhole
    obtain ⟨hwhole, hwhole'⟩ := List.forall_mem_append.mp hwhole
    obtain ⟨old', hold', hknows⟩ := h.told g hg
    cases hold.symm.trans hold'
    obtain ⟨hknows', hturn⟩ :=
      htell _ (Option.isSome_of_mem hg) (hknows hwhole) hwhole'
    rw [Mirror.inTurn_append, Mirror.ofFrames_append]
    exact ⟨⟨h.inTurn g old hold hwhole, hturn⟩, hknows'⟩
  constructor
  case sound => exact hsound
  case phase => exact hphase
  case told =>
    intro g hg
    rw [hattached] at hg
    obtain ⟨old, hold, -⟩ := h.told g hg
    refine ⟨old ++ fs, ?_, fun hwhole => (hsplit g old hg hold hwhole).2⟩
    rw [hpushed]
    simp [send, hg, hold]
  case fresh =>
    intro g all hall
    rw [hgeneration]
    obtain ⟨-, hall⟩ | ⟨-, old, hold, -⟩ := hlines g all hall
    · exact h.fresh g all hall
    · exact h.fresh g old hold
  case queue => exact hqueue
  case inTurn =>
    intro g all hall hwhole
    obtain ⟨-, hall⟩ | ⟨hg, old, hold, rfl⟩ := hlines g all hall
    · exact h.inTurn g all hall hwhole
    · exact (hsplit g old hg hold hwhole).1

theorem send (hfs : ∀ f ∈ fs, f.documentNotice? = none) : (w.send fs).Mirrored := by
  refine h.tell rfl rfl rfl h.sound h.phase h.queue ?_
  intro m _ hm _
  rw [Mirror.foldl_hear_of_silent hfs]
  exact ⟨hm, Mirror.inTurn_of_silent hfs⟩

theorem enqueue {f : Frame} (hf : f.documentNotice? = none) : (w.enqueue f).Mirrored := by
  rw [Wire.enqueue]
  split
  · exact h.send (List.forall_mem_singleton.mpr hf)
  · refine { h with queue := ?_ }
    exact List.forall_mem_append.mpr ⟨h.queue, List.forall_mem_singleton.mpr hf⟩

theorem unqueue (p : Frame → Bool) : { w with queue := w.queue.filter p }.Mirrored :=
  { h with queue := fun f hf => h.queue f (List.mem_filter.mp hf).1 }

theorem sendIfReady (hs : s.Sound)
    (htell : ∀ m : Mirror, m.Agrees w.documents → (∀ f ∈ fs, f.IsWhole) →
      Mirror.Agrees (fs.foldl Mirror.hear m) s ∧ m.InTurn fs) :
    ({ w with documents := s }.sendIfReady fs).Mirrored := by
  rw [Wire.sendIfReady, isReady_documents]
  by_cases hready : w.isReady = true
  · have hready' : w.ready = true := (Bool.and_eq_true_iff.mp hready).2
    rw [if_pos hready]
    refine h.tell rfl rfl rfl hs h.phase h.queue ?_
    intro m _ hm hwhole
    obtain ⟨hagrees, hturn⟩ := htell m (hm.2 hready') hwhole
    refine ⟨⟨?_, fun _ => hagrees⟩, hturn⟩
    intro hnot
    cases hready'.symm.trans hnot
  · rw [if_neg hready]
    have hpushed : w.pushed = (w.send []).pushed := by rw [Wire.send_nil]
    refine h.tell hpushed rfl rfl hs h.phase h.queue ?_
    intro m hattached hm _
    refine ⟨⟨hm.1, ?_⟩, trivial⟩
    intro hready'
    exact absurd (Bool.and_eq_true_iff.mpr ⟨hattached, hready'⟩) hready

theorem withDocuments (hs : s.Sound) (htell : ∀ m : Mirror, m.Agrees w.documents → m.Agrees s) :
    { w with documents := s }.Mirrored := by
  have hsend : ({ w with documents := s }.sendIfReady []).Mirrored :=
    h.sendIfReady hs fun m hm _ => ⟨htell m hm, trivial⟩
  rw [Wire.sendIfReady, Wire.send_nil, ite_self] at hsend
  exact hsend

theorem disconnect : w.disconnect.Mirrored where
  sound := h.sound
  phase := by simp [Wire.disconnect, Wire.letGo, isReady]
  told g hg := by cases hg
  fresh g fs hfs := Nat.le_succ_of_le (h.fresh g fs hfs)
  queue := h.queue
  inTurn := h.inTurn

theorem attach : w.attach.Mirrored where
  sound := h.sound
  phase := by simp [Wire.attach, Wire.letGo, isReady]
  told g hg := by
    cases hg
    refine ⟨[], if_pos rfl, fun _ => ⟨fun _ => rfl, ?_⟩⟩
    intro hready
    cases hready
  fresh g fs hfs := by
    change (if w.generation + 1 = g then some [] else w.pushed g) = some fs at hfs
    split at hfs
    next heq => exact Nat.le_of_eq heq.symm
    next => exact Nat.le_succ_of_le (h.fresh g fs hfs)
  queue := h.queue
  inTurn g fs hfs hwhole := by
    change (if w.generation + 1 = g then some [] else w.pushed g) = some fs at hfs
    split at hfs
    next =>
      cases hfs
      trivial
    next => exact h.inTurn g fs hfs hwhole

theorem complete (hattached : w.attached.isSome) :
    ({ w with documents := w.documents.sync.2 }.complete
      (.initialized :: (w.documents.sync.2.openFrames ++ w.queue))).Mirrored := by
  refine h.tell rfl rfl rfl h.sound.sync ?_ (List.forall_mem_nil _) ?_
  · simp [Wire.complete, isReady, Wire.send, hattached]
  · intro m _ hm _
    refine ⟨⟨?_, fun _ => ?_⟩, ?_⟩
    · intro hready
      cases hready
    · rw [List.foldl_cons, List.foldl_append, Mirror.foldl_hear_of_silent h.queue]
      apply Mirror.agrees_openFrames h.sound.sync
      intro uri hnone
      rw [Documents.get?_sync, Option.map_eq_none_iff] at hnone
      -- a handshake may be answered twice, and then the server knows the documents already
      change Table.get? uri m = none
      cases hready : w.ready with
      | false =>
        rw [hm.1 hready]
        rfl
      | true =>
        rw [hm.2 hready uri, hnone]
        rfl
    · apply Mirror.inTurn_of_unchanged
      refine List.forall_mem_cons.mpr ⟨?_, List.forall_mem_append.mpr ⟨?_, ?_⟩⟩
      · intro uri version text hnotice
        cases hnotice
      · intro f hf uri version text
        obtain ⟨e, -, rfl⟩ := List.mem_map.mp hf
        simp [Frame.documentNotice?_didOpen]
      · intro f hf uri version text
        simp [h.queue f hf]

end Wire.Mirrored

namespace Client

/-- Whether documents are opened, closed and synced through the client alone: not behind its back in the
workspace, and not by a notification that the user words himself. -/
def Act.ThroughClient : Act → Prop
  | .openBehind _ _ _ => False
  | .notify method params => (Frame.notification method params).documentNotice? = none
  | _ => True

section Acts

variable {c c' : Client} (h : c.wire.Mirrored)
include h

theorem mirrored_openFile {uri languageId text : String} {outcome : OpenOutcome}
    (hopen : c.openFile uri languageId text = .ok (outcome, c')) : c'.wire.Mirrored := by
  obtain ⟨s, hs, hwire⟩ := wire_of_openFile hopen
  rw [hwire]
  cases outcome with
  | opened d =>
    refine h.sendIfReady (h.sound.step (Documents.step_openFile hs)) fun m hm _ => ⟨hm.openFile hs, ?_⟩
    apply Mirror.inTurn_of_unchanged
    simp [Frame.documentNotice?_didOpen]
  | joined holders => exact h.withDocuments (h.sound.step (Documents.step_openFile hs)) fun m hm => hm.joinFile hs

theorem mirrored_closeFile {uri : String} {outcome : CloseOutcome}
    (hclose : c.closeFile uri = .ok (outcome, c')) : c'.wire.Mirrored := by
  obtain ⟨s, hs, hwire⟩ := wire_of_closeFile hclose
  rw [hwire]
  cases outcome with
  | closed =>
    refine h.sendIfReady (h.sound.step (Documents.step_closeFile hs)) fun m hm _ => ⟨hm.closeFile hs, ?_⟩
    apply Mirror.inTurn_of_unchanged
    simp [Frame.documentNotice?_didClose]
  | released remaining => exact h.withDocuments (h.sound.step (Documents.step_closeFile hs)) fun m hm => hm.leaveFile hs

theorem mirrored_updateFile (uri : String) (edits : List Edit) :
    (c.act (.updateFile uri edits)).wire.Mirrored := by
  rw [act]
  cases hupdate : c.updateFile uri edits with
  | error e => exact h
  | ok c' =>
    obtain ⟨s, hs, hwire⟩ := wire_of_updateFile hupdate
    exact hwire.symm ▸
      h.withDocuments (h.sound.step (Documents.step_updateFile hs)) fun m hm => hm.updateFile hs

theorem mirrored_replaceText (uri text : String) :
    (c.act (.replaceText uri text)).wire.Mirrored := by
  rw [act_replaceText]
  cases c.documents.get? uri with
  | none => exact h
  | some d => exact mirrored_updateFile h uri _

theorem mirrored_sync : c.sync.2.wire.Mirrored := by
  rw [wire_sync]
  split
  · exact h
  · exact h.sendIfReady h.sound.sync fun m hm hwhole => Mirror.Agrees.sync h.sound hm hwhole

theorem mirrored_startMapping : c.startMapping.2.wire.Mirrored :=
  h.withDocuments h.sound.startMapping fun _ hm => hm

theorem mirrored_release (m : Mapping) : (c.release m).wire.Mirrored :=
  h.withDocuments (h.sound.release m) fun _ hm => hm

theorem mirrored_startRequest {method : String} {params : Option Json} {key : Option String}
    {id : Nat} (hstart : c.startRequest method params key = .ok (id, c')) : c'.wire.Mirrored := by
  rw [wire_of_startRequest hstart]
  exact h.enqueue rfl

theorem mirrored_startMapped {method : String} {params : Option Json} {key : Option String} :
    (c.act (.startMapped method params key)).wire.Mirrored := by
  have hmapping := mirrored_startMapping (mirrored_sync h)
  rw [act]
  cases c.mappedCourse method params key with
  | unready _ hmapped =>
    rw [hmapped]
    exact h
  | refused _ _ hmapped =>
    rw [hmapped]
    exact mirrored_release hmapping c.sync.2.startMapping.1
  | asks _ hstart hmapped =>
    rw [hmapped]
    exact mirrored_startRequest hmapping hstart

theorem mirrored_finishConnect (generation : Nat) (outcome : Outcome) :
    (c.finishConnect generation outcome).2.wire.Mirrored := by
  rw [wire_finishConnect]
  split
  next hcompletes =>
    exact h.complete (of_completes hcompletes).2
  next =>
    split
    · exact h.disconnect
    · exact h

theorem mirrored_beginShutdown : (c.act .beginShutdown).wire.Mirrored := by
  rw [act]
  cases c.shutdownCourse with
  | asks _ hstart hshutdown =>
    rw [hshutdown]
    exact mirrored_startRequest h hstart
  | letsGo _ hshutdown =>
    rw [hshutdown]
    exact c.wire_disconnect ▸ h.disconnect

theorem mirrored_cancel (key : String) : (c.cancel key).2.wire.Mirrored := by
  obtain hwire | ⟨p, hwire⟩ | ⟨id, hwire⟩ := c.wire_cancel key
  · exact hwire ▸ h
  · exact hwire ▸ h.unqueue p
  · exact hwire ▸ h.enqueue rfl

theorem mirrored_receive (raw : String) : (c.receive raw).2.2.wire.Mirrored := by
  obtain hwire | ⟨r, hwire⟩ := c.wire_receive raw
  · exact hwire ▸ h
  · rw [hwire]
    exact h.send (List.forall_mem_singleton.mpr rfl)

theorem mirrored_act {a : Act} (ha : a.ThroughClient) : (c.act a).wire.Mirrored := by
  cases a with
  | openFile uri languageId text =>
    rw [act]
    cases hopen : c.openFile uri languageId text with
    | error e => exact h
    | ok r => exact mirrored_openFile h hopen
  | openBehind uri languageId text => exact ha.elim
  | closeFile uri =>
    rw [act]
    cases hclose : c.closeFile uri with
    | error e => exact h
    | ok r => exact mirrored_closeFile h hclose
  | updateFile uri edits => exact mirrored_updateFile h uri edits
  | replaceText uri text => exact mirrored_replaceText h uri text
  | sync => exact mirrored_sync h
  | startMapping => exact mirrored_startMapping h
  | release m => exact mirrored_release h m
  | startMapped method params key => exact mirrored_startMapped h
  | finishMapped call m outcome =>
    rw [act, finishMapped]
    cases call.shape.ofOutcome outcome with
    | ok v => exact h
    | error e => exact mirrored_release h m
  | beginConnect transport =>
    rw [act, wire_beginConnect]
    exact h.attach.send (List.forall_mem_singleton.mpr rfl)
  | finishConnect generation outcome => exact mirrored_finishConnect h generation outcome
  | disconnect => exact c.wire_disconnect ▸ h.disconnect
  | beginShutdown => exact mirrored_beginShutdown h
  | afterShutdown outcome =>
    rw [act, afterShutdown]
    split
    · rw [wire_notify]
      exact h.enqueue rfl
    · exact h
  | request method params key =>
    rw [act]
    cases hstart : c.startRequest method params key with
    | error e => exact h
    | ok r => exact mirrored_startRequest h hstart
  | notify method params =>
    rw [act, wire_notify]
    exact h.enqueue ha
  | cancel key => exact mirrored_cancel h key
  | forget id => exact h
  | write now => exact (c.wire_write now).symm ▸ h
  | sweep now => exact h
  | receive raw => exact mirrored_receive h raw
  | respond id answer =>
    obtain ⟨r, hwire⟩ := c.wire_respond id answer
    rw [act, hwire]
    exact h.send (List.forall_mem_singleton.mpr rfl)
  | onNotification method handler =>
    rw [act, onNotification]
    split <;> exact h
  | removeNotificationHandler method => exact h
  | onRequest method handler =>
    rw [act, onRequest]
    split <;> exact h
  | onUnhandled name => exact h
  | addTransport transport => exact h
  | happen transport event => exact h

end Acts

theorem mirrored_new (settings : Settings) (policy : HolderPolicy) (processId : Nat) (hashing : Hashing) :
    (new settings policy processId hashing).wire.Mirrored where
  sound := Documents.sound_new policy
  phase := by simp [new, wire, Wire.isReady]
  told g hg := by cases hg
  fresh g fs hfs := by cases hfs
  queue f hf := by cases hf
  inTurn g fs hfs := by cases hfs

theorem mirrored_run {c : Client} (h : c.wire.Mirrored) {acts : List Act}
    (hacts : ∀ a ∈ acts, a.ThroughClient) : (c.run acts).wire.Mirrored := by
  induction acts generalizing c with
  | nil => exact h
  | cons a rest ih =>
    exact ih (mirrored_act h (hacts a List.mem_cons_self))
      fun a' ha' => hacts a' (List.mem_cons_of_mem _ ha')

theorem wire_of_startMapped {c c' : Client} {method : String} {params : Option Json}
    {key : Option String} {m : Mapping} {id : Nat}
    (hmapped : c.startMapped method params key = some (.ok (m, id), c')) :
    c.isReady = true ∧ m = c.sync.2.documents.startMapping.1 ∧
      c'.wire = { c.sync.2.wire with documents := c.sync.2.documents.startMapping.2 }.enqueue
        (.request id method params) := by
  cases c.mappedCourse method params key with
  | unready _ hnone => cases hnone.symm.trans hmapped
  | refused _ _ hrefused => cases hrefused.symm.trans hmapped
  | asks hready hstart hasks =>
    cases hasks.symm.trans hmapped
    exact ⟨hready, rfl, wire_of_startRequest hstart⟩

theorem exists_line_of_pushed {c : Client} {g : Nat} {fs : List Frame}
    (h : c.wire.pushed g = some fs) : ∃ l, Table.get? g c.lines = some l ∧ l.pushed = fs :=
  Option.map_eq_some_iff.mp h

/-- A server is never behind. In every state that is reached through the client, on a line on which no
change is sent as ranges: while the handshake is complete, the attached line has told exactly the open
documents as of their last sync; every change that was ever told is of a document that is known there,
and raises its version by one; and right before a mapped request goes out, what was told is the baseline
of its mapping. -/
theorem server_mirror (settings : Settings) (policy : HolderPolicy) (processId : Nat) (hashing : Hashing)
    (acts : List Act) (hacts : ∀ a ∈ acts, a.ThroughClient) :
    let c := (new settings policy processId hashing).run acts
    (c.phase = .initialized → ∃ l, c.line? = some l ∧
      ((∀ f ∈ l.pushed, f.IsWhole) → ∀ uri, Table.get? uri (Mirror.ofFrames l.pushed) =
        (c.documents.get? uri).map fun d => (d.version, d.syncedText))) ∧
    (∀ g l, Table.get? g c.lines = some l → (∀ f ∈ l.pushed, f.IsWhole) →
      ∀ pre f post uri version text, l.pushed = pre ++ f :: post →
        f.documentNotice? = some (.changed uri version text) →
        ∃ known, Table.get? uri (Mirror.ofFrames pre) = some known ∧ version = known.1 + 1) ∧
    ∀ method params key m id c', c.startMapped method params key = some (.ok (m, id), c') →
      ∃ l pre, c'.line? = some l ∧ l.pushed = pre ++ [.request id method params] ∧
        ((∀ f ∈ l.pushed, f.IsWhole) → ∀ uri, Table.get? uri (Mirror.ofFrames pre) =
          (Table.get? uri m.baseline).map fun b => (b.version, b.text)) := by
  intro c
  have h : c.wire.Mirrored := mirrored_run (mirrored_new ..) hacts
  refine ⟨?_, ?_, ?_⟩
  · intro hphase
    have hready : c.isReady = true := h.phase.mp hphase
    obtain ⟨hattached, hready⟩ := Bool.and_eq_true_iff.mp hready
    obtain ⟨g, hg⟩ := Option.isSome_iff_exists.mp hattached
    obtain ⟨fs, hfs, hknows⟩ := h.told g hg
    obtain ⟨l, hl, rfl⟩ := exists_line_of_pushed hfs
    refine ⟨l, ?_, fun hwhole => (hknows hwhole).2 hready⟩
    rw [line?, hg]
    exact hl
  · intro g l hl hwhole pre f post uri version text hsplit hnotice
    have hpushed : c.wire.pushed g = some l.pushed := congrArg (Option.map Line.pushed) hl
    have hturn := h.inTurn g l.pushed hpushed hwhole
    rw [hsplit, Mirror.inTurn_append] at hturn
    exact hturn.2.1 uri version text hnotice
  · intro method params key m id c' hmapped
    obtain ⟨hready, rfl, hwire⟩ := wire_of_startMapped hmapped
    have hready' : c.sync.2.wire.isReady = true := c.isReady_sync.trans hready
    obtain ⟨hattached, hready'⟩ := Bool.and_eq_true_iff.mp hready'
    obtain ⟨g, hg⟩ := Option.isSome_iff_exists.mp hattached
    obtain ⟨fs, hfs, hknows⟩ := (mirrored_sync h).told g hg
    rw [Wire.enqueue, Wire.isReady_documents, isReady_wire, c.isReady_sync, if_pos hready] at hwire
    have hpushed : c'.wire.pushed g = some (fs ++ [.request id method params]) := by
      rw [hwire]
      simp [Wire.send, hg, hfs]
    have hattached' : c'.attached = some g := (congrArg Wire.attached hwire).trans hg
    obtain ⟨l, hl, hlpushed⟩ := exists_line_of_pushed hpushed
    refine ⟨l, fs, ?_, hlpushed, ?_⟩
    · rw [line?, hattached']
      exact hl
    · intro hwhole uri
      rw [hlpushed, List.forall_mem_append] at hwhole
      rw [(hknows hwhole.1).2 hready', Documents.get?_baseline, Option.map_map]
      rfl

theorem server_mirror_of_reconnect :
    let answer := .ok (.object [("capabilities", .object [("textDocumentSync", .integer 1)])])
    let c := (new .standard .exclusive 1 .rising).run [.openFile "a" "text" "x", .beginConnect 0,
      .finishConnect 1 answer, .disconnect, .updateFile "a" [⟨1, 1, "y"⟩], .beginConnect 0,
      .updateFile "a" [⟨0, 1, ""⟩], .finishConnect 3 answer, .updateFile "a" [⟨0, 0, "z"⟩], .sync]
    ∃ l, c.line? = some l ∧ l.pushed.map Frame.documentNotice? =
        [none, none, some (.opened "a" 1 "y"), some (.changed "a" 2 (some "zy"))] ∧
      Table.get? "a" (Mirror.ofFrames l.pushed) = some (2, "zy") := by
  intro answer c
  have hacts : ∀ a ∈ [Act.openFile "a" "text" "x", .beginConnect 0, .finishConnect 1 answer,
      .disconnect, .updateFile "a" [⟨1, 1, "y"⟩], .beginConnect 0, .updateFile "a" [⟨0, 1, ""⟩],
      .finishConnect 3 answer, .updateFile "a" [⟨0, 0, "z"⟩], .sync], a.ThroughClient := by
    simp [Act.ThroughClient]
  have hphase : c.phase = .initialized := by decide
  have hline : c.line?.map (·.pushed.map Frame.documentNotice?) =
      some [none, none, some (.opened "a" 1 "y"), some (.changed "a" 2 (some "zy"))] := by
    decide
  have hdocument : (c.documents.get? "a").map (fun d => (d.version, d.syncedText)) =
      some (2, "zy") := by
    decide
  obtain ⟨l, hl, hmirror⟩ := (server_mirror .standard .exclusive 1 .rising _ hacts).1 hphase
  change c.line? = some l at hl
  rw [hl, Option.map_some, Option.some.injEq] at hline
  refine ⟨l, hl, hline, (hmirror ?_ "a").trans hdocument⟩
  intro f hf uri version heq
  have hmem : f.documentNotice? ∈ l.pushed.map Frame.documentNotice? := List.mem_map_of_mem hf
  rw [hline, heq] at hmem
  simp at hmem

end Client

end LanguageClient
