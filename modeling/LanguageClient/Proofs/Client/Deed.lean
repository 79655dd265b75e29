import LanguageClient.Proofs.Client.Traffic
import LanguageClient.Proofs.Client.Untouched

/-!
What an act has to say, and where it goes.

To the frames that go out every act is one of a few `Deed`s. Frames about documents are said on a line
that is ready for them and otherwise by nobody; calls are said there too, and wait in the queue until
then; answers are said on whatever line there is.
-/

namespace LanguageClient

inductive Deed
  | speak (notices calls answers : List Frame)
  | withdraw (id : Nat)
  | write (g : Nat)
  | attach (first : Frame)
  | complete (greeting : List Frame)
  | letGo

def Deed.quiet : Deed :=
  .speak [] [] []

def Response.answering (id : RequestId) : Except ResponseError Json → Response
  | .ok v => .success id v
  | .error e => .failure id e

def Deed.taken (generation : Nat) (taken : Nat → Nat) : Deed → Nat → Nat
  | .write g => fun g' => if g' = g then taken g + 1 else taken g'
  | .attach _ => fun g' => if g' = generation + 1 then 0 else taken g'
  | _ => taken

def Wire.after (w : Wire) : Deed → Wire
  | .speak notices calls answers =>
    if w.isReady then w.send (notices ++ (calls ++ answers))
    else { w with queue := w.queue ++ calls }.send answers
  | .withdraw id => { w with queue := w.queue.filter fun f => f.requestId? != some id }
  | .write _ => w
  | .attach first => w.attach.send [first]
  | .complete greeting => w.complete (greeting ++ w.queue)
  | .letGo => w.letGo

namespace Client

def changes (c : Client) : List Frame :=
  if c.syncKind = .off then [] else c.documents.sync.1.map (c.changeFrame c.syncKind)

def asks (c : Client) (method : String) (params : Option Json) : List Frame :=
  if c.refuses method then [] else [.request c.requests.nextId method params]

def replies (c : Client) (raw : String) : List Frame :=
  match Message.ofText? raw with
  | some (.request r) =>
    match Table.get? r.method c.handlers.requests with
    | some _ => []
    | none => [.response (.answering r.id (c.answerRequest r.method (r.params.getD .null)).1)]
  | _ => []

def initializeFrame (c : Client) : Frame :=
  .request c.requests.nextId "initialize"
    (some (InitializeParams.ofSettings c.settings c.processId).toJson)

def greeting (c : Client) : List Frame :=
  .initialized :: c.documents.sync.2.openFrames

def deed (c : Client) : Act → Deed
  | .openFile uri languageId text =>
    match c.documents.openFile uri languageId text with
    | .ok (.opened d, _) => .speak [.didOpen uri d] [] []
    | _ => .quiet
  | .closeFile uri =>
    match c.documents.closeFile uri with
    | .ok (.closed, _) => .speak [.didClose uri] [] []
    | _ => .quiet
  | .sync => .speak c.changes [] []
  | .startMapped method params _ =>
    if c.isReady then .speak c.changes (c.asks method params) [] else .quiet
  | .beginConnect _ => .attach c.initializeFrame
  | .finishConnect generation outcome =>
    if c.completes generation outcome then .complete c.greeting
    else if c.generation = generation then .letGo
    else .quiet
  | .disconnect => .letGo
  | .beginShutdown =>
    if c.phase = .initialized ∧ c.refuses "shutdown" = false then
      .speak [] (c.asks "shutdown" none) []
    else .letGo
  | .afterShutdown outcome =>
    match AnswerShape.nothing.ofOutcome outcome with
    | .ok _ => .speak [] [.notification "exit" none] []
    | .error _ => .quiet
  | .request method params _ => .speak [] (c.asks method params) []
  | .notify method params => .speak [] [.notification method params] []
  | .cancel key =>
    match c.requests.findKey? key with
    | none => .quiet
    | some (id, state) =>
      if state = .queued ∧ c.isQueued id then .withdraw id
      else if state = .cancelRequested then .quiet
      else .speak [] [.cancelRequest id] []
  | .write _ =>
    match c.nextFrame? with
    | some (g, _, _) => .write g
    | none => .quiet
  | .receive raw => .speak [] [] (c.replies raw)
  | .respond id answer => .speak [] [] [.response (.answering id answer)]
  | _ => .quiet

def gather {α : Type} (what : Client → Act → List α) : List Act → Client → List α
  | [], _ => []
  | a :: rest, c => what c a ++ gather what rest (c.act a)

theorem gather_append {α : Type} (what : Client → Act → List α) (acts more : List Act) (c : Client) :
    gather what (acts ++ more) c = gather what acts c ++ gather what more (c.run acts) := by
  induction acts generalizing c with
  | nil => rfl
  | cons a rest ih =>
    rw [List.cons_append, gather, ih, gather, List.append_assoc]
    rfl

/-- What a deed makes of a client, as far as frames go. -/
structure Does (c : Client) (d : Deed) (c' : Client) : Prop where
  wire : ∃ s p, c'.wire = { c.wire.after d with documents := s, phase := p }
  taken : c'.ledger.taken = d.taken c.generation c.ledger.taken

section Does

variable {c c' : Client}

theorem does_quiet {s : Documents} (hwire : c'.wire = { c.wire with documents := s })
    (hledger : c'.ledger.taken = c.ledger.taken) : Does c .quiet c' where
  wire := ⟨s, c.wire.phase, by simpa [Wire.after, Deed.quiet] using hwire⟩
  taken := hledger

theorem does_self : Does c .quiet c :=
  does_quiet rfl rfl

theorem does_sendIfReady {s : Documents} {fs : List Frame}
    (hwire : c'.wire = { c.wire with documents := s }.sendIfReady fs)
    (hledger : c'.ledger.taken = c.ledger.taken) : Does c (.speak fs [] []) c' where
  wire := ⟨s, c.wire.phase, by
    rw [hwire, Wire.sendIfReady, Wire.isReady_documents, Wire.after]
    split <;> simp [Wire.send]⟩
  taken := hledger

theorem does_enqueue {f : Frame} (hwire : c'.wire = c.wire.enqueue f)
    (hledger : c'.ledger.taken = c.ledger.taken) : Does c (.speak [] [f] []) c' where
  wire := ⟨c.documents, c.wire.phase, by
    rw [hwire, Wire.enqueue, Wire.after]
    split
    · rfl
    · exact (Wire.send_nil _).symm⟩
  taken := hledger

theorem does_letGo (hwire : c'.wire = c.wire.disconnect)
    (hledger : c'.ledger.taken = c.ledger.taken) : Does c .letGo c' where
  wire := ⟨c.documents, .disconnected, hwire⟩
  taken := hledger

theorem does_push {f : Frame} (hwire : c'.wire = c.wire.send [f])
    (hledger : c'.ledger.taken = c.ledger.taken) : Does c (.speak [] [] [f]) c' where
  wire := ⟨c.documents, c.wire.phase, by
    rw [hwire, Wire.after, List.append_nil]
    split <;> rfl⟩
  taken := hledger

theorem Does.of_eq {c c₁ c' : Client} {d : Deed} (h : Does c₁ d c') (hwire : c₁.wire = c.wire)
    (hledger : c₁.ledger = c.ledger) : Does c d c' where
  wire := by
    rw [← hwire]
    exact h.wire
  taken := by
    rw [← hledger, ← show c₁.generation = c.generation from congrArg Wire.generation hwire]
    exact h.taken

theorem Does.withDocuments {c c' c'' : Client} {d : Deed} (h : Does c d c') {s : Documents}
    (hwire : c''.wire = { c'.wire with documents := s })
    (hledger : c''.ledger.taken = c'.ledger.taken) : Does c d c'' where
  wire := by
    obtain ⟨s', p, h⟩ := h.wire
    exact ⟨s, p, by rw [hwire, h]⟩
  taken := hledger.trans h.taken

theorem Does.andCall {c c' c'' : Client} {notices calls : List Frame}
    (h : Does c (.speak notices [] []) c') (hready : c.isReady = true)
    (h' : Does c' (.speak [] calls []) c'') : Does c (.speak notices calls []) c'' where
  wire := by
    obtain ⟨s, p, hwire⟩ := h.wire
    obtain ⟨s', p', hwire'⟩ := h'.wire
    rw [Wire.after, isReady_wire, if_pos hready] at hwire
    have hready' : c'.wire.isReady = true := by
      rw [hwire]
      exact hready
    refine ⟨s', p', ?_⟩
    rw [hwire', Wire.after, if_pos hready', hwire, Wire.after, isReady_wire, if_pos hready]
    simp only [Wire.send, Wire.mk.injEq, true_and]
    funext g
    split <;> simp [Function.comp_def]
  taken := h'.taken.trans h.taken

end Does

section Sync

variable (c : Client)

theorem refuses_sync (method : String) :
    c.sync.2.startMapping.2.refuses method = c.refuses method := by
  obtain ⟨documents, lines, h⟩ := c.exists_sync
  rw [h]
  rfl

theorem nextId_sync : c.sync.2.startMapping.2.requests.nextId = c.requests.nextId := by
  obtain ⟨documents, lines, h⟩ := c.exists_sync
  rw [h]
  rfl

end Sync

section Acts

variable {c c' : Client}

theorem asks_of_startRequest {method : String} {params : Option Json} {key : Option String}
    {id : Nat} (h : c.startRequest method params key = .ok (id, c')) :
    c.asks method params = [.request id method params] := by
  rw [startRequest] at h
  split at h
  next => cases h
  next hnot =>
    cases h
    exact if_neg hnot

theorem asks_of_refused {method : String} {params : Option Json} {key : Option String}
    {e : ClientError} (h : c.startRequest method params key = .error e) :
    c.asks method params = [] :=
  if_pos (refuses_of_refused h)

theorem does_startRequest {method : String} {params : Option Json} {key : Option String} {id : Nat}
    (h : c.startRequest method params key = .ok (id, c')) :
    Does c (.speak [] (c.asks method params) []) c' := by
  rw [asks_of_startRequest h]
  exact does_enqueue (wire_of_startRequest h) (congrArg (·.taken) (ledger_of_startRequest h).2)

theorem does_request (method : String) (params : Option Json) (key : Option String) :
    Does c (.speak [] (c.asks method params) []) (c.act (.request method params key)) := by
  rw [act]
  cases h : c.startRequest method params key with
  | error e =>
    rw [asks_of_refused h]
    exact does_self
  | ok r => exact does_startRequest h

theorem does_openFile (uri languageId text : String) :
    Does c (c.deed (.openFile uri languageId text)) (c.act (.openFile uri languageId text)) := by
  rw [act]
  unfold deed
  dsimp only
  cases hopen : c.openFile uri languageId text with
  | error e =>
    have hrefused : ∀ r, c.documents.openFile uri languageId text ≠ .ok r := by
      intro r hr
      rw [openFile, hr] at hopen
      cases hopen
    split
    next hr => exact absurd hr (hrefused _)
    next => exact does_self
  | ok r =>
    obtain ⟨outcome, c'⟩ := r
    obtain ⟨s, hs, hwire⟩ := wire_of_openFile hopen
    rw [hs]
    have hledger := congrArg Ledger.taken (ledger_of_openFile hopen)
    cases outcome with
    | opened d => exact does_sendIfReady hwire hledger
    | joined holders => exact does_quiet hwire hledger

theorem does_closeFile (uri : String) :
    Does c (c.deed (.closeFile uri)) (c.act (.closeFile uri)) := by
  rw [act]
  unfold deed
  dsimp only
  cases hclose : c.closeFile uri with
  | error e =>
    have hrefused : ∀ r, c.documents.closeFile uri ≠ .ok r := by
      intro r hr
      rw [closeFile, hr] at hclose
      cases hclose
    split
    next hr => exact absurd hr (hrefused _)
    next => exact does_self
  | ok r =>
    obtain ⟨outcome, c'⟩ := r
    obtain ⟨s, hs, hwire⟩ := wire_of_closeFile hclose
    rw [hs]
    have hledger := congrArg Ledger.taken (ledger_of_closeFile hclose)
    cases outcome with
    | closed => exact does_sendIfReady hwire hledger
    | released remaining => exact does_quiet hwire hledger

theorem does_updateFile (uri : String) (edits : List Edit) :
    Does c .quiet (c.act (.updateFile uri edits)) := by
  rw [act]
  cases h : c.updateFile uri edits with
  | error e => exact does_self
  | ok c' =>
    obtain ⟨s, -, hwire⟩ := wire_of_updateFile h
    exact does_quiet hwire (congrArg Ledger.taken (ledger_of_updateFile h))

theorem does_replaceText (uri text : String) : Does c .quiet (c.act (.replaceText uri text)) := by
  rw [act_replaceText]
  cases c.documents.get? uri with
  | none => exact does_self
  | some d => exact does_updateFile uri _

theorem does_sync : Does c (.speak c.changes [] []) c.sync.2 := by
  have hwire := c.wire_sync
  have hledger := congrArg Ledger.taken c.ledger_sync
  by_cases hoff : c.syncKind = .off
  · rw [changes, if_pos hoff]
    by_cases hready : c.isReady = true
    · rw [if_pos ⟨hready, hoff⟩] at hwire
      exact does_quiet (s := c.documents) hwire hledger
    · rw [if_neg (fun h => hready h.1), Wire.sendIfReady, Wire.isReady_documents, isReady_wire,
        if_neg hready] at hwire
      exact does_quiet hwire hledger
  · rw [changes, if_neg hoff]
    rw [if_neg (fun h => hoff h.2)] at hwire
    exact does_sendIfReady hwire hledger

theorem does_startMapped (method : String) (params : Option Json) (key : Option String) :
    Does c (c.deed (.startMapped method params key)) (c.act (.startMapped method params key)) := by
  have hmapping : Does c (.speak c.changes [] []) c.sync.2.startMapping.2 :=
    does_sync.withDocuments rfl rfl
  have hasks : c.asks method params = c.sync.2.startMapping.2.asks method params := by
    rw [asks, asks, c.refuses_sync, c.nextId_sync]
  rw [act]
  unfold deed
  dsimp only
  cases c.mappedCourse method params key with
  | unready hready hmapped =>
    rw [hmapped, hready]
    exact does_self
  | refused hready hstart hmapped =>
    rw [hmapped, if_pos hready, hasks, asks_of_refused hstart]
    exact hmapping.withDocuments rfl rfl
  | asks hready hstart hmapped =>
    rw [hmapped, if_pos hready, hasks]
    exact hmapping.andCall hready (does_startRequest hstart)

theorem does_beginConnect (transport : Nat) :
    Does c (c.deed (.beginConnect transport)) (c.act (.beginConnect transport)) where
  wire := by
    have hwire := c.wire_beginConnect transport
    have hid : (c.beginConnect transport).2.1 = c.requests.nextId := c.nextId_attach transport
    rw [hid] at hwire
    exact ⟨c.documents, .connecting, hwire⟩
  taken := congrArg (·.taken) (c.traffic_beginConnect transport)

theorem taken_detach (generation : Nat) : (c.detach generation).ledger.taken = c.ledger.taken := by
  rw [detach]
  split
  · exact congrArg (·.taken) c.ledger_teardown
  · rfl

theorem taken_finishConnect (generation : Nat) (outcome : Outcome) :
    (c.finishConnect generation outcome).2.ledger.taken = c.ledger.taken := by
  cases c.finishCourse generation outcome with
  | @fails _ gate _ _ hfinish =>
    rw [hfinish]
    exact taken_detach (c := { c with gate }) generation
  | completes _ _ hdone hfinish =>
    rw [hfinish]
    exact congrArg (·.taken) (ledger_completeHandshake hdone)

theorem does_finishConnect (generation : Nat) (outcome : Outcome) :
    Does c (c.deed (.finishConnect generation outcome)) (c.act (.finishConnect generation outcome)) := by
  have hwire := c.wire_finishConnect generation outcome
  have htaken := taken_finishConnect (c := c) generation outcome
  rw [act]
  unfold deed
  dsimp only
  split at hwire
  next hcompletes =>
    rw [if_pos hcompletes]
    exact ⟨⟨_, _, hwire⟩, htaken⟩
  next hnot =>
    rw [if_neg hnot]
    split at hwire
    next hgeneration =>
      rw [if_pos hgeneration]
      exact does_letGo hwire htaken
    next hgeneration =>
      rw [if_neg hgeneration]
      exact does_quiet hwire htaken

theorem does_disconnect : Does c .letGo c.disconnect :=
  does_letGo c.wire_disconnect (congrArg (·.taken) c.ledger_teardown)

theorem does_beginShutdown : Does c (c.deed .beginShutdown) (c.act .beginShutdown) := by
  rw [act]
  unfold deed
  dsimp only
  cases c.shutdownCourse with
  | asks hphase hstart hshutdown =>
    rw [hshutdown, if_pos ⟨hphase, refuses_of_startRequest hstart⟩]
    exact does_startRequest hstart
  | letsGo hnot hshutdown =>
    rw [hshutdown, if_neg hnot]
    exact does_disconnect

theorem does_cancel (key : String) : Does c (c.deed (.cancel key)) (c.act (.cancel key)) := by
  rw [act]
  unfold deed
  dsimp only
  cases c.cancelCourse key with
  | unused hfind hcancel | asked hfind hcancel =>
    rw [hcancel, hfind]
    exact does_quiet (s := c.documents) rfl rfl
  | @withdrawn id hfind hqueued hcancel =>
    rw [hcancel, hfind]
    dsimp only
    rw [if_pos ⟨rfl, List.contains_iff_mem.mpr hqueued⟩]
    exact ⟨⟨c.documents, c.wire.phase, rfl⟩,
      congrArg (·.taken) (((c.marked key).unqueue id).ledger_reject id .cancelled)⟩
  | @new id _ hfind hsent hnew hcancel =>
    rw [hcancel, hfind]
    dsimp only
    rw [if_neg hsent, if_neg hnew]
    refine does_enqueue (wire_enqueue _ _) (congrArg Ledger.taken ((ledger_enqueue _ _).trans ?_))
    exact (c.marked key).ledger_requestCancel id

theorem does_write (now : Nat) : Does c (c.deed (.write now)) (c.act (.write now)) := by
  have hwire := c.wire_write now
  rw [act]
  unfold deed
  dsimp only
  rw [write?_eq] at hwire ⊢
  cases hnext : c.nextFrame? with
  | none => exact does_self
  | some next =>
    obtain ⟨g, l, f⟩ := next
    obtain ⟨-, hl, -⟩ := nextFrame?_eq_some hnext
    rw [hnext] at hwire
    refine ⟨⟨c.documents, c.wire.phase, hwire⟩, ?_⟩
    have htaken : (c.take g l).ledger.taken = (c.traffic.advance g).taken :=
      congrArg Ledger.taken (ledger_take hl)
    change ((c.take g l).writeFrame now l f).ledger.taken = (c.traffic.advance g).taken
    rw [← htaken]
    cases hhands : (c.take g l).handsOver? l f with
    | some id =>
      obtain ⟨deadline, hledger⟩ := (c.take g l).ledger_writeFrame_of_handsOver hhands now
      exact congrArg (·.taken) hledger
    | none =>
      obtain ⟨clock, hledger, -⟩ := (c.take g l).ledger_writeFrame_of_not_handsOver hhands now
      exact congrArg (·.taken) hledger

theorem does_respond (id : RequestId) (answer : Except ResponseError Json) :
    Does c (.speak [] [] [.response (.answering id answer)]) (c.respond id answer) :=
  does_push (by cases answer <;> exact c.wire_push _) (congrArg Ledger.taken (c.ledger_push _))

theorem does_receive (raw : String) : Does c (c.deed (.receive raw)) (c.act (.receive raw)) := by
  rw [act]
  unfold deed
  dsimp only
  rw [replies]
  cases c.receiveCourse raw with
  | unread hraw hreceive | stray hraw _ hreceive | notified hraw hreceive =>
    rw [hreceive, hraw]
    exact does_self
  | @settles _ id hraw _ hreceive =>
    rw [hreceive, hraw]
    exact does_quiet (s := c.documents) rfl (congrArg (·.taken) (c.ledger_settle id _))
  | handled hraw hhandler hreceive =>
    rw [hreceive, hraw]
    dsimp only
    rw [hhandler]
    exact does_self
  | answers hraw hhandler hreceive =>
    rw [hreceive, hraw]
    dsimp only
    rw [hhandler]
    exact (does_respond _ _).of_eq (c.wire_answerRequest ..) (c.ledger_answerRequest ..)

theorem does_act (a : Act) : Does c (c.deed a) (c.act a) := by
  cases a with
  | openFile uri languageId text => exact does_openFile uri languageId text
  | openBehind uri languageId text =>
    rw [act]
    cases c.documents.openFile uri languageId text with
    | error e => exact does_self
    | ok r => exact does_quiet rfl rfl
  | closeFile uri => exact does_closeFile uri
  | updateFile uri edits => exact does_updateFile uri edits
  | replaceText uri text => exact does_replaceText uri text
  | sync => exact does_sync
  | startMapping => exact does_quiet rfl rfl
  | release m => exact does_quiet rfl rfl
  | startMapped method params key => exact does_startMapped method params key
  | finishMapped call m outcome =>
    rw [act, finishMapped]
    cases call.shape.ofOutcome outcome with
    | ok v => exact does_self
    | error e => exact does_quiet rfl rfl
  | beginConnect transport => exact does_beginConnect transport
  | finishConnect generation outcome => exact does_finishConnect generation outcome
  | disconnect => exact does_disconnect
  | beginShutdown => exact does_beginShutdown
  | afterShutdown outcome =>
    rw [act, afterShutdown]
    unfold deed
    dsimp only
    cases AnswerShape.nothing.ofOutcome outcome with
    | ok v => exact does_enqueue (c.wire_notify ..) (congrArg Ledger.taken (c.ledger_enqueue _))
    | error e => exact does_self
  | request method params key => exact does_request method params key
  | notify method params =>
    exact does_enqueue (c.wire_notify ..) (congrArg Ledger.taken (c.ledger_enqueue _))
  | cancel key => exact does_cancel key
  | forget id => exact does_quiet (s := c.documents) rfl rfl
  | write now => exact does_write now
  | sweep now => exact does_quiet rfl rfl
  | receive raw => exact does_receive raw
  | respond id answer => exact does_respond id answer
  | onNotification method handler =>
    rw [act, onNotification]
    split <;> exact does_quiet (s := c.documents) rfl rfl
  | removeNotificationHandler method => exact does_quiet (s := c.documents) rfl rfl
  | onRequest method handler =>
    rw [act, onRequest]
    split <;> exact does_quiet (s := c.documents) rfl rfl
  | onUnhandled name => exact does_quiet (s := c.documents) rfl rfl
  | addTransport transport => exact does_quiet (s := c.documents) rfl rfl
  | happen transport event => exact does_quiet (s := c.documents) rfl rfl

end Acts

end Client
end LanguageClient
