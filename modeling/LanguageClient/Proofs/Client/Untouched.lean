import LanguageClient.Proofs.Client.Courses

namespace LanguageClient.Client

variable (c : Client)

theorem exists_push (f : Frame) : ∃ lines, c.push f = { c with lines } := by
  rw [push]
  split <;> exact ⟨_, rfl⟩

theorem exists_pushAll (fs : List Frame) : ∃ lines, c.pushAll fs = { c with lines } := by
  induction fs generalizing c with
  | nil => exact ⟨_, rfl⟩
  | cons f rest ih =>
    obtain ⟨lines, hf⟩ := c.exists_push f
    obtain ⟨lines', hrest⟩ := ih (c.push f)
    exact ⟨lines', hrest.trans (by rw [hf])⟩

theorem exists_pushIfReady (f : Frame) : ∃ lines, c.pushIfReady f = { c with lines } := by
  rw [pushIfReady]
  split
  · exact c.exists_push f
  · exact ⟨_, rfl⟩

theorem exists_enqueue (f : Frame) : ∃ lines queue, c.enqueue f = { c with lines, queue } := by
  rw [enqueue]
  split
  · obtain ⟨lines, h⟩ := c.exists_push f
    exact ⟨lines, _, h⟩
  · exact ⟨_, _, rfl⟩

theorem exists_sync : ∃ documents lines, c.sync.2 = { c with documents, lines } := by
  rw [sync]
  split
  · dsimp only
    split
    · exact ⟨_, _, rfl⟩
    · obtain ⟨lines, h⟩ := c.syncDocuments.2.exists_pushAll _
      exact ⟨_, lines, h⟩
  · exact ⟨_, _, rfl⟩

theorem exists_of_startRequest {c c' : Client} {method : String} {params : Option Json}
    {key : Option String} {id : Nat} (h : c.startRequest method params key = .ok (id, c')) :
    ∃ lines queue, c' = { c with
      requests := (c.requests.create method (c.settings.timeoutFor method) key).2, lines, queue } := by
  rw [startRequest] at h
  split at h
  · cases h
  · cases h
    exact exists_enqueue _ _

theorem exists_beginConnect (transport : Nat) :
    ∃ lines, (c.beginConnect transport).2.2 = { c.attach transport with
      requests := ((c.attach transport).requests.create "initialize"
        ((c.attach transport).settings.timeoutFor "initialize") none).2, lines } := by
  let asked : Client := { c.attach transport with
    requests := ((c.attach transport).requests.create "initialize"
      ((c.attach transport).settings.timeoutFor "initialize") none).2 }
  obtain ⟨lines, h⟩ := asked.exists_push (.request (c.attach transport).requests.nextId "initialize"
    (some (InitializeParams.ofSettings c.settings c.processId).toJson))
  exact ⟨lines, h⟩

theorem exists_of_completeHandshake {c c' : Client} {generation : Nat}
    (h : c.completeHandshake generation = .ok c') :
    ∃ documents lines, c' = { c with
      documents, lines, queue := [], ready := true, phase := .initialized } := by
  rw [completeHandshake] at h
  split at h
  · cases h
  · cases h
    let told := (c.push .initialized).syncDocuments.2
    obtain ⟨lines, hpush⟩ := c.exists_push .initialized
    obtain ⟨lines', hopen⟩ := told.exists_pushAll told.openFrames
    obtain ⟨lines'', hqueue⟩ := (told.pushAll told.openFrames).exists_pushAll told.queue
    have htold : told = { c with documents := c.documents.sync.2, lines } := by
      rw [show told = (c.push .initialized).syncDocuments.2 from rfl, hpush]
      rfl
    refine ⟨c.documents.sync.2, lines'', ?_⟩
    change { (told.pushAll told.openFrames).pushAll told.queue with
      queue := [], ready := true, phase := .initialized } = _
    rw [hqueue, hopen, htold]

theorem exists_answerRequest (method : String) (params : Json) :
    ∃ gate, (c.answerRequest method params).2 = { c with gate } := by
  unfold answerRequest
  split
  · split <;> exact ⟨_, rfl⟩
  · split <;> exact ⟨_, rfl⟩
  · exact ⟨_, rfl⟩
  · exact ⟨_, rfl⟩
  · exact ⟨_, rfl⟩

theorem exists_receive (raw : String) :
    ∃ requests gate lines, (c.receive raw).2.2 = { c with requests, gate, lines } := by
  cases c.receiveCourse raw with
  | unread _ hreceive | stray _ _ hreceive | settles _ _ hreceive | notified _ hreceive
  | handled _ _ hreceive =>
    rw [hreceive]
    exact ⟨_, _, _, rfl⟩
  | @answers r _ _ hreceive =>
    obtain ⟨gate, hanswer⟩ := c.exists_answerRequest r.method (r.params.getD .null)
    rw [hreceive, hanswer]
    exact ⟨_, gate, exists_push { c with gate } _⟩

theorem exists_openFile (uri languageId text : String) :
    ∃ documents lines, c.act (.openFile uri languageId text) = { c with documents, lines } := by
  rw [act, openFile]
  cases c.documents.openFile uri languageId text with
  | error e => exact ⟨_, _, rfl⟩
  | ok r =>
    obtain ⟨outcome, documents⟩ := r
    cases outcome with
    | opened d =>
      obtain ⟨lines, h⟩ := { c with documents }.exists_pushIfReady (.didOpen uri d)
      exact ⟨documents, lines, h⟩
    | joined holders => exact ⟨_, _, rfl⟩

theorem exists_closeFile (uri : String) :
    ∃ documents lines, c.act (.closeFile uri) = { c with documents, lines } := by
  rw [act, closeFile]
  cases c.documents.closeFile uri with
  | error e => exact ⟨_, _, rfl⟩
  | ok r =>
    obtain ⟨outcome, documents⟩ := r
    cases outcome with
    | closed =>
      obtain ⟨lines, h⟩ := { c with documents }.exists_pushIfReady (.didClose uri)
      exact ⟨documents, lines, h⟩
    | released remaining => exact ⟨_, _, rfl⟩

def Act.isLocal : Act → Bool
  | openFile .. | openBehind .. | closeFile .. | updateFile .. | replaceText .. | sync | startMapping
  | release .. | finishMapped .. | afterShutdown .. | notify .. | respond .. | onNotification ..
  | removeNotificationHandler .. | onRequest .. | onUnhandled .. => true
  | _ => false

theorem exists_of_isLocal {a : Act} (h : a.isLocal = true) :
    ∃ documents lines queue handlers, c.act a = { c with documents, lines, queue, handlers } := by
  cases a with
  | openFile uri languageId text =>
    obtain ⟨documents, lines, h⟩ := c.exists_openFile uri languageId text
    exact ⟨documents, lines, _, _, h⟩
  | openBehind uri languageId text =>
    rw [act]
    cases c.documents.openFile uri languageId text <;> exact ⟨_, _, _, _, rfl⟩
  | closeFile uri =>
    obtain ⟨documents, lines, h⟩ := c.exists_closeFile uri
    exact ⟨documents, lines, _, _, h⟩
  | updateFile uri edits =>
    rw [act, updateFile]
    cases c.documents.updateFile uri edits <;> exact ⟨_, _, _, _, rfl⟩
  | replaceText uri text =>
    rw [act, replaceText]
    cases c.documents.replaceText uri text <;> exact ⟨_, _, _, _, rfl⟩
  | sync =>
    obtain ⟨documents, lines, h⟩ := c.exists_sync
    exact ⟨documents, lines, _, _, h⟩
  | finishMapped call m outcome =>
    rw [act, finishMapped]
    cases call.shape.ofOutcome outcome <;> exact ⟨_, _, _, _, rfl⟩
  | afterShutdown outcome =>
    rw [act, afterShutdown]
    split
    · obtain ⟨lines, queue, h⟩ := c.exists_enqueue (.notification "exit" none)
      exact ⟨_, lines, queue, _, h⟩
    · exact ⟨_, _, _, _, rfl⟩
  | notify method params =>
    obtain ⟨lines, queue, h⟩ := c.exists_enqueue (.notification method params)
    exact ⟨_, lines, queue, _, h⟩
  | respond id answer =>
    obtain ⟨lines, h⟩ := c.exists_push _
    exact ⟨_, lines, _, _, h⟩
  | onNotification method handler =>
    rw [act, onNotification]
    split <;> exact ⟨_, _, _, _, rfl⟩
  | onRequest method handler =>
    rw [act, onRequest]
    split <;> exact ⟨_, _, _, _, rfl⟩
  | startMapping | release | removeNotificationHandler | onUnhandled => exact ⟨_, _, _, _, rfl⟩
  | _ => cases h

theorem exists_startMapped (method : String) (params : Option Json) (key : Option String) :
    ∃ documents requests lines queue, c.act (.startMapped method params key) =
      { c with documents, requests, lines, queue } := by
  obtain ⟨documents, lines, hsync⟩ := c.exists_sync
  rw [act]
  cases c.mappedCourse method params key with
  | unready _ hmapped =>
    rw [hmapped]
    exact ⟨_, _, _, _, rfl⟩
  | refused _ _ hmapped =>
    rw [hmapped, hsync]
    exact ⟨_, _, _, _, rfl⟩
  | asks _ hstart hmapped =>
    obtain ⟨lines', queue, rfl⟩ := exists_of_startRequest hstart
    rw [hmapped, hsync]
    exact ⟨_, _, lines', queue, rfl⟩

theorem exists_cancel (key : String) : ∃ cancelledKeys requests lines queue,
    (c.cancel key).2 = { c with cancelledKeys, requests, lines, queue } := by
  cases c.cancelCourse key with
  | unused _ hcancel | withdrawn _ _ hcancel | asked _ hcancel =>
    rw [hcancel]
    exact ⟨_, _, _, _, rfl⟩
  | @new id _ _ _ _ hcancel =>
    obtain ⟨lines, queue, h⟩ := exists_enqueue
      { c.marked key with requests := c.requests.requestCancel id } (.cancelRequest id)
    rw [hcancel]
    exact ⟨_, _, lines, queue, h⟩

theorem exists_writeFrame (now : Nat) (l : Line) (f : Frame) :
    ∃ requests transports, c.writeFrame now l f = { c with requests, transports } := by
  cases c.writeCourse now l f with
  | passed _ _ hwrite | lost _ _ hwrite | refused _ _ _ hwrite => exact ⟨_, _, hwrite⟩
  | sent _ hsend hwrite | handedOver _ _ hsend hwrite =>
    obtain ⟨channel, -, -, rfl⟩ := of_transmit hsend
    exact ⟨_, _, hwrite⟩

theorem exists_write (now : Nat) : ∃ requests transports lines,
    c.act (.write now) = { c with requests, transports, lines } := by
  rw [act]
  cases hwrite : c.write? now with
  | none => exact ⟨_, _, _, rfl⟩
  | some c' =>
    obtain ⟨g, -, hwrite⟩ := Option.bind_eq_some_iff.mp hwrite
    obtain ⟨l, -, hwrite⟩ := Option.bind_eq_some_iff.mp hwrite
    obtain ⟨f, -, hwrite⟩ := Option.bind_eq_some_iff.mp hwrite
    cases hwrite
    let c' : Client := { c with lines := Table.put g { l with taken := l.taken + 1 } c.lines }
    obtain ⟨requests, transports, h⟩ := c'.exists_writeFrame now l f
    exact ⟨requests, transports, _, h⟩

def Act.isSteady : Act → Bool
  | beginConnect .. | finishConnect .. | disconnect | beginShutdown | receive .. => false
  | _ => true

theorem exists_of_isSteady {a : Act} (h : a.isSteady = true) :
    ∃ documents requests transports lines queue cancelledKeys handlers, c.act a =
      { c with documents, requests, transports, lines, queue, cancelledKeys, handlers } := by
  by_cases hlocal : a.isLocal = true
  · obtain ⟨documents, lines, queue, handlers, hact⟩ := c.exists_of_isLocal hlocal
    exact ⟨documents, _, _, lines, queue, _, handlers, hact⟩
  · cases a with
    | startMapped method params key =>
      obtain ⟨documents, requests, lines, queue, hact⟩ := c.exists_startMapped method params key
      exact ⟨documents, requests, _, lines, queue, _, _, hact⟩
    | request method params key =>
      rw [act]
      cases hstart : c.startRequest method params key with
      | error e => exact ⟨_, _, _, _, _, _, _, rfl⟩
      | ok r =>
        obtain ⟨lines, queue, hr⟩ := exists_of_startRequest hstart
        exact ⟨_, _, _, lines, queue, _, _, hr⟩
    | cancel key =>
      obtain ⟨keys, requests, lines, queue, hact⟩ := c.exists_cancel key
      exact ⟨_, requests, _, lines, queue, keys, _, hact⟩
    | write now =>
      obtain ⟨requests, transports, lines, hact⟩ := c.exists_write now
      exact ⟨_, requests, transports, lines, _, _, _, hact⟩
    | forget | sweep | addTransport | happen => exact ⟨_, _, _, _, _, _, _, rfl⟩
    | beginConnect | finishConnect | disconnect | beginShutdown | receive => cases h
    | _ => exact absurd rfl hlocal

end LanguageClient.Client
