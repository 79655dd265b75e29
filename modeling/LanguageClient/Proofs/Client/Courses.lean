import LanguageClient.Proofs.Client.Act

/-!
The courses that an act can take.

Cancelling, going on with a handshake, asking with a mapping, shutting down and taking in a message all
branch on what they find. For each of them there is a relation with one constructor for every branch: what
was found, and what it comes to. What is proved of such an act goes by its courses, and unfolds it no more.
-/

namespace LanguageClient

def Gate.heard (gate : Gate) : Outcome → Gate
  | .ok v => match InitializeResult.read? v with
    | some result => gate.set result.capabilities
    | none => gate
  | .error _ => gate

namespace Client

variable (c : Client)

section Cancel

def marked (c : Client) (key : String) : Client :=
  { c with cancelledKeys := if c.isCancelled key then c.cancelledKeys else key :: c.cancelledKeys }

variable {c} {key : String} {id : Nat} {state : RequestState}

theorem cancel_of_unused (hfind : c.requests.findKey? key = none) :
    c.cancel key = (false, c.marked key) := by
  rw [cancel]
  dsimp only
  rw [hfind]
  rfl

theorem cancel_of_queued (hfind : c.requests.findKey? key = some (id, .queued))
    (hqueued : id ∈ c.queuedIds) :
    c.cancel key = (true, ((c.marked key).unqueue id).reject id .cancelled) := by
  rw [cancel]
  dsimp only
  rw [hfind]
  exact if_pos ⟨rfl, List.contains_iff_mem.mpr hqueued⟩

theorem cancel_of_asked (hfind : c.requests.findKey? key = some (id, .cancelRequested)) :
    c.cancel key = (true, c.marked key) := by
  rw [cancel]
  dsimp only
  rw [hfind]
  rfl

theorem cancel_of_new (hfind : c.requests.findKey? key = some (id, state))
    (hsent : ¬(state = .queued ∧ c.isQueued id = true)) (hnew : state ≠ .cancelRequested) :
    c.cancel key = (true, { c.marked key with requests := c.requests.requestCancel id }.enqueue
      (.cancelRequest id)) := by
  rw [cancel]
  dsimp only
  rw [hfind]
  exact (if_neg hsent).trans (if_neg hnew)

inductive CancelCourse (c : Client) (key : String) : Prop
  | unused (hfind : c.requests.findKey? key = none) (hcancel : c.cancel key = (false, c.marked key))
  | withdrawn {id : Nat} (hfind : c.requests.findKey? key = some (id, .queued))
      (hqueued : id ∈ c.queuedIds)
      (hcancel : c.cancel key = (true, ((c.marked key).unqueue id).reject id .cancelled))
  | asked {id : Nat} (hfind : c.requests.findKey? key = some (id, .cancelRequested))
      (hcancel : c.cancel key = (true, c.marked key))
  | new {id : Nat} {state : RequestState} (hfind : c.requests.findKey? key = some (id, state))
      (hsent : ¬(state = .queued ∧ c.isQueued id = true)) (hnew : state ≠ .cancelRequested)
      (hcancel : c.cancel key = (true, { c.marked key with
        requests := c.requests.requestCancel id }.enqueue (.cancelRequest id)))

theorem cancelCourse (c : Client) (key : String) : c.CancelCourse key := by
  cases hfind : c.requests.findKey? key with
  | none => exact .unused hfind (cancel_of_unused hfind)
  | some found =>
    obtain ⟨id, state⟩ := found
    by_cases hqueued : state = .queued ∧ c.isQueued id = true
    · obtain ⟨rfl, hqueued⟩ := hqueued
      have hqueued := List.contains_iff_mem.mp hqueued
      exact .withdrawn hfind hqueued (cancel_of_queued hfind hqueued)
    · by_cases hasked : state = .cancelRequested
      · subst hasked
        exact .asked hfind (cancel_of_asked hfind)
      · exact .new hfind hqueued hasked (cancel_of_new hfind hqueued hasked)

end Cancel

section Handshake

def completes (generation : Nat) : Outcome → Bool
  | .ok v => (InitializeResult.read? v).isSome && c.generation == generation && c.attached.isSome
  | .error _ => false

theorem of_completes {c : Client} {generation : Nat} {outcome : Outcome}
    (h : c.completes generation outcome = true) :
    c.generation = generation ∧ c.attached.isSome = true := by
  cases outcome with
  | error e => cases h
  | ok v =>
    obtain ⟨hknown, hattached⟩ := Bool.and_eq_true_iff.mp h
    exact ⟨beq_iff_eq.mp (Bool.and_eq_true_iff.mp hknown).2, hattached⟩

inductive FinishCourse (c : Client) (generation : Nat) (outcome : Outcome) : Prop
  | fails {e : ClientError} {gate : Gate} (hgate : gate = c.gate.heard outcome)
      (hnot : c.completes generation outcome = false)
      (hfinish : c.finishConnect generation outcome =
        (.error e, ({ c with gate } : Client).detach generation))
  | completes {result : InitializeResult} {gate : Gate} {c' : Client}
      (hgate : gate = c.gate.heard outcome) (hcompletes : c.completes generation outcome = true)
      (hdone : ({ c with gate } : Client).completeHandshake generation = .ok c')
      (hfinish : c.finishConnect generation outcome = (.ok result, c'))

theorem finishCourse (generation : Nat) (outcome : Outcome) : c.FinishCourse generation outcome := by
  cases outcome with
  | error e => exact .fails rfl rfl rfl
  | ok v =>
    cases hread : InitializeResult.read? v with
    | none =>
      have hgate : c.gate = c.gate.heard (.ok v) := by rw [Gate.heard, hread]
      have hfinish : c.finishConnect generation (.ok v) = (.error .undecodable, c.detach generation) := by
        rw [finishConnect, hread]
      exact .fails hgate (by simp [completes, hread]) hfinish
    | some result =>
      let known : Client := { c with gate := c.gate.set result.capabilities }
      have hgate : c.gate.set result.capabilities = c.gate.heard (.ok v) := by
        rw [Gate.heard, hread]
      by_cases hlost : c.generation ≠ generation ∨ c.attached.isNone = true
      · have hfails : known.completeHandshake generation = .error .notConnected := if_pos hlost
        have hfinish : c.finishConnect generation (.ok v) =
            (.error .notConnected, known.detach generation) := by
          rw [finishConnect, hread]
          dsimp only
          rw [hfails]
        refine .fails hgate ?_ hfinish
        cases hlost with
        | inl hne => simp [completes, hne]
        | inr hnone => simp [completes, Option.isNone_iff_eq_none.mp hnone]
      · obtain ⟨c', hdone⟩ : ∃ c', known.completeHandshake generation = .ok c' := ⟨_, if_neg hlost⟩
        have hfinish : c.finishConnect generation (.ok v) = (.ok result, c') := by
          rw [finishConnect, hread]
          dsimp only
          rw [hdone]
        refine .completes hgate ?_ hdone hfinish
        simpa [completes, hread, ← Option.ne_none_iff_isSome] using hlost

end Handshake

section Asking

variable {c} {c' : Client} {method : String} {params : Option Json} {key : Option String}

theorem refuses_of_startRequest {id : Nat} (h : c.startRequest method params key = .ok (id, c')) :
    c.refuses method = false := by
  rw [startRequest] at h
  split at h
  next => cases h
  next hnot => exact Bool.eq_false_iff.mpr hnot

theorem refuses_of_refused {e : ClientError} (h : c.startRequest method params key = .error e) :
    c.refuses method = true := by
  rw [startRequest] at h
  split at h
  next hrefuses => exact hrefuses
  next => cases h

end Asking

section Mapped

variable (method : String) (params : Option Json) (key : Option String)

inductive MappedCourse (c : Client) (method : String) (params : Option Json) (key : Option String) : Prop
  | unready (hready : c.isReady = false) (hmapped : c.startMapped method params key = none)
  | refused {e : ClientError} (hready : c.isReady = true)
      (hstart : c.sync.2.startMapping.2.startRequest method params key = .error e)
      (hmapped : c.startMapped method params key =
        some (.error e, c.sync.2.startMapping.2.release c.sync.2.startMapping.1))
  | asks {id : Nat} {c' : Client} (hready : c.isReady = true)
      (hstart : c.sync.2.startMapping.2.startRequest method params key = .ok (id, c'))
      (hmapped : c.startMapped method params key = some (.ok (c.sync.2.startMapping.1, id), c'))

theorem mappedCourse : c.MappedCourse method params key := by
  cases hready : c.isReady with
  | false => exact .unready hready (if_neg (Bool.eq_false_iff.mp hready))
  | true =>
    have hmapped : c.startMapped method params key = _ := if_pos hready
    cases hstart : c.sync.2.startMapping.2.startRequest method params key with
    | error e =>
      dsimp only at hmapped
      rw [hstart] at hmapped
      exact .refused hready hstart hmapped
    | ok asked =>
      dsimp only at hmapped
      rw [hstart] at hmapped
      exact .asks hready hstart hmapped

end Mapped

section Shutdown

inductive ShutdownCourse (c : Client) : Prop
  | asks {id : Nat} {c' : Client} (hphase : c.phase = .initialized)
      (hstart : c.startRequest "shutdown" none none = .ok (id, c'))
      (hshutdown : c.beginShutdown = .ok (id, c'))
  | letsGo {answer : Except ClientError Unit}
      (hnot : ¬(c.phase = .initialized ∧ c.refuses "shutdown" = false))
      (hshutdown : c.beginShutdown = .error (answer, c.disconnect))

theorem shutdownCourse : c.ShutdownCourse := by
  by_cases hphase : c.phase = .initialized
  · have hshutdown : c.beginShutdown = _ := if_neg (not_not_intro hphase)
    cases hstart : c.startRequest "shutdown" none none with
    | error e =>
      rw [hstart] at hshutdown
      exact .letsGo (fun h => by cases (refuses_of_refused hstart).symm.trans h.2) hshutdown
    | ok asked =>
      rw [hstart] at hshutdown
      exact .asks hphase hstart hshutdown
  · exact .letsGo (fun h => hphase h.1) (if_pos hphase)

end Shutdown

section Receive

variable (raw : String)

inductive ReceiveCourse (c : Client) (raw : String) : Prop
  | unread (hraw : Message.ofText? raw = none) (hreceive : c.receive raw = ([], none, c))
  | stray {r : Response} (hraw : Message.ofText? raw = some (.response r))
      (hid : r.id.bind RequestId.number? = none) (hreceive : c.receive raw = ([], none, c))
  | settles {r : Response} {id : Nat} (hraw : Message.ofText? raw = some (.response r))
      (hid : r.id.bind RequestId.number? = some id)
      (hreceive : c.receive raw = ([], none, { c with
        requests := c.requests.settle id (r.outcome.mapError ClientError.ofResponse) }))
  | notified {n : Notification} (hraw : Message.ofText? raw = some (.notification n))
      (hreceive : c.receive raw = (c.receiveNotification n, none, c))
  | handled {r : Request} {h : RequestHandler} (hraw : Message.ofText? raw = some (.request r))
      (hhandler : Table.get? r.method c.handlers.requests = some h)
      (hreceive : c.receive raw = ([.asked h.name (r.params.getD .null)],
        some ⟨r.id, h.delayMs, h.answer (r.params.getD .null)⟩, c))
  | answers {r : Request} (hraw : Message.ofText? raw = some (.request r))
      (hhandler : Table.get? r.method c.handlers.requests = none)
      (hreceive : c.receive raw = ([], none, (c.answerRequest r.method (r.params.getD .null)).2.respond
        r.id (c.answerRequest r.method (r.params.getD .null)).1))

theorem receiveCourse : c.ReceiveCourse raw := by
  cases hraw : Message.ofText? raw with
  | none => exact .unread hraw (by rw [receive, hraw])
  | some message =>
    cases message with
    | response r =>
      have hreceive : c.receive raw = ([], none, c.receiveResponse r) := by rw [receive, hraw]
      rw [receiveResponse] at hreceive
      cases hid : r.id.bind RequestId.number? with
      | none => exact .stray hraw hid (by rw [hreceive, hid])
      | some id => exact .settles hraw hid (by rw [hreceive, hid])
    | notification n => exact .notified hraw (by rw [receive, hraw])
    | request r =>
      have hreceive : c.receive raw = c.receiveRequest r := by rw [receive, hraw]
      rw [receiveRequest] at hreceive
      cases hhandler : Table.get? r.method c.handlers.requests with
      | some h => exact .handled hraw hhandler (by rw [hreceive, hhandler])
      | none => exact .answers hraw hhandler (by rw [hreceive, hhandler])

end Receive

section Write

def refusal? (c : Client) (l : Line) : Option SendFault :=
  match Table.get? l.transport c.transports with
  | none => some .endDropped
  | some channel => channel.sendFault?

theorem of_transmit {c c' : Client} {l : Line} {text : String} (h : c.transmit l text = .ok c') :
    ∃ channel, Table.get? l.transport c.transports = some channel ∧ c.refusal? l = none ∧
      c' = { c with
        transports :=
          Table.put l.transport { channel with waiting := channel.waiting ++ [text] } c.transports } := by
  rw [transmit] at h
  rw [refusal?]
  cases hchannel : Table.get? l.transport c.transports with
  | none =>
    rw [hchannel] at h
    cases h
  | some channel =>
    rw [hchannel] at h
    dsimp only at h ⊢
    rw [Channel.send] at h
    cases hfault : channel.sendFault? with
    | some fault =>
      rw [hfault] at h
      cases h
    | none =>
      rw [hfault] at h
      cases h
      exact ⟨channel, rfl, rfl, rfl⟩

theorem refusal?_of_transmit {c : Client} {l : Line} {text : String} {fault : SendFault}
    (h : c.transmit l text = .error fault) : c.refusal? l = some fault := by
  rw [transmit] at h
  rw [refusal?]
  cases hchannel : Table.get? l.transport c.transports with
  | none =>
    rw [hchannel] at h
    cases h
    rfl
  | some channel =>
    rw [hchannel] at h
    dsimp only at h ⊢
    rw [Channel.send] at h
    cases hfault : channel.sendFault? with
    | some fault =>
      rw [hfault] at h
      cases h
      rfl
    | none =>
      rw [hfault] at h
      cases h

inductive WriteCourse (c : Client) (now : Nat) (l : Line) (f : Frame) : Prop
  | passed {id : Nat} (hid : f.requestId? = some id) (hdead : c.requests.contains id = false)
      (hwrite : c.writeFrame now l f = c)
  | lost {fault : SendFault} (hid : f.requestId? = none) (hrefusal : c.refusal? l = some fault)
      (hwrite : c.writeFrame now l f = c)
  | sent {c' : Client} (hid : f.requestId? = none) (hsend : c.transmit l f.text = .ok c')
      (hwrite : c.writeFrame now l f = c')
  | refused {id : Nat} {fault : SendFault} (hid : f.requestId? = some id)
      (hlive : c.requests.contains id = true) (hrefusal : c.refusal? l = some fault)
      (hwrite : c.writeFrame now l f = ({ c with
        requests := c.requests.dispatch id now } : Client).reject id (.transport fault.message))
  | handedOver {id : Nat} {c' : Client} (hid : f.requestId? = some id)
      (hlive : c.requests.contains id = true)
      (hsend : ({ c with requests := c.requests.dispatch id now } : Client).transmit l f.text = .ok c')
      (hwrite : c.writeFrame now l f = c')

theorem writeFrame_of_no_request {f : Frame} (hid : f.requestId? = none) (now : Nat) (l : Line) :
    c.writeFrame now l f = (c.transmit l f.text).toOption.getD c := by
  cases f with
  | request id method params => cases hid
  | notification method params =>
    unfold writeFrame
    dsimp only
    cases c.transmit l (Frame.notification method params).text <;> rfl
  | response r =>
    unfold writeFrame
    dsimp only
    cases c.transmit l (Frame.response r).text <;> rfl

theorem writeCourse (now : Nat) (l : Line) (f : Frame) : c.WriteCourse now l f := by
  have hplain : f.requestId? = none → c.WriteCourse now l f := by
    intro hid
    have hwrite := writeFrame_of_no_request (c := c) hid now l
    cases hsend : c.transmit l f.text with
    | ok c' => exact .sent hid hsend (by rw [hwrite, hsend]; rfl)
    | error fault => exact .lost hid (refusal?_of_transmit hsend) (by rw [hwrite, hsend]; rfl)
  cases f with
  | notification method params => exact hplain rfl
  | response r => exact hplain rfl
  | request id method params =>
    cases hlive : c.requests.contains id with
    | false => exact .passed rfl hlive (if_neg (Bool.eq_false_iff.mp hlive))
    | true =>
      let dated : Client := { c with requests := c.requests.dispatch id now }
      have hwrite : c.writeFrame now l (.request id method params) = _ := if_pos hlive
      cases hsend : dated.transmit l (Frame.request id method params).text with
      | ok c' =>
        rw [hsend] at hwrite
        exact .handedOver rfl hlive hsend hwrite
      | error fault =>
        rw [hsend] at hwrite
        exact .refused rfl hlive (refusal?_of_transmit (c := dated) hsend) hwrite

end Write

section Replace

theorem replaceText_of_get? {uri : String} {d : Document} (h : c.documents.get? uri = some d)
    (text : String) :
    c.replaceText uri text = c.updateFile uri [⟨0, Text.size d.text, text⟩] := by
  change c.documents.workspace.get? uri = some d at h
  rw [replaceText, Documents.replaceText, Workspace.replaceText, h]
  rfl

theorem replaceText_of_none {uri : String} (h : c.documents.get? uri = none) (text : String) :
    c.replaceText uri text = .error (.notOpen uri) := by
  change c.documents.workspace.get? uri = none at h
  rw [replaceText, Documents.replaceText, Workspace.replaceText, h]
  rfl

theorem act_replaceText (uri text : String) :
    c.act (.replaceText uri text) = match c.documents.get? uri with
      | some d => c.act (.updateFile uri [⟨0, Text.size d.text, text⟩])
      | none => c := by
  cases hget : c.documents.get? uri with
  | none =>
    rw [act, c.replaceText_of_none hget]
    rfl
  | some d =>
    rw [act, c.replaceText_of_get? hget]
    rfl

end Replace

end Client

end LanguageClient
