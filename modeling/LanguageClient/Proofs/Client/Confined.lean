import LanguageClient.Proofs.Client.Registrations
import LanguageClient.Proofs.Client.Shutdown
import LanguageClient.Proofs.Request.Passage

namespace LanguageClient

section Id

variable {v : Json} {q : Request}

theorem RequestId.toJson_of_read? {id : RequestId} (h : RequestId.read? v = some id) :
    id.toJson = v := by
  cases v with
  | string s =>
    cases h
    rfl
  | integer n =>
    cases n with
    | ofNat n =>
      simp only [RequestId.read?, Json.natural?] at h
      split at h
      · cases h
        rfl
      · cases h
    | negSucc n => cases h
  | _ => cases h

theorem Request.get?_id_of_read? (hid : (v.get? "id").isSome) (h : Request.read? v = some q) :
    v.get? "id" = some q.id.toJson := by
  -- A record can be read from an array too, which has no keys.
  cases v with
  | object fields =>
    rw [Request.read?] at h
    obtain ⟨r, hr, h⟩ := Option.bind_eq_some_iff.mp h
    obtain ⟨format, -, h⟩ := Option.bind_eq_some_iff.mp h
    obtain ⟨id, hread, h⟩ := Option.bind_eq_some_iff.mp h
    obtain ⟨method, -, h⟩ := Option.bind_eq_some_iff.mp h
    obtain ⟨params, -, h⟩ := Option.bind_eq_some_iff.mp h
    cases h
    cases hr
    obtain ⟨j, hj, hread⟩ := Option.bind_eq_some_iff.mp hread
    rw [Json.get?, hj, RequestId.toJson_of_read? hread]
  | _ => cases hid

theorem Response.get?_id_toJson (r : Response) :
    r.toJson.get? "id" = some (r.id.elim .null RequestId.toJson) := by
  rw [toJson, Json.ofPresent, Json.get?_ofFields]
  cases r.result <;> cases r.error <;> rfl

def Message.keys : Message → Bool × Bool
  | request _ => (true, true)
  | response _ => (true, false)
  | notification _ => (false, true)

theorem Message.keys_of_read? {m : Message} (h : read? v = some m) :
    ((v.get? "id").isSome, (v.get? "method").isSome) = m.keys := by
  rw [read?] at h
  split at h
  next hid hmethod =>
    obtain ⟨q, -, rfl⟩ := Option.map_eq_some_iff.mp h
    rw [hid, hmethod, keys]
  next hid hmethod =>
    obtain ⟨r, -, rfl⟩ := Option.map_eq_some_iff.mp h
    rw [hid, hmethod, keys]
  next hid hmethod =>
    obtain ⟨n, -, rfl⟩ := Option.map_eq_some_iff.mp h
    rw [hid, hmethod, keys]
  next => cases h

theorem Message.get?_id_of_read? (h : read? v = some (.request q)) :
    v.get? "id" = some q.id.toJson := by
  have hkeys := keys_of_read? h
  rw [keys, Prod.mk.injEq] at hkeys
  rw [read?, hkeys.1, hkeys.2] at h
  obtain ⟨q', hq, heq⟩ := Option.map_eq_some_iff.mp h
  cases heq
  exact Request.get?_id_of_read? hkeys.1 hq

end Id

structure RequestTable.SettlesOnly (t : RequestTable) (id : Nat) (outcome : Outcome)
    (t' : RequestTable) : Prop where
  gone : t'.get? id = none
  state : t'.state? id = some (.ofOutcome outcome)
  told : t'.peek? id = (t.peek? id).map fun _ => some outcome
  live : ∀ other, other ≠ id → t'.get? other = t.get? other
  waiting : ∀ other, other ≠ id → t'.peek? other = t.peek? other
  remembered : t'.settled = ((id, .ofOutcome outcome) :: t.settled).take memory
  nextId : t'.nextId = t.nextId
  called : t'.called = t.called

theorem RequestTable.settlesOnly_settle {t : RequestTable} {id : Nat} (h : t.contains id = true)
    (outcome : Outcome) : t.SettlesOnly id outcome (t.settle id outcome) where
  gone := get?_settle_self h
  state := state?_settle_self h
  told := peek?_settle_self h
  live _ hne := t.get?_settle_of_ne hne outcome
  waiting _ hne := peek?_settle_of_ne hne
  remembered := by rw [settle_of_live h]
  nextId := by rw [settle_of_live h]
  called := by rw [settle_of_live h]

structure Gate.Heeds (g : Gate) (q : Request) (g' : Gate) : Prop where
  register : ∀ p, q.method = "client/registerCapability" →
    RegistrationParams.read? (q.params.getD .null) = some p → g' = g.register p.registrations
  unregister : ∀ p, q.method = "client/unregisterCapability" →
    UnregistrationParams.read? (q.params.getD .null) = some p → g' = g.unregister p.unregistrations
  other : (q.method = "client/registerCapability" →
      RegistrationParams.read? (q.params.getD .null) = none) →
    (q.method = "client/unregisterCapability" →
      UnregistrationParams.read? (q.params.getD .null) = none) → g' = g

theorem RegistrationParams.requested_of_unreadable {method : String} {params : Json}
    (h : method = "client/registerCapability" → read? params = none) :
    requested method params = [] := by
  rw [requested]
  split
  next hmethod => rw [h hmethod, Option.elim_none]
  next => rfl

theorem UnregistrationParams.requested_of_unreadable {method : String} {params : Json}
    (h : method = "client/unregisterCapability" → read? params = none) :
    requested method params = [] := by
  rw [requested]
  split
  next hmethod => rw [h hmethod, Option.elim_none]
  next => rfl

structure Line.TakesOnly (lines : Table Nat Line) (g : Nat) (f : Frame) (lines' : Table Nat Line) :
    Prop where
  line : ∃ l, Table.get? g lines = some l ∧ Table.get? g lines' = some (l.push f)
  others : ∀ g', g' ≠ g → Table.get? g' lines' = Table.get? g' lines

structure Response.Answers (r : Response) (v : Json) : Prop where
  id : r.toJson.get? "id" = v.get? "id"
  sole : r.result.isSome = !r.error.isSome

namespace Client

/-- What a text of the server may do to a client that answers for itself. -/
structure Confined (c : Client) (raw : String) (c' : Client) : Prop where
  frame : c' = { c with requests := c'.requests, gate := c'.gate, lines := c'.lines }
  unreadable : Message.ofText? raw = none → c' = c
  notification : ∀ n, Message.ofText? raw = some (.notification n) → c' = c
  stray : ∀ r, Message.ofText? raw = some (.response r) →
    (∀ id, r.id.bind RequestId.number? = some id → c.requests.contains id = false) → c' = c
  result : ∀ r id, Message.ofText? raw = some (.response r) →
    r.id.bind RequestId.number? = some id → c.requests.contains id = true → r.error = none →
    c' = { c with requests := c'.requests } ∧
      c.requests.SettlesOnly id (.ok (r.result.getD .null)) c'.requests
  error : ∀ r id e, Message.ofText? raw = some (.response r) →
    r.id.bind RequestId.number? = some id → c.requests.contains id = true → r.error = some e →
    c' = { c with requests := c'.requests } ∧
      c.requests.SettlesOnly id (.error (.ofResponse e)) c'.requests
  request : ∀ q, Message.ofText? raw = some (.request q) →
    c'.requests = c.requests ∧ c.gate.Heeds q c'.gate ∧ (c.attached = none → c'.lines = c.lines) ∧
      ∀ g, c.attached = some g → ∃ v r, Json.read? raw = some v ∧ r.Answers v ∧
        Line.TakesOnly c.lines g (.response r) c'.lines

section Receive

variable {c : Client} {raw : String}

theorem heeds_answerRequest (q : Request) :
    c.gate.Heeds q (c.answerRequest q.method (q.params.getD .null)).2.gate := by
  have hgate := gate_answerRequest (c := c) q.method (q.params.getD .null)
  constructor
  · intro p hmethod hp
    rw [hgate, RegistrationParams.requested, UnregistrationParams.requested, hp, hmethod]
    rfl
  · intro p hmethod hp
    rw [hgate, RegistrationParams.requested, UnregistrationParams.requested, hp, hmethod]
    rfl
  · intro hregister hunregister
    rw [hgate, RegistrationParams.requested_of_unreadable hregister,
      UnregistrationParams.requested_of_unreadable hunregister]
    rfl

theorem answers_answering {v : Json} {q : Request} (h : Message.read? v = some (.request q))
    (answer : Except ResponseError Json) : (Response.answering q.id answer).Answers v where
  id := by
    rw [Response.get?_id_toJson, Message.get?_id_of_read? h]
    cases answer <;> rfl
  sole := by cases answer <;> rfl

theorem takesOnly_push {g : Nat} {l : Line} (hg : c.attached = some g)
    (hl : Table.get? g c.lines = some l) (f : Frame) : Line.TakesOnly c.lines g f (c.push f).lines := by
  rw [push, hg]
  constructor
  · exact ⟨l, hl, by rw [Table.get?_adjust_self, hl, Option.map_some]⟩
  · intro g' hne
    exact Table.get?_adjust_of_ne hne.symm _ c.lines

theorem act_receive_request_of_plain {q : Request} (hplain : c.handlers.requests = [])
    (h : Message.ofText? raw = some (.request q)) : ∃ gate answer, c.gate.Heeds q gate ∧
      c.act (.receive raw) = { c with gate }.push (.response (.answering q.id answer)) := by
  obtain ⟨gate, hgate⟩ := c.exists_answerRequest q.method (q.params.getD .null)
  have hheeds := c.heeds_answerRequest q
  rw [hgate] at hheeds
  refine ⟨gate, (c.answerRequest q.method (q.params.getD .null)).1, hheeds, ?_⟩
  rw [act_receive_request h, receiveRequest, hplain, ← hgate]
  rfl

theorem receiveResponse_of_number {r : Response} {id : Nat}
    (h : r.id.bind RequestId.number? = some id) : c.receiveResponse r =
      { c with requests := c.requests.settle id (r.outcome.mapError ClientError.ofResponse) } := by
  rw [receiveResponse, h]

theorem receiveResponse_of_stray {r : Response}
    (h : ∀ id, r.id.bind RequestId.number? = some id → c.requests.contains id = false) :
    c.receiveResponse r = c := by
  cases hid : r.id.bind RequestId.number? with
  | none => rw [receiveResponse, hid]
  | some id => rw [receiveResponse_of_number hid, RequestTable.settle_of_not_live (h id hid)]

theorem settlesOnly_receiveResponse {r : Response} {id : Nat} {outcome : Outcome}
    (hid : r.id.bind RequestId.number? = some id) (hlive : c.requests.contains id = true)
    (houtcome : r.outcome.mapError ClientError.ofResponse = outcome) :
    c.receiveResponse r = { c with requests := (c.receiveResponse r).requests } ∧
      c.requests.SettlesOnly id outcome (c.receiveResponse r).requests := by
  rw [receiveResponse_of_number hid, houtcome]
  exact ⟨rfl, RequestTable.settlesOnly_settle hlive outcome⟩

theorem confined_receive (hplain : c.handlers.requests = [])
    (hline : ∀ g, c.attached = some g → ∃ l, Table.get? g c.lines = some l) :
    c.Confined raw (c.act (.receive raw)) where
  frame := by
    obtain ⟨requests, gate, lines, h⟩ := c.exists_receive raw
    rw [act, h]
  unreadable h := by rw [act, receive, h]
  notification n h := by rw [act, receive, h]
  stray r h hdead := by rw [act_receive_response h, receiveResponse_of_stray hdead]
  result r id h hid hlive hnone := by
    rw [act_receive_response h]
    exact settlesOnly_receiveResponse hid hlive (by rw [Response.outcome, hnone]; rfl)
  error r id e h hid hlive hsome := by
    rw [act_receive_response h]
    exact settlesOnly_receiveResponse hid hlive (by rw [Response.outcome, hsome]; rfl)
  request q h := by
    obtain ⟨v, hv, hread⟩ := Option.bind_eq_some_iff.mp h
    -- Whatever the answer made of the gate, it is pushed on the line that was attached before.
    obtain ⟨gate, answer, hheeds, hreceive⟩ := act_receive_request_of_plain hplain h
    obtain ⟨lines, hpush⟩ := { c with gate }.exists_push (.response (.answering q.id answer))
    rw [hreceive]
    refine ⟨by rw [hpush], by rw [hpush]; exact hheeds, fun hnone => by rw [push, hnone], ?_⟩
    intro g hg
    obtain ⟨l, hl⟩ := hline g hg
    exact ⟨v, .answering q.id answer, hv, answers_answering hread answer,
      takesOnly_push (c := { c with gate }) hg hl _⟩

theorem heard_receive (raw : String) (hplain : c.handlers = ⟨[], [], none⟩) :
    (c.receive raw).2.1 = none ∧
      ∀ n ∈ (c.receive raw).1, ∃ level text, n = .logged level text := by
  have hserver : ∀ kind params, ∀ n ∈ serverMessage kind params,
      ∃ level text, n = .logged level text := by
    intro kind params n hn
    rw [serverMessage] at hn
    split at hn
    · exact ⟨_, _, List.mem_singleton.mp hn⟩
    · cases hn
  cases c.receiveCourse raw with
  | unread _ hreceive | stray _ _ hreceive | settles _ _ hreceive | answers _ _ hreceive =>
    rw [hreceive]
    exact ⟨rfl, fun n hn => by cases hn⟩
  | notified _ hreceive =>
    rw [hreceive]
    refine ⟨rfl, ?_⟩
    rw [receiveNotification, hplain]
    dsimp only [Table.get?_nil]
    split
    · exact hserver _ _
    · exact hserver _ _
    · intro n hn
      cases hn
  | handled _ hhandler =>
    rw [hplain] at hhandler
    cases hhandler

end Receive

/-- What comes from the server has confined effects on a client that has no handlers of its own. Nothing
but the requests, the gate and the lines is changed. A text that cannot be read, an answer to no live
request and a notification change nothing. An answer to a live request settles that request and no other.
A request is answered once and with its own id, on the line that is attached, and changes the gate if it
is one to register or to unregister that can be read. By its keys a message is told for what it is. -/
theorem receive_confined (settings : Settings) (policy : HolderPolicy) (processId : Nat) (hashing : Hashing)
    (acts : List Act) (raw : String) :
    let c := (new settings policy processId hashing).run acts
    c.handlers = ⟨[], [], none⟩ →
    c.Confined raw (c.act (.receive raw)) ∧ (c.receive raw).2.1 = none ∧
      (∀ n ∈ (c.receive raw).1, ∃ level text, n = .logged level text) ∧
      ∀ v m, Json.read? raw = some v → Message.ofText? raw = some m →
        ((v.get? "id").isSome, (v.get? "method").isSome) = m.keys := by
  intro c hplain
  have hline : ∀ g, c.attached = some g → ∃ l, Table.get? g c.lines = some l :=
    fun g => exists_line_run settings policy processId hashing acts
  obtain ⟨hquestion, hheard⟩ := heard_receive raw hplain
  refine ⟨confined_receive (congrArg Handlers.requests hplain) hline, hquestion, hheard, ?_⟩
  intro v m hv hm
  rw [Message.ofText?, hv] at hm
  exact Message.keys_of_read? hm

theorem receive_confined_of_pending_handshake :
    let c := (new .standard .exclusive 1 .rising).run [.beginConnect 0]
    let reply : Response :=
      ⟨formatVersion, some (.name "1"), some (.bool true), some (.new ErrorCode.requestCancelled "")⟩
    let q : Request := ⟨formatVersion, .name "1", "client/unregisterCapability", none⟩
    let answered := c.act (.receive reply.toJson.compact)
    let asked := c.act (.receive q.toJson.compact)
    answered.requests.peek? 1 = some (some (.error .cancelled)) ∧ answered.lines = c.lines ∧
      asked.requests = c.requests ∧ asked.gate = c.gate ∧
      ∃ (l : Line) (r : Response), Table.get? 1 asked.lines = some (l.push (.response r)) ∧
        r.toJson.get? "id" = some (.string "1") := by
  intro c reply q answered asked
  have hreply : Message.ofText? reply.toJson.compact = some (.response reply) := by
    rw [Message.ofText?_compact (by decide)]
    decide
  have hread : Json.read? q.toJson.compact = some q.toJson := Json.read?_compact (by decide)
  have hq : Message.ofText? q.toJson.compact = some (.request q) := by
    rw [Message.ofText?, hread]
    decide
  have hanswered : c.Confined reply.toJson.compact answered :=
    (receive_confined .standard .exclusive 1 .rising [.beginConnect 0] reply.toJson.compact rfl).1
  have hasked : c.Confined q.toJson.compact asked :=
    (receive_confined .standard .exclusive 1 .rising [.beginConnect 0] q.toJson.compact rfl).1
  obtain ⟨hsame, hsettles⟩ := hanswered.error reply 1 _ hreply (by decide) (by decide) rfl
  obtain ⟨hrequests, hheeds, -, hline⟩ := hasked.request q hq
  obtain ⟨v, r, hv, hanswers, ⟨l, -, hl⟩, -⟩ := hline 1 (by decide)
  cases hread.symm.trans hv
  have hid : q.toJson.get? "id" = some (.string "1") := by decide
  exact ⟨hsettles.told, (congrArg lines hsame :), hrequests, hheeds.other (by decide) (by decide), l, r,
    hl, hanswers.id.trans hid⟩

end Client

end LanguageClient
