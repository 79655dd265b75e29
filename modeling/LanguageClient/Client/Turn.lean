import LanguageClient.Client.Agenda

namespace LanguageClient.Agenda

def writeAll : Nat → Agenda → Agenda
  | 0, a => a
  | n + 1, a =>
    match a.client.write? (nanoseconds a.now) with
    | some client => writeAll n (a.update client)
    | none => a

def sweepTurn (a : Agenda) (id : Nat) : Agenda :=
  if a.alive then
    let (alarm, client) := a.client.sweep (nanoseconds a.now)
    let a := a.update client
    match alarm with
    | some deadline => a.setAlarm id (tick deadline)
    | none => a.clearAlarm id
  else a.finish id none

def writeTurn (a : Agenda) (id generation : Nat) : Agenda :=
  if a.client.attached = some generation then
    match Table.get? generation a.client.lines with
    | some l => writeAll l.waiting.length a
    | none => a
  else a.finish id none

def respondTurn (a : Agenda) (id : Nat) (question : RequestId)
    (answer : Except ResponseError Json) : Agenda :=
  (if a.alive then a.update (a.client.respond question answer) else a).finish id none

def ponderTurn (a : Agenda) (id : Nat) (q : Question) : Agenda :=
  if q.delayMs = 0 then a.respondTurn id q.id q.answer
  else (a.setJob id (.respond q.id q.answer)).setAlarm id (a.now + q.delayMs)

def connectTurn (a : Agenda) (id transport : Nat) : Agenda :=
  let (generation, request, client) := a.client.beginConnect transport
  ((a.setJob id (.finishConnect generation request)).update client).spawn none (.write generation)

def leaveTurn (a : Agenda) (id : Nat) (result : Except ClientError Unit) : Agenda :=
  (a.update a.client.disconnect).finish id (some (.shutDown result))

def finishShutdownTurn (a : Agenda) (id : Nat) (outcome : Outcome) : Agenda :=
  match a.client.afterShutdown outcome with
  | (.error e, client) => (a.update client).leaveTurn id (.error e)
  | (.ok (), client) =>
    let a := a.update client
    match client.flushMark? with
    | some mark =>
      if client.isFlushed mark then a.leaveTurn id (.ok ()) else a.setJob id (.leave mark (.ok ()))
    | none => a.leaveTurn id (.ok ())

def shutDownTurn (a : Agenda) (id : Nat) : Agenda :=
  match a.client.beginShutdown with
  | .error (result, client) => (a.update client).finish id (some (.shutDown result))
  | .ok (request, client) => (a.setJob id (.finishShutdown request)).update client

def requestTurn (a : Agenda) (id : Nat) (call : Call) (attempt : Nat) : Agenda :=
  match a.client.attempt call with
  | .error e => a.finish id (some (.answered (.error e)))
  | .ok (request, client) => (a.setJob id (.finishRequest call attempt request)).update client

def finishRequestTurn (a : Agenda) (id : Nat) (call : Call) (attempt : Nat) (outcome : Outcome) :
    Agenda :=
  match call.shape.ofOutcome outcome with
  | .ok v => a.finish id (some (.answered (.ok v)))
  | .error e =>
    match a.client.retryDelay? call attempt e with
    | none => a.finish id (some (.answered (.error e)))
    | some 0 => a.requestTurn id call (attempt + 1)
    | some d => (a.setJob id (.request call (attempt + 1))).setAlarm id (a.now + tick d)

def mappedTurn (a : Agenda) (id : Nat) (call : Call) : Agenda :=
  if a.client.isReady then
    if a.client.isCallCancelled call then a.finish id (some (.answered (.error .cancelled)))
    else
      match a.client.startMapped call.method call.params call.key with
      | none => a
      | some (.error e, client) => (a.update client).finish id (some (.answered (.error e)))
      | some (.ok (m, request), client) =>
        (a.setJob id (.finishMapped call m request)).update client
  else a

def finishMappedTurn (a : Agenda) (id : Nat) (call : Call) (m : Mapping) (outcome : Outcome) :
    Agenda :=
  let (outcome, client) := a.client.finishMapped call m outcome
  let a := a.update client
  let a := match outcome, (Table.get? id a.errands).bind Errand.name with
    | .ok _, some name => a.keep name m
    | _, _ => a
  a.finish id (some (.answered outcome))

def withOutcome (a : Agenda) (request : Nat) (go : Agenda → Outcome → Agenda) : Agenda :=
  match a.client.outcome? request with
  | some outcome => go { a with client := a.client.forget request } outcome
  | none => a

def turn (a : Agenda) (id : Nat) : Job → Agenda
  | .sweep => a.sweepTurn id
  | .write generation => a.writeTurn id generation
  | .ponder q => a.ponderTurn id q
  | .respond question answer => a.respondTurn id question answer
  | .connect transport => a.connectTurn id transport
  | .finishConnect generation request => a.withOutcome request fun a outcome =>
    let (result, client) := a.client.finishConnect generation outcome
    (a.update client).finish id (some (.connected result))
  | .shutDown => a.shutDownTurn id
  | .finishShutdown request => a.withOutcome request fun a outcome =>
    a.finishShutdownTurn id outcome
  | .leave _ result => a.leaveTurn id result
  | .awaitHandshake =>
    if a.client.phase = .initialized then a.finish id (some .handshakeComplete) else a
  | .awaitOutcome request => a.withOutcome request fun a outcome =>
    a.finish id (some (.answered outcome))
  | .request call attempt => a.requestTurn id call attempt
  | .finishRequest call attempt request => a.withOutcome request fun a outcome =>
    a.finishRequestTurn id call attempt outcome
  | .mapped call => a.mappedTurn id call
  | .finishMapped call m request => a.withOutcome request fun a outcome =>
    a.finishMappedTurn id call m outcome

def next? (a : Agenda) : Option Agenda :=
  a.line.head?.map fun id =>
    let a := match Table.get? id a.errands with
      | some e => a.turn id e.job
      | none => a
    { a with line := a.line.erase id }

def patience : Nat := 1000000

def settleWithin : Nat → Agenda → Agenda
  | 0, a => a
  | n + 1, a =>
    match a.next? with
    | some a => settleWithin n a
    | none => a

def settle (a : Agenda) : Agenda :=
  settleWithin patience a

def nextAlarm? (a : Agenda) : Option Nat :=
  (a.alarms.map Prod.fst).min?

def ring (a : Agenda) : Agenda :=
  let (due, later) := a.alarms.partition (·.1 ≤ a.now)
  enqueue { a with alarms := later } (due.map Prod.snd)

/-- Lets everybody go on at the moment `now`, and then at every later one up to `goal`. -/
def waitFrom (goal now : Nat) (a : Agenda) : Agenda :=
  let a := settle (ring { a with now })
  match a.nextAlarm? with
  | some moment =>
    if now < moment ∧ moment ≤ goal then waitFrom goal moment a
    else { a with now := goal }
  | none => { a with now := goal }
termination_by goal - now

def wait (a : Agenda) (ms : Nat) : Agenda :=
  a.waitFrom (a.now + ms) a.now

end LanguageClient.Agenda
