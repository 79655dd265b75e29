import LanguageClient.Client.Call

/-!
The jobs of a client and of its user, and whose turn it is.

A job has its turn, and then it waits: for an outcome, for frames to write, for the handshake, for a
moment. Whatever is done to the client is followed by a look at who can go on now; they stand in line
behind those who could before. Nobody's turn takes time: the clock, in milliseconds, moves only when
the line is empty.
-/

namespace LanguageClient

inductive Job
  | sweep
  | write (generation : Nat)
  | ponder (q : Question)
  | respond (id : RequestId) (answer : Except ResponseError Json)
  | connect (transport : Nat)
  | finishConnect (generation id : Nat)
  | shutDown
  | finishShutdown (id : Nat)
  | leave (mark : Client.FlushMark) (result : Except ClientError Unit)
  | awaitHandshake
  | awaitOutcome (id : Nat)
  | request (call : Call) (attempt : Nat)
  | finishRequest (call : Call) (attempt id : Nat)
  | mapped (call : Call)
  | finishMapped (call : Call) (m : Mapping) (id : Nat)

namespace Job

def outcomeId? : Job → Option Nat
  | finishConnect _ id | finishShutdown id | awaitOutcome id | finishRequest _ _ id
  | finishMapped _ _ id => some id
  | _ => none

def holdsClient : Job → Bool
  | sweep | write _ | ponder _ | respond _ _ | awaitOutcome _ => false
  | _ => true

def isWriter (generation : Nat) : Job → Bool
  | write g => g == generation
  | _ => false

def isService : Job → Bool
  | sweep | write _ => true
  | _ => false

end Job

inductive Report
  | connected (result : Except ClientError InitializeResult)
  | shutDown (result : Except ClientError Unit)
  | handshakeComplete
  | answered (result : Outcome)

structure Errand where
  name : Option String
  job : Job

structure Agenda where
  client : Client
  held : Bool
  alive : Bool
  now : Nat
  errands : Table Nat Errand
  nextErrand : Nat
  line : List Nat
  alarms : List (Nat × Nat)
  mappings : Table String Mapping
  reports : List (String × Report)

namespace Agenda

def nanoseconds (ms : Nat) : Nat := ms * 1000000

/-- The first millisecond that is not before a moment. -/
def tick (ns : Nat) : Nat := (ns + 999999) / 1000000

def spawn (a : Agenda) (name : Option String) (job : Job) : Agenda :=
  { a with
    errands := Table.put a.nextErrand ⟨name, job⟩ a.errands
    nextErrand := a.nextErrand + 1
    line := a.line ++ [a.nextErrand] }

def new (settings : Settings) (policy : HolderPolicy) (processId : Nat) (hashing : Hashing) : Agenda :=
  let a : Agenda :=
    { client := .new settings policy processId hashing, held := true, alive := true, now := 0
      errands := [], nextErrand := 0, line := [], alarms := [], mappings := [], reports := [] }
  a.spawn none .sweep

def canGo (a : Agenda) : Job → Bool
  | .sweep => !a.alive || a.client.requests.called
  | .write g =>
    a.client.attached != some g ||
      (Table.get? g a.client.lines).any fun l => !l.waiting.isEmpty
  | .finishConnect _ id | .finishShutdown id | .awaitOutcome id | .finishRequest _ _ id
  | .finishMapped _ _ id => (a.client.outcome? id).isSome
  | .leave mark _ =>
    a.client.isFlushed mark || !a.errands.any (·.2.job.isWriter mark.generation)
  | .awaitHandshake | .mapped _ => a.client.phase == .initialized
  | _ => false

def enqueue (a : Agenda) (ids : List Nat) : Agenda :=
  { a with line := a.line ++ ids.filter (!a.line.contains ·) }

/-- The jobs that can go on: first the client's own, then those who have an outcome, in the order of
their requests, and then the others. -/
def due (a : Agenda) : List Nat :=
  let able := a.errands.filter fun e => a.canGo e.2.job
  let own := able.filter (·.2.job.isService)
  let answered := able.filterMap fun e => e.2.job.outcomeId?.map (·, e.1)
  let others := able.filter fun e => !e.2.job.isService && e.2.job.outcomeId?.isNone
  Table.keys own ++ (answered.mergeSort fun x y => x.1 ≤ y.1).map Prod.snd ++ Table.keys others

def wake (a : Agenda) : Agenda :=
  a.enqueue a.due

def update (a : Agenda) (client : Client) : Agenda :=
  wake { a with client }

def setJob (a : Agenda) (id : Nat) (job : Job) : Agenda :=
  { a with errands := Table.adjust id (fun e => { e with job }) a.errands }

def clearAlarm (a : Agenda) (id : Nat) : Agenda :=
  { a with alarms := a.alarms.filter (·.2 != id) }

def setAlarm (a : Agenda) (id moment : Nat) : Agenda :=
  let a := a.clearAlarm id
  { a with alarms := a.alarms ++ [(moment, id)] }

/-- The client goes when neither the user nor one of his jobs has it any more. -/
def dropIfUnused (a : Agenda) : Agenda :=
  if a.alive && !a.held && !a.errands.any (·.2.job.holdsClient) then
    wake { a with alive := false, client := a.client.drop }
  else a

def release (a : Agenda) : Agenda :=
  dropIfUnused { a with held := false }

def finish (a : Agenda) (id : Nat) (report : Option Report) : Agenda :=
  let name := (Table.get? id a.errands).bind Errand.name
  let a := { a.clearAlarm id with errands := Table.erase id a.errands }
  let a := match name, report with
    | some name, some report => { a with reports := (name, report) :: a.reports }
    | _, _ => a
  dropIfUnused a.wake

def receive (a : Agenda) (raw : String) : List Notice × Agenda :=
  let (notices, question, client) := a.client.receive raw
  let a := a.update client
  (notices, match question with
    | some q => a.spawn none (.ponder q)
    | none => a)

def deliver (a : Agenda) (transport : Nat) (raw : String) : List Notice × Agenda :=
  match Table.get? transport a.client.transports with
  | some channel => if channel.audience.isEmpty then ([], a) else a.receive raw
  | none => ([], a)

def addTransport (a : Agenda) (channel : Channel Unit) : Nat × Agenda :=
  let number := a.client.transports.length
  (number, { a with client := { a.client with
    transports := Table.put number channel a.client.transports } })

def takeSent (a : Agenda) : List (Nat × String) × Agenda :=
  let transports := a.client.transports
  (transports.flatMap fun (number, channel) => channel.waiting.map (number, ·),
    { a with client := { a.client with
      transports := transports.map fun (number, channel) => (number, { channel with waiting := [] }) } })

def takeReports (a : Agenda) : List (String × Report) × Agenda :=
  (a.reports.reverse, { a with reports := [] })

def keep (a : Agenda) (name : String) (m : Mapping) : Agenda :=
  let client := match Table.get? name a.mappings with
    | some old => a.client.release old
    | none => a.client
  { a with client, mappings := Table.put name m a.mappings }

def discard (a : Agenda) (name : String) (m : Mapping) : Agenda :=
  { a with client := a.client.release m, mappings := Table.erase name a.mappings }

end Agenda

end LanguageClient
