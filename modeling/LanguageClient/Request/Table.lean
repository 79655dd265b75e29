import LanguageClient.Client.Error
import LanguageClient.Table

/-!
The requests that a client has made, from their ids to their outcomes.

A request is live until it is settled, once, by an answer, an error or its deadline. The deadline is
set when the request is handed to the connection, so one that still waits for a connection cannot run
out of time. Times are nanoseconds. The last few final states are remembered.
-/

namespace LanguageClient

inductive RequestState
  | queued
  | inFlight
  | cancelRequested
  | resolved
  | rejected
  | timedOut
  | cancelled
  deriving DecidableEq, Repr

abbrev Outcome := Except ClientError Json

namespace RequestState

def isSettled : RequestState → Bool
  | resolved | rejected | timedOut | cancelled => true
  | _ => false

def ofOutcome : Outcome → RequestState
  | .ok _ => resolved
  | .error (.timeout _ _) => timedOut
  | .error .cancelled => cancelled
  | .error _ => rejected

end RequestState

structure LiveRequest where
  method : String
  key : Option String
  timeout : Nat
  deadline : Option Nat
  state : RequestState
  deriving DecidableEq, Repr

/-- The order in which a hash map happens to list its keys, whichever that is. An id is never put back into
the map, so the next one and those that are left tell in what state the map is. -/
structure Hashing where
  order : Nat → List Nat → List Nat
  perm : ∀ nextId ids, (order nextId ids).Perm ids

def Hashing.rising : Hashing :=
  ⟨fun _ ids => ids, fun _ ids => .refl ids⟩

structure RequestTable where
  hashing : Hashing
  nextId : Nat
  live : Table Nat LiveRequest
  settled : List (Nat × RequestState)
  handles : Table Nat (Option Outcome)
  called : Bool

namespace RequestTable

def memory : Nat := 256

def empty (hashing : Hashing) : RequestTable := ⟨hashing, 1, [], [], [], false⟩

instance : Inhabited RequestTable := ⟨empty .rising⟩

def size (t : RequestTable) : Nat :=
  t.live.length

def create (t : RequestTable) (method : String) (timeout : Nat) (key : Option String) :
    Nat × RequestTable :=
  (t.nextId,
    { t with
      nextId := t.nextId + 1
      live := Table.put t.nextId ⟨method, key, timeout, none, .queued⟩ t.live
      handles := Table.put t.nextId none t.handles })

def settle (t : RequestTable) (id : Nat) (outcome : Outcome) : RequestTable :=
  if Table.contains id t.live then
    { t with
      live := Table.erase id t.live
      settled := ((id, RequestState.ofOutcome outcome) :: t.settled).take memory
      handles := Table.adjust id (fun _ => some outcome) t.handles }
  else t

def contains (t : RequestTable) (id : Nat) : Bool :=
  Table.contains id t.live

def get? (t : RequestTable) (id : Nat) : Option LiveRequest :=
  Table.get? id t.live

def LiveRequest.dispatched (r : LiveRequest) (now : Nat) : LiveRequest :=
  { r with
    deadline := some (now + r.timeout)
    state := if r.state = .queued then .inFlight else r.state }

/-- A request is handed to the connection: its time begins to run, and the sweeper is called. -/
def dispatch (t : RequestTable) (id now : Nat) : RequestTable :=
  { t with
    live := Table.adjust id (LiveRequest.dispatched · now) t.live
    called := t.called || t.contains id }

def requestCancel (t : RequestTable) (id : Nat) : RequestTable :=
  { t with live := Table.adjust id (fun r => { r with state := .cancelRequested }) t.live }

def scan (t : RequestTable) : List Nat :=
  t.hashing.order t.nextId (Table.keys t.live)

theorem mem_scan {t : RequestTable} {id : Nat} : id ∈ t.scan ↔ id ∈ Table.keys t.live :=
  (t.hashing.perm _ _).mem_iff

def findKey? (t : RequestTable) (key : String) : Option (Nat × RequestState) :=
  t.scan.findSome? fun id =>
    ((t.get? id).filter (·.key == some key)).map fun r => (id, r.state)

def state? (t : RequestTable) (id : Nat) : Option RequestState :=
  match t.get? id with
  | some r => some r.state
  | none => (t.settled.find? (·.1 == id)).map Prod.snd

def deadlines (t : RequestTable) : List Nat :=
  t.live.filterMap (·.2.deadline)

def nextDeadline? (t : RequestTable) : Option Nat :=
  t.deadlines.min?

def isOverdue (now : Nat) (r : LiveRequest) : Bool :=
  r.deadline.any (· ≤ now)

def overdue (t : RequestTable) (now : Nat) : Table Nat LiveRequest :=
  t.live.filter fun (_, r) => isOverdue now r

def sweep (t : RequestTable) (now : Nat) : List Nat × RequestTable :=
  (Table.keys (t.overdue now),
    (t.overdue now).foldl (fun t (id, r) => t.settle id (.error (.timeout r.method r.timeout))) t)

/-- The sweeper's turn: it ends what is overdue, and sleeps until the soonest deadline left or until
it is called. -/
def look (t : RequestTable) (now : Nat) : Option Nat × RequestTable :=
  let t := (t.sweep now).2
  (t.nextDeadline?, { t with called := false })

def rejectExcept (t : RequestTable) (kept : List Nat) : List Nat × RequestTable :=
  let lost := t.scan.filter (!kept.contains ·)
  (lost, lost.foldl (fun t id => t.settle id (.error .notConnected)) t)

def peek? (t : RequestTable) (id : Nat) : Option (Option Outcome) :=
  Table.get? id t.handles

def dropHandle (t : RequestTable) (id : Nat) : RequestTable :=
  { t with handles := Table.erase id t.handles }

/-- The table itself goes away: whoever still waits is told that there is no connection. -/
def abandon (t : RequestTable) : RequestTable :=
  { t with handles := t.handles.map fun (id, o) => (id, some (o.getD (.error .notConnected))) }

end RequestTable

end LanguageClient
