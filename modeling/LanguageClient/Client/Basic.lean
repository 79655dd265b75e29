import LanguageClient.Capability.Gate
import LanguageClient.Client.Frame
import LanguageClient.Request.Table
import LanguageClient.Transport.Channel
import LanguageClient.Workspace.Mapping

/-!
The state of a client, and where its frames go.

A client is attached to at most one transport at a time. Each attachment is a `Line`, numbered by the
generation that began with it; a line keeps every frame that was ever pushed on it, and how many of them
have been written to the transport. Until the handshake is complete, requests and notifications wait in
the queue. The generation changes with every attachment and every teardown, so that whoever waited
meanwhile can tell that the connection is not the one he knew.
-/

namespace LanguageClient

inductive Phase
  | disconnected
  | connecting
  | initialized
  deriving DecidableEq, Repr

structure Line where
  transport : Nat
  subscription : Nat
  pushed : List Frame
  taken : Nat
  deriving DecidableEq, Repr

namespace Line

def push (l : Line) (f : Frame) : Line :=
  { l with pushed := l.pushed ++ [f] }

def waiting (l : Line) : List Frame :=
  l.pushed.drop l.taken

end Line

structure NotificationHandler where
  name : String
  typed : Bool
  deriving DecidableEq, Repr

structure RequestHandler where
  name : String
  delayMs : Nat
  answer : Json → Except ResponseError Json

structure Handlers where
  notifications : Table String NotificationHandler
  requests : Table String RequestHandler
  unhandled : Option String

structure Client where
  settings : Settings
  processId : Nat
  documents : Documents
  requests : RequestTable
  gate : Gate
  phase : Phase
  transports : Table Nat (Channel Unit)
  lines : Table Nat Line
  attached : Option Nat
  ready : Bool
  generation : Nat
  queue : List Frame
  /-- Keys whose request was asked to be cancelled. They stay so. -/
  cancelledKeys : List String
  handlers : Handlers

namespace Client

def new (settings : Settings) (policy : HolderPolicy) (processId : Nat) (hashing : Hashing) : Client where
  settings
  processId
  documents := .new policy
  requests := .empty hashing
  gate := .unknown
  phase := .disconnected
  transports := []
  lines := []
  attached := none
  ready := false
  generation := 0
  queue := []
  cancelledKeys := []
  handlers := ⟨[], [], none⟩

def isReady (c : Client) : Bool :=
  c.attached.isSome && c.ready

def line? (c : Client) : Option Line :=
  c.attached.bind (Table.get? · c.lines)

def push (c : Client) (f : Frame) : Client :=
  match c.attached with
  | some g => { c with lines := Table.adjust g (·.push f) c.lines }
  | none => c

def pushAll (c : Client) (fs : List Frame) : Client :=
  fs.foldl push c

def enqueue (c : Client) (f : Frame) : Client :=
  if c.isReady then c.push f else { c with queue := c.queue ++ [f] }

def queuedIds (c : Client) : List Nat :=
  c.queue.filterMap Frame.requestId?

def isCancelled (c : Client) (key : String) : Bool :=
  c.cancelledKeys.contains key

def reject (c : Client) (id : Nat) (e : ClientError) : Client :=
  { c with requests := c.requests.settle id (.error e) }

def adjustTransport (c : Client) (t : Nat) (f : Channel Unit → Channel Unit) : Client :=
  { c with transports := Table.adjust t f c.transports }

end Client

end LanguageClient
