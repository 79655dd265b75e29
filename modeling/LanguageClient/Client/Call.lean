import LanguageClient.Client.Editing
import LanguageClient.Client.Inbound
import LanguageClient.Retry

namespace LanguageClient

inductive AnswerShape
  | any
  | nothing
  | text
  | edits
  deriving DecidableEq, Repr

def AnswerShape.read? : AnswerShape → Json → Option Json
  | any, v => some v
  | nothing, v => if v = .null then some v else none
  | text, v => (Json.string? v).map .string
  | edits, v => (Json.list? TextEdit.read? v).map fun es => .array (es.map TextEdit.toJson)

def AnswerShape.ofOutcome (shape : AnswerShape) : Outcome → Outcome
  | .ok v => match shape.read? v with
    | some v => .ok v
    | none => .error .undecodable
  | .error e => .error e

structure Call where
  method : String
  params : Option Json
  key : Option String
  shape : AnswerShape
  retry : Option RetryPolicy

namespace Client

def isCallCancelled (c : Client) (call : Call) : Bool :=
  call.key.any c.isCancelled

/-- Makes one attempt. A call that may be tried again is not, once its key was cancelled. -/
def attempt (c : Client) (call : Call) : Except ClientError (Nat × Client) :=
  if call.retry.isSome && c.isCallCancelled call then .error .cancelled
  else c.startRequest call.method call.params call.key

def retryDelay? (c : Client) (call : Call) (k : Nat) (e : ClientError) : Option Nat :=
  call.retry.bind fun p => p.nextDelay? k (e.isRecoverable && !c.isCallCancelled call)

def beginShutdown (c : Client) : Except (Except ClientError Unit × Client) (Nat × Client) :=
  if c.phase ≠ .initialized then .error (.ok (), c.disconnect)
  else
    match c.startRequest "shutdown" none none with
    | .error e => .error (.error e, c.disconnect)
    | .ok started => .ok started

structure FlushMark where
  generation : Nat
  count : Nat
  deriving DecidableEq, Repr

def flushMark? (c : Client) : Option FlushMark := do
  let g ← c.attached
  return ⟨g, (← Table.get? g c.lines).pushed.length⟩

def isFlushed (c : Client) (m : FlushMark) : Bool :=
  match Table.get? m.generation c.lines with
  | some l => m.count ≤ l.taken
  | none => true

def afterShutdown (c : Client) (outcome : Outcome) : Except ClientError Unit × Client :=
  match AnswerShape.nothing.ofOutcome outcome with
  | .ok _ => (.ok (), c.notify "exit" none)
  | .error e => (.error e, c)

/-- The end of a mapped request: a mapping that nobody gets is released. -/
def finishMapped (c : Client) (call : Call) (m : Mapping) (outcome : Outcome) : Outcome × Client :=
  match call.shape.ofOutcome outcome with
  | .ok v => (.ok v, c)
  | .error e => (.error e, c.release m)

end Client

end LanguageClient
