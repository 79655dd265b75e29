import LanguageClient.Client.Basic

/-!
Requests and notifications, from the caller to the transport.

A request is refused if the server is known not to answer it. A request that never left the queue is
cancelled on the spot; otherwise the server is told once, and the request stays live until something
settles it. The writer takes the frames of a line in order and passes over requests that were settled
before they were written; a request's time runs from the moment it is written.
-/

namespace LanguageClient.Client

def refuses (c : Client) (method : String) : Bool :=
  c.settings.enforceCapabilities && c.gate.supportsMethod method == some false

def startRequest (c : Client) (method : String) (params : Option Json) (key : Option String) :
    Except ClientError (Nat × Client) :=
  if c.refuses method then .error (.unsupported method)
  else
    let (id, requests) := c.requests.create method (c.settings.timeoutFor method) key
    .ok (id, { c with requests }.enqueue (.request id method params))

def notify (c : Client) (method : String) (params : Option Json) : Client :=
  c.enqueue (.notification method params)

def isQueued (c : Client) (id : Nat) : Bool :=
  c.queuedIds.contains id

def unqueue (c : Client) (id : Nat) : Client :=
  { c with queue := c.queue.filter fun f => f.requestId? != some id }

def cancel (c : Client) (key : String) : Bool × Client :=
  let c := { c with cancelledKeys := if c.isCancelled key then c.cancelledKeys
                                     else key :: c.cancelledKeys }
  match c.requests.findKey? key with
  | none => (false, c)
  | some (id, state) =>
    if state = .queued ∧ c.isQueued id then (true, (c.unqueue id).reject id .cancelled)
    else if state = .cancelRequested then (true, c)
    else
      (true, { c with requests := c.requests.requestCancel id }.enqueue (.cancelRequest id))

def transmit (c : Client) (l : Line) (text : String) : Except SendFault Client :=
  match Table.get? l.transport c.transports with
  | none => .error .endDropped
  | some channel => do
    return { c with transports := Table.put l.transport (← channel.send text) c.transports }

def writeFrame (c : Client) (now : Nat) (l : Line) (f : Frame) : Client :=
  match f with
  | .request id _ _ =>
    if c.requests.contains id then
      let c := { c with requests := c.requests.dispatch id now }
      match c.transmit l f.text with
      | .ok c => c
      | .error fault => c.reject id (.transport fault.message)
    else c
  | _ =>
    match c.transmit l f.text with
    | .ok c => c
    | .error _ => c

def write? (c : Client) (now : Nat) : Option Client := do
  let g ← c.attached
  let l ← Table.get? g c.lines
  let f ← l.waiting.head?
  return writeFrame { c with lines := Table.put g { l with taken := l.taken + 1 } c.lines } now l f

def sweep (c : Client) (now : Nat) : Option Nat × Client :=
  let (alarm, requests) := c.requests.look now
  (alarm, { c with requests })

def outcome? (c : Client) (id : Nat) : Option Outcome :=
  (c.requests.peek? id).bind fun o => o

def forget (c : Client) (id : Nat) : Client :=
  { c with requests := c.requests.dropHandle id }

end LanguageClient.Client
