import LanguageClient.Client.Basic
import LanguageClient.Text.Blank

/-!
What comes from the server.

Answers settle requests. Notifications go to the handler for their method, then to those built in, then
to the one for everything else. Requests are answered at once, also before the handshake is complete,
or by a handler when it is done; an answer goes to whatever connection there is then.
-/

namespace LanguageClient

inductive LogLevel
  | error
  | warning
  | info
  | debug
  deriving DecidableEq, Repr

def Severity.level : Severity → LogLevel
  | error => .error
  | warning => .warning
  | info => .info
  | log | debug => .debug

inductive Notice
  | heard (handler : NotificationHandler) (params : Json)
  | unhandled (handler method : String) (params : Json)
  | asked (handler : String) (params : Json)
  | logged (level : LogLevel) (text : String)
  deriving DecidableEq, Repr

structure Question where
  id : RequestId
  delayMs : Nat
  answer : Except ResponseError Json

namespace Client

def handlerFault? (method : String) (taken : Bool) : Option ClientError :=
  if Text.trim method.toList = [] then some (.handlerConflict "method name must not be empty")
  else if taken then
    some (.handlerConflict s!"a handler for {method} is already registered")
  else none

def onNotification (c : Client) (method : String) (h : NotificationHandler) :
    Except ClientError Client :=
  match handlerFault? method (Table.contains method c.handlers.notifications) with
  | some e => .error e
  | none =>
    .ok { c with handlers := { c.handlers with
            notifications := Table.put method h c.handlers.notifications } }

def removeNotificationHandler (c : Client) (method : String) : Bool × Client :=
  (Table.contains method c.handlers.notifications,
    { c with handlers := { c.handlers with
        notifications := Table.erase method c.handlers.notifications } })

def onRequest (c : Client) (method : String) (h : RequestHandler) : Except ClientError Client :=
  match handlerFault? method (Table.contains method c.handlers.requests) with
  | some e => .error e
  | none =>
    .ok { c with handlers := { c.handlers with
            requests := Table.put method h c.handlers.requests } }

def onUnhandled (c : Client) (name : String) : Client :=
  { c with handlers := { c.handlers with unhandled := some name } }

/-- An answer goes past the queue; without a connection it is lost. -/
def respond (c : Client) (id : RequestId) (answer : Except ResponseError Json) : Client :=
  c.push (.response (match answer with
    | .ok v => .success id v
    | .error e => .failure id e))

def receiveResponse (c : Client) (r : Response) : Client :=
  match r.id.bind RequestId.number? with
  | none => c
  | some id =>
    let outcome : Outcome := r.outcome.mapError ClientError.ofResponse
    { c with requests := c.requests.settle id outcome }

def serverMessage (kind : String) (params : Json) : List Notice :=
  match MessageParams.read? params with
  | some p => [.logged p.severity.level s!"LSP {kind}: {p.message}"]
  | none => []

def receiveNotification (c : Client) (n : Notification) : List Notice :=
  let params := n.params.getD .null
  match Table.get? n.method c.handlers.notifications with
  | some h =>
    if h.typed then
      match MessageParams.read? params with
      | some p => [.heard h p.toJson]
      | none => []
    else [.heard h params]
  | none =>
    match n.method with
    | "window/logMessage" => serverMessage "log" params
    | "window/showMessage" => serverMessage "message" params
    | method => (c.handlers.unhandled.map fun h => Notice.unhandled h method params).toList

def malformed : ResponseError :=
  .new ErrorCode.invalidParams "malformed params"

def answerRequest (c : Client) (method : String) (params : Json) :
    Except ResponseError Json × Client :=
  match method with
  | "client/registerCapability" =>
    match RegistrationParams.read? params with
    | some p => (.ok .null, { c with gate := c.gate.register p.registrations })
    | none => (.error malformed, c)
  | "client/unregisterCapability" =>
    match UnregistrationParams.read? params with
    | some p => (.ok .null, { c with gate := c.gate.unregister p.unregistrations })
    | none => (.error malformed, c)
  | "window/workDoneProgress/create" => (.ok .null, c)
  | "workspace/configuration" =>
    let count := match params.get? "items" with
      | some (.array items) => items.length
      | _ => 0
    (.ok (.array (List.replicate count .null)), c)
  | method => (.error (.methodNotFound method), c)

def receiveRequest (c : Client) (r : Request) : List Notice × Option Question × Client :=
  let params := r.params.getD .null
  match Table.get? r.method c.handlers.requests with
  | some h => ([.asked h.name params], some ⟨r.id, h.delayMs, h.answer params⟩, c)
  | none =>
    let (answer, c) := c.answerRequest r.method params
    ([], none, c.respond r.id answer)

def receive (c : Client) (raw : String) : List Notice × Option Question × Client :=
  match Message.ofText? raw with
  | some (.response r) => ([], none, c.receiveResponse r)
  | some (.notification n) => (c.receiveNotification n, none, c)
  | some (.request r) => c.receiveRequest r
  | none => ([], none, c)

end Client

end LanguageClient
