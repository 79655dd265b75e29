import LanguageClient.Client.Call
import LanguageClient.Proofs.Workspace.Documents

namespace LanguageClient

inductive Channel.Event
  | close
  | refuse (on : Bool)
  | dropServer
  | take

def Channel.happen {α : Type} (c : Channel α) : Channel.Event → Channel α
  | .close => c.close
  | .refuse on => c.refuse on
  | .dropServer => c.dropServer
  | .take => match c.take? with
    | some (_, c') => c'
    | none => c

namespace Client

inductive Act
  | openFile (uri languageId text : String)
  | openBehind (uri languageId text : String)
  | closeFile (uri : String)
  | updateFile (uri : String) (edits : List Edit)
  | replaceText (uri text : String)
  | sync
  | startMapping
  | release (m : Mapping)
  | startMapped (method : String) (params : Option Json) (key : Option String)
  | finishMapped (call : Call) (m : Mapping) (outcome : Outcome)
  | beginConnect (transport : Nat)
  | finishConnect (generation : Nat) (outcome : Outcome)
  | disconnect
  | beginShutdown
  | afterShutdown (outcome : Outcome)
  | request (method : String) (params : Option Json) (key : Option String)
  | notify (method : String) (params : Option Json)
  | cancel (key : String)
  | forget (id : Nat)
  | write (now : Nat)
  | sweep (now : Nat)
  | receive (raw : String)
  | respond (id : RequestId) (answer : Except ResponseError Json)
  | onNotification (method : String) (h : NotificationHandler)
  | removeNotificationHandler (method : String)
  | onRequest (method : String) (h : RequestHandler)
  | onUnhandled (name : String)
  | addTransport (transport : Nat)
  | happen (transport : Nat) (event : Channel.Event)

def after {ε α : Type} (c : Client) : Except ε (α × Client) → Client
  | .ok (_, c') => c'
  | .error _ => c

def act (c : Client) : Act → Client
  | .openFile uri languageId text => c.after (c.openFile uri languageId text)
  | .openBehind uri languageId text =>
    match c.documents.openFile uri languageId text with
    | .ok (_, documents) => { c with documents }
    | .error _ => c
  | .closeFile uri => c.after (c.closeFile uri)
  | .updateFile uri edits => c.after ((c.updateFile uri edits).map ((), ·))
  | .replaceText uri text => c.after ((c.replaceText uri text).map ((), ·))
  | .sync => c.sync.2
  | .startMapping => c.startMapping.2
  | .release m => c.release m
  | .startMapped method params key =>
    match c.startMapped method params key with
    | some (_, c') => c'
    | none => c
  | .finishMapped call m outcome => (c.finishMapped call m outcome).2
  | .beginConnect transport => (c.beginConnect transport).2.2
  | .finishConnect generation outcome => (c.finishConnect generation outcome).2
  | .disconnect => c.disconnect
  | .beginShutdown =>
    match c.beginShutdown with
    | .ok (_, c') => c'
    | .error (_, c') => c'
  | .afterShutdown outcome => (c.afterShutdown outcome).2
  | .request method params key => c.after (c.startRequest method params key)
  | .notify method params => c.notify method params
  | .cancel key => (c.cancel key).2
  | .forget id => c.forget id
  | .write now => (c.write? now).getD c
  | .sweep now => (c.sweep now).2
  | .receive raw => (c.receive raw).2.2
  | .respond id answer => c.respond id answer
  | .onNotification method h => c.after ((c.onNotification method h).map ((), ·))
  | .removeNotificationHandler method => (c.removeNotificationHandler method).2
  | .onRequest method h => c.after ((c.onRequest method h).map ((), ·))
  | .onUnhandled name => c.onUnhandled name
  | .addTransport transport =>
    { c with transports := Table.put transport Channel.new c.transports }
  | .happen transport event => c.adjustTransport transport (·.happen event)

def run (c : Client) (acts : List Act) : Client :=
  acts.foldl act c

theorem run_append (c : Client) (acts more : List Act) :
    c.run (acts ++ more) = (c.run acts).run more :=
  List.foldl_append

def mapping? (c : Client) : Act → Option Mapping
  | .startMapping => some c.startMapping.1
  | .startMapped method params key =>
    match c.startMapped method params key with
    | some (.ok (m, _), _) => some m
    | _ => none
  | _ => none

/-- The scope that an act releases: the caller's own call, or the end of a mapped request that failed. -/
def Act.released? : Act → Option Nat
  | .release m => some m.scope
  | .finishMapped call m outcome =>
    match call.shape.ofOutcome outcome with
    | .ok _ => none
    | .error _ => some m.scope
  | _ => none

def closes (c : Client) (uri : String) : Act → Bool
  | .closeFile uri' =>
    uri' = uri && match c.closeFile uri with
      | .ok (.closed, _) => true
      | _ => false
  | _ => false

def edits (c : Client) (uri : String) : Act → List Edit
  | .updateFile uri' edits =>
    if uri' = uri ∧ (c.updateFile uri edits).toBool then edits.filter (!·.isEmpty) else []
  | .replaceText uri' text =>
    if uri' = uri ∧ (c.replaceText uri text).toBool then
      (c.documents.get? uri).toList.flatMap fun d =>
        [⟨0, Text.size d.text, text⟩].filter (!·.isEmpty)
    else []
  | _ => []

def closesIn (uri : String) : List Act → Client → Bool
  | [], _ => false
  | a :: rest, c => c.closes uri a || closesIn uri rest (c.act a)

def editsIn (uri : String) : List Act → Client → List Edit
  | [], _ => []
  | a :: rest, c => c.edits uri a ++ editsIn uri rest (c.act a)

section Calls

variable {c c' : Client}

theorem act_write {now : Nat} (hwrite : c.write? now = some c') : c.act (.write now) = c' := by
  rw [act, hwrite, Option.getD_some]

theorem act_beginShutdown_of_error {refused : Except ClientError Unit × Client}
    (hbegin : c.beginShutdown = .error refused) : c.act .beginShutdown = refused.2 := by
  rw [act, hbegin]

theorem act_beginShutdown_of_ok {started : Nat × Client} (hbegin : c.beginShutdown = .ok started) :
    c.act .beginShutdown = started.2 := by
  rw [act, hbegin]

theorem act_startMapped {method : String} {params : Option Json} {key : Option String}
    {result : Except ClientError (Mapping × Nat)}
    (hstart : c.startMapped method params key = some (result, c')) :
    c.act (.startMapped method params key) = c' := by
  rw [act, hstart]

theorem startRequest_of_attempt {call : Call} {started : Nat × Client}
    (hattempt : c.attempt call = .ok started) :
    c.startRequest call.method call.params call.key = .ok started := by
  rw [attempt] at hattempt
  split at hattempt
  next => cases hattempt
  next => exact hattempt

theorem act_request_of_attempt {call : Call} {started : Nat × Client}
    (hattempt : c.attempt call = .ok started) :
    c.act (.request call.method call.params call.key) = started.2 := by
  rw [act, startRequest_of_attempt hattempt, after]

end Calls

end Client

end LanguageClient
