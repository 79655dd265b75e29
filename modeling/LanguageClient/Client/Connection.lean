import LanguageClient.Client.Basic

namespace LanguageClient.Client

def teardown (c : Client) : Client :=
  let c := { c with ready := false, generation := c.generation + 1, gate := c.gate.clear }
  match c.line? with
  | none => { c with attached := none }
  | some l =>
    let c := c.adjustTransport l.transport (·.unsubscribe l.subscription)
    { c with attached := none, requests := (c.requests.rejectExcept c.queuedIds).2 }

def disconnect (c : Client) : Client :=
  { c.teardown with phase := .disconnected }

/-- Lets go of the connection of a generation, unless another has taken its place. -/
def detach (c : Client) (generation : Nat) : Client :=
  if c.generation = generation then c.disconnect else c

def attach (c : Client) (transport : Nat) : Client :=
  let c := c.teardown
  let channel := (Table.get? transport c.transports).getD .new
  let (subscription, channel) := channel.subscribe ()
  { c with
    transports := Table.put transport channel c.transports
    lines := Table.put c.generation ⟨transport, subscription, [], 0⟩ c.lines
    attached := some c.generation
    phase := .connecting }

def beginConnect (c : Client) (transport : Nat) : Nat × Nat × Client :=
  let params := (InitializeParams.ofSettings c.settings c.processId).toJson
  let c := c.attach transport
  let (id, requests) :=
    c.requests.create "initialize" (c.settings.timeoutFor "initialize") none
  let c := { c with requests }
  (c.generation, id, c.push (.request id "initialize" (some params)))

def syncDocuments (c : Client) : List Batch × Client :=
  let (batches, documents) := c.documents.sync
  (batches, { c with documents })

def openFrames (c : Client) : List Frame :=
  c.documents.workspace.files.map fun (uri, d) => Frame.didOpen uri d

def completeHandshake (c : Client) (generation : Nat) : Except ClientError Client :=
  if c.generation ≠ generation ∨ c.attached.isNone then .error .notConnected
  else
    let c := (c.push Frame.initialized).syncDocuments.2
    let c := (c.pushAll c.openFrames).pushAll c.queue
    .ok { c with queue := [], ready := true, phase := .initialized }

def finishConnect (c : Client) (generation : Nat) (outcome : Outcome) :
    Except ClientError InitializeResult × Client :=
  match outcome with
  | .error e => (.error e, c.detach generation)
  | .ok v =>
    match InitializeResult.read? v with
    | none => (.error .undecodable, c.detach generation)
    | some result =>
      let c := { c with gate := c.gate.set result.capabilities }
      match c.completeHandshake generation with
      | .ok c => (.ok result, c)
      | .error e => (.error e, c.detach generation)

def drop (c : Client) : Client :=
  let c := match c.line? with
    | some l => c.adjustTransport l.transport (·.unsubscribe l.subscription)
    | none => c
  { c with attached := none, requests := c.requests.abandon }

end LanguageClient.Client
