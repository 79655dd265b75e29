import LanguageClient.Client.Connection
import LanguageClient.Client.Requests

namespace LanguageClient.Client

def pushIfReady (c : Client) (f : Frame) : Client :=
  if c.isReady then c.push f else c

def openFile (c : Client) (uri languageId text : String) :
    Except WorkspaceError (OpenOutcome × Client) := do
  let (outcome, documents) ← c.documents.openFile uri languageId text
  let c := { c with documents }
  return (outcome,
    match outcome with
    | .opened d => c.pushIfReady (.didOpen uri d)
    | .joined _ => c)

def closeFile (c : Client) (uri : String) : Except WorkspaceError (CloseOutcome × Client) := do
  let (outcome, documents) ← c.documents.closeFile uri
  let c := { c with documents }
  return (outcome,
    match outcome with
    | .closed => c.pushIfReady (.didClose uri)
    | .released _ => c)

def updateFile (c : Client) (uri : String) (edits : List Edit) : Except WorkspaceError Client := do
  return { c with documents := ← c.documents.updateFile uri edits }

def replaceText (c : Client) (uri text : String) : Except WorkspaceError Client := do
  return { c with documents := ← c.documents.replaceText uri text }

def syncKind (c : Client) : SyncKind :=
  c.gate.syncKind.getD .full

def changeFrame (c : Client) (kind : SyncKind) (b : Batch) : Frame :=
  .didChange b (b.contentChanges kind c.settings.fullSyncThreshold)

def sync (c : Client) : Nat × Client :=
  if c.isReady then
    let kind := c.syncKind
    if kind = .off then (0, c)
    else
      let (batches, c) := c.syncDocuments
      (batches.length, c.pushAll (batches.map (c.changeFrame kind)))
  else
    let (batches, c) := c.syncDocuments
    (batches.length, c)

def startMapping (c : Client) : Mapping × Client :=
  let (m, documents) := c.documents.startMapping
  (m, { c with documents })

def release (c : Client) (m : Mapping) : Client :=
  { c with documents := c.documents.release m }

def withMapping {α : Type} (c : Client) (f : Mapping → Client → α × Client) : α × Client :=
  let (m, c) := c.startMapping
  let (x, c) := f m c
  (x, c.release m)

/-- Syncs, takes a mapping and sends a request, all in one step: the answer is about the mapping's
baseline. None if the handshake is not complete. -/
def startMapped (c : Client) (method : String) (params : Option Json) (key : Option String) :
    Option (Except ClientError (Mapping × Nat) × Client) :=
  if c.isReady then
    let c := c.sync.2
    let (m, c) := c.startMapping
    match c.startRequest method params key with
    | .ok (id, c) => some (.ok (m, id), c)
    | .error e => some (.error e, c.release m)
  else none

end LanguageClient.Client
