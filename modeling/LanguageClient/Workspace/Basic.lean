import LanguageClient.Table
import LanguageClient.Workspace.Error

/-!
The documents that are open, and what was done to them since the server last heard.

A document's edits wait in `pending` until a sync hands them over as one batch and raises the version.
Every opening gets an id of its own, so that a document closed and opened again can be told from one
that stayed open. A batch of edits is taken whole or not at all.
-/

namespace LanguageClient

/-- How many may hold one document: a second holder is refused, or counted. -/
inductive HolderPolicy
  | exclusive
  | shared
  deriving DecidableEq, Repr, Inhabited

structure Document where
  id : Nat
  languageId : String
  version : Nat
  text : String
  /-- The text as of `version`; the pending edits turn it into `text`. -/
  syncedText : String
  pending : List Edit
  holders : Nat
  deriving DecidableEq, Repr

structure Batch where
  id : Nat
  uri : String
  previousVersion : Nat
  version : Nat
  previousText : String
  text : String
  edits : List Edit
  deriving DecidableEq, Repr

inductive OpenOutcome
  | opened (document : Document)
  | joined (holders : Nat)
  deriving DecidableEq, Repr

inductive CloseOutcome
  | closed
  | released (remaining : Nat)
  deriving DecidableEq, Repr

namespace Document

def fresh (id : Nat) (languageId text : String) : Document :=
  { id, languageId, version := 0, text, syncedText := text, pending := [], holders := 1 }

def hasPending (d : Document) : Bool :=
  !d.pending.isEmpty

/-- Edits that do nothing are left out; the first one refused refuses them all. -/
def edit (d : Document) (edits : List Edit) : Except Edit.Refusal Document := do
  let real := edits.filter (!·.isEmpty)
  let text ← Edit.applyAll real d.text
  return { d with text, pending := d.pending ++ real }

def batch (uri : String) (d : Document) : Batch :=
  { id := d.id, uri, previousVersion := d.version, version := d.version + 1
    previousText := d.syncedText, text := d.text, edits := d.pending }

def synced (d : Document) : Document :=
  if d.hasPending then { d with version := d.version + 1, syncedText := d.text, pending := [] }
  else d

end Document

structure Workspace where
  policy : HolderPolicy
  documents : Table String Document
  nextId : Nat
  deriving DecidableEq, Repr

namespace Workspace

def new (policy : HolderPolicy) : Workspace :=
  ⟨policy, [], 1⟩

instance : Inhabited Workspace := ⟨new .exclusive⟩

def get? (w : Workspace) (uri : String) : Option Document :=
  Table.get? uri w.documents

def files (w : Workspace) : List (String × Document) :=
  w.documents

def put (w : Workspace) (uri : String) (d : Document) : Workspace :=
  { w with documents := Table.put uri d w.documents }

def openFile (w : Workspace) (uri languageId text : String) :
    Except WorkspaceError (OpenOutcome × Workspace) :=
  match w.get? uri with
  | some d =>
    match w.policy with
    | .exclusive => .error (.alreadyOpen uri)
    | .shared => .ok (.joined (d.holders + 1), w.put uri { d with holders := d.holders + 1 })
  | none =>
    let d := Document.fresh w.nextId languageId text
    .ok (.opened d, { w.put uri d with nextId := w.nextId + 1 })

def closeFile (w : Workspace) (uri : String) : Except WorkspaceError (CloseOutcome × Workspace) :=
  match w.get? uri with
  | none => .error (.notOpen uri)
  | some d =>
    if d.holders ≤ 1 then .ok (.closed, { w with documents := Table.erase uri w.documents })
    else .ok (.released (d.holders - 1), w.put uri { d with holders := d.holders - 1 })

def updateFile (w : Workspace) (uri : String) (edits : List Edit) :
    Except WorkspaceError Workspace :=
  match w.get? uri with
  | none => .error (.notOpen uri)
  | some d =>
    match d.edit edits with
    | .error refusal => .error (.invalidEdit uri refusal.message)
    | .ok d' => .ok (w.put uri d')

def replaceText (w : Workspace) (uri text : String) : Except WorkspaceError Workspace :=
  match w.get? uri with
  | none => .error (.notOpen uri)
  | some d => w.updateFile uri [⟨0, Text.size d.text, text⟩]

def sync (w : Workspace) : List Batch × Workspace :=
  ((w.documents.filter (·.2.hasPending)).map fun (uri, d) => d.batch uri,
    { w with documents := w.documents.map fun (uri, d) => (uri, d.synced) })

end Workspace

def showDocument (host : Option (String → Bool)) (uri : String) : Bool :=
  host.any (· uri)

end LanguageClient
