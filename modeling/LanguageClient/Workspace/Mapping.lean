import LanguageClient.Delta.Track
import LanguageClient.Workspace.History

/-!
Looking from an earlier state of the documents to their present text.

A mapping remembers the synced version and text of every document that was open when it was made. Each
question composes what was synced since with what is still pending. A document that was closed in
between has no answer, even if it was opened again.
-/

namespace LanguageClient

structure Baseline where
  id : Nat
  version : Nat
  text : String
  deriving DecidableEq, Repr

structure Mapping where
  scope : Nat
  baseline : Table String Baseline
  deriving DecidableEq, Repr, Inhabited

structure Documents where
  workspace : Workspace
  history : History
  deriving DecidableEq, Repr, Inhabited

namespace Documents

def new (policy : HolderPolicy) : Documents :=
  ⟨.new policy, .empty⟩

def openFile (s : Documents) (uri languageId text : String) :
    Except WorkspaceError (OpenOutcome × Documents) := do
  let (outcome, w) ← s.workspace.openFile uri languageId text
  return (outcome, { s with workspace := w })

/-- The history of a document ends with its last holder. -/
def closeFile (s : Documents) (uri : String) : Except WorkspaceError (CloseOutcome × Documents) := do
  let (outcome, w) ← s.workspace.closeFile uri
  let h := match outcome with
    | .closed => s.history.forget uri
    | .released _ => s.history
  return (outcome, ⟨w, h⟩)

def updateFile (s : Documents) (uri : String) (edits : List Edit) :
    Except WorkspaceError Documents := do
  return { s with workspace := ← s.workspace.updateFile uri edits }

def replaceText (s : Documents) (uri text : String) : Except WorkspaceError Documents := do
  return { s with workspace := ← s.workspace.replaceText uri text }

def sync (s : Documents) : List Batch × Documents :=
  let (batches, w) := s.workspace.sync
  (batches, ⟨w, batches.foldl History.recordOrForget s.history⟩)

def startMapping (s : Documents) : Mapping × Documents :=
  let baseline := s.workspace.documents.map fun (uri, d) =>
    (uri, (⟨d.id, d.version, d.syncedText⟩ : Baseline))
  let (scope, h) := s.history.openScope (baseline.map fun (uri, b) => (uri, b.version))
  (⟨scope, baseline⟩, { s with history := h })

def release (s : Documents) (m : Mapping) : Documents :=
  { s with history := s.history.releaseScope m.scope }

end Documents

def Delta.trackRange (d : Delta) (start stop : Nat) : Option (Nat × Nat) := do
  if d.touches start stop then none
  else
    let start' ← d.track start .after
    let stop' ← d.track stop .before
    return (start', max start' stop')

namespace Mapping

def base (m : Mapping) (uri : String) : Except WorkspaceError Baseline :=
  match Table.get? uri m.baseline with
  | some b => .ok b
  | none => .error (.unknownDocument uri)

def changes (m : Mapping) (s : Documents) (uri : String) : Except WorkspaceError Delta := do
  let b ← m.base uri
  let d ←
    match s.workspace.get? uri with
    | some d => if d.id = b.id then pure d else throw (.documentClosed uri)
    | none => throw (.documentClosed uri)
  let synced ← s.history.chain uri b.version d.version (Text.size b.text)
  match Delta.ofEdits (Text.size d.syncedText) d.pending with
  | .error fault => throw (.delta fault)
  | .ok live =>
    match synced.compose live with
    | .error fault => throw (.delta fault)
    | .ok all => return all

def mapOffset (m : Mapping) (s : Documents) (uri : String) (offset : Nat) (bias : Bias) :
    Except WorkspaceError (Option Nat) := do
  let length := Text.size (← m.base uri).text
  if length < offset then throw (.outOfRange uri offset length)
  return (← m.changes s uri).track offset bias

def mapPosition (m : Mapping) (s : Documents) (uri : String) (p : Position) (bias : Bias) :
    Except WorkspaceError (Option Nat) := do
  m.mapOffset s uri (Text.offsetAt (← m.base uri).text p) bias

def touches (m : Mapping) (s : Documents) (uri : String) (start stop : Nat) :
    Except WorkspaceError Bool := do
  return (← m.changes s uri).touches start stop

def mapRange (m : Mapping) (s : Documents) (uri : String) (start stop : Nat) :
    Except WorkspaceError (Option (Nat × Nat)) := do
  let length := Text.size (← m.base uri).text
  if stop < start ∨ length < stop then throw (.outOfRange uri (max start stop) length)
  return (← m.changes s uri).trackRange start stop

def backToFront (a b : Edit) : Bool :=
  b.start < a.start || (b.start == a.start && b.stop ≤ a.stop)

/-- A server's edit of the baseline as an edit of the present text; none if its range was touched. -/
def rebase (uri text : String) (d : Delta) (e : TextEdit) : Except WorkspaceError (Option Edit) :=
  let start := Text.offsetAt text e.range.start
  let stop := Text.offsetAt text e.range.stop
  if stop < start then .error (.invalidEdit uri (Edit.Refusal.inverted start stop).message)
  else .ok ((d.trackRange start stop).map fun r => ⟨r.1, r.2, e.newText⟩)

def mapEdits (m : Mapping) (s : Documents) (uri : String) (edits : List TextEdit) :
    Except WorkspaceError (List Edit) := do
  let text := (← m.base uri).text
  let d ← m.changes s uri
  let rebased ← edits.mapM (rebase uri text d)
  return (rebased.filterMap id).mergeSort backToFront

end Mapping

end LanguageClient
