import LanguageClient.Delta.Compose
import LanguageClient.Workspace.Basic

/-!
The batches that syncs have handed over, kept as long as someone may look back past them.

A scope holds a baseline version for each document. The lowest baseline of a document is its
watermark: batches that apply to earlier versions are dropped when a scope is released, and nothing is
kept of a document that no scope holds.
-/

namespace LanguageClient

structure HistoryEntry where
  version : Nat
  delta : Delta
  deriving DecidableEq, Repr

structure History where
  entries : Table String (List HistoryEntry)
  scopes : Table Nat (Table String Nat)
  marks : Table String (List Nat)
  nextScope : Nat
  deriving DecidableEq, Repr

namespace History

def empty : History := ⟨[], [], [], 0⟩

instance : Inhabited History := ⟨empty⟩

def insertMark (version : Nat) : List Nat → List Nat
  | [] => [version]
  | v :: rest => if version ≤ v then version :: v :: rest else v :: insertMark version rest

def marksOf (h : History) (uri : String) : List Nat :=
  (Table.get? uri h.marks).getD []

def setMarks (h : History) (uri : String) (marks : List Nat) : History :=
  { h with marks := if marks.isEmpty then Table.erase uri h.marks else Table.put uri marks h.marks }

def watermark (h : History) (uri : String) : Option Nat :=
  (h.marksOf uri).head?

def entriesOf (h : History) (uri : String) : List HistoryEntry :=
  (Table.get? uri h.entries).getD []

def retained (h : History) (uri : String) : Nat :=
  (h.entriesOf uri).length

def liveScopes (h : History) : Nat :=
  h.scopes.length

def mark (h : History) (uri : String) (version : Nat) : History :=
  h.setMarks uri (insertMark version (h.marksOf uri))

def openScope (h : History) (baseline : Table String Nat) : Nat × History :=
  let h' := baseline.foldl (fun h e => h.mark e.1 e.2) h
  (h.nextScope,
    { h' with scopes := Table.put h.nextScope baseline h.scopes, nextScope := h.nextScope + 1 })

def trim (h : History) (uri : String) : History :=
  match h.watermark uri with
  | some low =>
    { h with entries := Table.adjust uri (·.dropWhile (·.version < low)) h.entries }
  | none => { h with entries := Table.erase uri h.entries }

def unmark (h : History) (uri : String) (version : Nat) : History :=
  (h.setMarks uri ((h.marksOf uri).erase version)).trim uri

/-- Releasing a scope twice is releasing it once. -/
def releaseScope (h : History) (id : Nat) : History :=
  match Table.get? id h.scopes with
  | none => h
  | some baseline =>
    baseline.foldl (fun h e => h.unmark e.1 e.2) { h with scopes := Table.erase id h.scopes }

def record (h : History) (uri : String) (version : Nat) (delta : Delta) : History :=
  match h.watermark uri with
  | some low =>
    if low ≤ version then
      { h with entries := Table.put uri (h.entriesOf uri ++ [⟨version, delta⟩]) h.entries }
    else h
  | none => h

def recordBatch (h : History) (b : Batch) : Except WorkspaceError History :=
  if (h.watermark b.uri).isNone then .ok h
  else
    match Delta.ofEdits (Text.size b.previousText) b.edits with
    | .ok d => .ok (h.record b.uri b.previousVersion d)
    | .error fault => .error (.delta fault)

/-- A batch that cannot be kept makes the rest of its document's history useless. -/
def recordOrForget (h : History) (b : Batch) : History :=
  match h.recordBatch b with
  | .ok h' => h'
  | .error _ => { h with entries := Table.erase b.uri h.entries }

def forget (h : History) (uri : String) : History :=
  { h with entries := Table.erase uri h.entries }

def chainFrom (gone : WorkspaceError) (goal : Nat) :
    Delta → Nat → List HistoryEntry → Except WorkspaceError Delta
  | _, _, [] => .error gone
  | sofar, version, e :: rest =>
    if e.version = version then
      match sofar.compose e.delta with
      | .error fault => .error (.delta fault)
      | .ok d => if version + 1 = goal then .ok d else chainFrom gone goal d (version + 1) rest
    else .error gone

/-- What led a document of `length` bytes from version `start` to version `goal`. -/
def chain (h : History) (uri : String) (start goal length : Nat) : Except WorkspaceError Delta :=
  let gone := WorkspaceError.historyGone uri start
  if goal < start then .error gone
  else if start = goal then .ok (Delta.identity length)
  else
    chainFrom gone goal (Delta.identity length) start
      ((h.entriesOf uri).dropWhile (·.version < start))

end History

end LanguageClient
