import LanguageClient.Json.Record

namespace LanguageClient

open Json (Field record? natural? string? any? list?)

structure Identity where
  name : String
  version : Option String
  deriving DecidableEq, Repr

namespace Identity

def read? (v : Json) : Option Identity := do
  let r ← record? ["name", "version"] v
  return ⟨← r.need "name" string?, ← r.optional "version" string?⟩

def toJson (i : Identity) : Json :=
  .ofPresent [("name", some (.string i.name)), ("version", i.version.map .string)]

end Identity

structure WorkspaceFolder where
  uri : String
  name : String
  deriving DecidableEq, Repr

namespace WorkspaceFolder

def read? (v : Json) : Option WorkspaceFolder := do
  let r ← record? ["uri", "name"] v
  return ⟨← r.need "uri" string?, ← r.need "name" string?⟩

def toJson (f : WorkspaceFolder) : Json :=
  .ofFields [("uri", .string f.uri), ("name", .string f.name)]

end WorkspaceFolder

structure DocumentCapabilities where
  synchronization : Option Json
  completion : Option Json
  hover : Option Json
  signatureHelp : Option Json
  formatting : Option Json
  rangeFormatting : Option Json
  rename : Option Json
  publishDiagnostics : Option Json
  deriving DecidableEq, Repr

namespace DocumentCapabilities

def fieldNames : List Field :=
  ["synchronization", "completion", "hover", "signatureHelp", "formatting", "rangeFormatting",
    "rename", "publishDiagnostics"]

def read? (v : Json) : Option DocumentCapabilities := do
  let r ← record? fieldNames v
  return ⟨← r.optional "synchronization" any?, ← r.optional "completion" any?,
    ← r.optional "hover" any?, ← r.optional "signatureHelp" any?,
    ← r.optional "formatting" any?, ← r.optional "rangeFormatting" any?,
    ← r.optional "rename" any?, ← r.optional "publishDiagnostics" any?⟩

def toJson (c : DocumentCapabilities) : Json :=
  .ofPresent [("synchronization", c.synchronization), ("completion", c.completion),
    ("hover", c.hover), ("signatureHelp", c.signatureHelp), ("formatting", c.formatting),
    ("rangeFormatting", c.rangeFormatting), ("rename", c.rename),
    ("publishDiagnostics", c.publishDiagnostics)]

end DocumentCapabilities

structure ClientCapabilities where
  general : Option Json
  window : Option Json
  textDocument : Option DocumentCapabilities
  workspace : Option Json
  deriving DecidableEq, Repr

namespace ClientCapabilities

def read? (v : Json) : Option ClientCapabilities := do
  let r ← record? ["general", "window", "textDocument", "workspace"] v
  return ⟨← r.optional "general" any?, ← r.optional "window" any?,
    ← r.optional "textDocument" DocumentCapabilities.read?, ← r.optional "workspace" any?⟩

def toJson (c : ClientCapabilities) : Json :=
  .ofPresent [("general", c.general), ("window", c.window),
    ("textDocument", c.textDocument.map DocumentCapabilities.toJson), ("workspace", c.workspace)]

end ClientCapabilities

structure InitializeParams where
  processId : Option Nat
  rootUri : Option String
  workspaceFolders : Option (List WorkspaceFolder)
  capabilities : ClientCapabilities
  clientInfo : Option Identity
  options : Option Json
  deriving DecidableEq, Repr

namespace InitializeParams

def fieldNames : List Field :=
  ["processId", "rootUri", "workspaceFolders", "capabilities", "clientInfo",
    "initializationOptions"]

def read? (v : Json) : Option InitializeParams := do
  let r ← record? fieldNames v
  return ⟨← r.optional "processId" (natural? word32), ← r.optional "rootUri" string?,
    ← r.optional "workspaceFolders" (list? WorkspaceFolder.read?),
    ← r.need "capabilities" ClientCapabilities.read?, ← r.optional "clientInfo" Identity.read?,
    ← r.optional "initializationOptions" any?⟩

def toJson (p : InitializeParams) : Json :=
  .ofPresent [("processId", some (p.processId.elim .null .ofNat)),
    ("rootUri", some (p.rootUri.elim .null .string)),
    ("workspaceFolders", p.workspaceFolders.map fun fs => .array (fs.map WorkspaceFolder.toJson)),
    ("capabilities", some p.capabilities.toJson), ("clientInfo", p.clientInfo.map Identity.toJson),
    ("initializationOptions", p.options)]

end InitializeParams

inductive SyncKind
  | off
  | full
  | incremental
  deriving DecidableEq, Repr, Inhabited

namespace SyncKind

def code : SyncKind → Nat
  | off => 0
  | full => 1
  | incremental => 2

def read? (v : Json) : Option SyncKind :=
  match natural? word8 v with
  | some 0 => some off
  | some 1 => some full
  | some 2 => some incremental
  | _ => none

def toJson (k : SyncKind) : Json :=
  .ofNat k.code

end SyncKind

structure ServerCapabilities where
  fields : List (String × Json)
  deriving DecidableEq, Repr, Inhabited

namespace ServerCapabilities

def read? : Json → Option ServerCapabilities
  | .object fields => some ⟨fields⟩
  | _ => none

def toJson (c : ServerCapabilities) : Json :=
  .object c.fields

def get? (c : ServerCapabilities) (path : String) : Option Json :=
  (path.splitOn ".").foldlM (fun v key => v.get? key) c.toJson

/-- The way to send changes. A server that does not say wants none. -/
def syncKind (c : ServerCapabilities) : SyncKind :=
  let declared :=
    match Table.get? "textDocumentSync" c.fields with
    | some (.object options) => Table.get? "change" options
    | other => other
  (declared.bind SyncKind.read?).getD .off

end ServerCapabilities

structure InitializeResult where
  capabilities : ServerCapabilities
  serverInfo : Option Identity
  deriving DecidableEq, Repr

namespace InitializeResult

def read? (v : Json) : Option InitializeResult := do
  let r ← record? ["capabilities", "serverInfo"] v
  return ⟨← r.need "capabilities" ServerCapabilities.read?,
    ← r.optional "serverInfo" Identity.read?⟩

def toJson (w : InitializeResult) : Json :=
  .ofPresent [("capabilities", some w.capabilities.toJson),
    ("serverInfo", w.serverInfo.map Identity.toJson)]

end InitializeResult

end LanguageClient
