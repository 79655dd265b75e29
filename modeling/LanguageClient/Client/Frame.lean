import LanguageClient.Config.Settings
import LanguageClient.Json.Printer
import LanguageClient.Wire.Document
import LanguageClient.Wire.Handshake
import LanguageClient.Wire.ServerNotice
import LanguageClient.Workspace.Basic

namespace LanguageClient

inductive Frame
  | request (id : Nat) (method : String) (params : Option Json)
  | notification (method : String) (params : Option Json)
  | response (r : Response)
  deriving DecidableEq, Repr

namespace Frame

def requestId? : Frame → Option Nat
  | request id _ _ => some id
  | _ => none

def message : Frame → Message
  | request id method params => .request (.new id method params)
  | notification method params => .notification (.new method params)
  | response r => .response r

def text (f : Frame) : String :=
  f.message.toJson.compact

def initialized : Frame :=
  notification "initialized" (some (.object []))

def didOpen (uri : String) (d : Document) : Frame :=
  notification "textDocument/didOpen"
    (some (DidOpenParams.toJson ⟨⟨uri, d.languageId, d.version, d.syncedText⟩⟩))

def didClose (uri : String) : Frame :=
  notification "textDocument/didClose" (some (DidCloseParams.toJson ⟨⟨uri⟩⟩))

def didChange (b : Batch) (changes : List ContentChange) : Frame :=
  notification "textDocument/didChange"
    (some (DidChangeParams.toJson ⟨⟨b.uri, b.version⟩, changes⟩))

def cancelRequest (id : Nat) : Frame :=
  notification "$/cancelRequest" (some (CancelParams.toJson ⟨.number id⟩))

end Frame

/-- Ranges are taken one after another, each in the text that the edits before it left; none if an edit
does not apply. -/
def ContentChange.sequential? : List Edit → String → Option (List ContentChange)
  | [], _ => some []
  | e :: rest, text => do
    let range : Range := ⟨Text.positionAt text e.start, Text.positionAt text e.stop⟩
    let next ← (e.apply text).toOption
    return ⟨some range, e.insert⟩ :: (← sequential? rest next)

/-- A batch as the server wants it: edit by edit if the document is large enough and the server takes
that, and otherwise its new text as a whole. -/
def Batch.contentChanges (b : Batch) (kind : SyncKind) (threshold : Nat) : List ContentChange :=
  let whole : List ContentChange := [⟨none, b.text⟩]
  if kind = .incremental ∧ threshold < Text.size b.text then
    (ContentChange.sequential? b.edits b.previousText).getD whole
  else whole

def folderName (uri : String) : String :=
  let trimmed := uri.toList.reverse.dropWhile (· == '/')
  match trimmed.takeWhile (· != '/') with
  | [] => "workspace"
  | cs => String.ofList cs.reverse

namespace ClientCapabilities

def flags (fields : List (String × Bool)) : Json :=
  .ofFields (fields.map fun f => (f.1, .bool f.2))

def formats : Json :=
  Json.strings ["markdown", "plaintext"]

def dynamic : String × Json :=
  ("dynamicRegistration", .bool true)

def standard : ClientCapabilities where
  general := some (.ofFields [("positionEncodings", Json.strings ["utf-16"])])
  window := some (.ofFields [("workDoneProgress", .bool true), ("showMessage", .object [])])
  textDocument := some {
    synchronization := some (flags [("dynamicRegistration", true), ("didSave", false),
      ("willSave", false), ("willSaveWaitUntil", false)])
    completion := some (.ofFields [dynamic,
      ("completionItem", .ofFields [("snippetSupport", .bool false),
        ("documentationFormat", formats), ("insertReplaceSupport", .bool false)]),
      ("contextSupport", .bool true)])
    hover := some (.ofFields [dynamic, ("contentFormat", formats)])
    signatureHelp := some (.ofFields [dynamic,
      ("signatureInformation", .ofFields [("documentationFormat", formats),
        ("parameterInformation", flags [("labelOffsetSupport", true)]),
        ("activeParameterSupport", .bool true)]),
      ("contextSupport", .bool true)])
    formatting := some (.ofFields [dynamic])
    rangeFormatting := some (.ofFields [dynamic])
    rename := some (.ofFields [dynamic, ("prepareSupport", .bool true)])
    publishDiagnostics := some (flags [("versionSupport", true)]) }
  workspace := some (flags [("configuration", true), ("workspaceFolders", true),
    ("applyEdit", false)])

end ClientCapabilities

def clientVersion : String := "0.1.0"

def InitializeParams.ofSettings (s : Settings) (processId : Nat) : InitializeParams where
  processId := some processId
  rootUri := s.rootUri
  workspaceFolders := s.rootUri.map fun uri => [⟨uri, folderName uri⟩]
  capabilities := .standard
  clientInfo := some ⟨s.clientName, some clientVersion⟩
  options := s.options

end LanguageClient
