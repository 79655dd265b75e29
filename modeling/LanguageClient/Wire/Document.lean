import LanguageClient.Wire.Coordinates

namespace LanguageClient

open Json (Field record? natural? string? list?)

structure DocumentId where
  uri : String
  deriving DecidableEq, Repr

namespace DocumentId

def read? (v : Json) : Option DocumentId := do
  return ⟨← (← record? ["uri"] v).need "uri" string?⟩

def toJson (d : DocumentId) : Json :=
  .ofFields [("uri", .string d.uri)]

end DocumentId

structure VersionedDocumentId where
  uri : String
  version : Nat
  deriving DecidableEq, Repr

namespace VersionedDocumentId

def read? (v : Json) : Option VersionedDocumentId := do
  let r ← record? ["uri", "version"] v
  return ⟨← r.need "uri" string?, ← r.need "version" (natural? word64)⟩

def toJson (d : VersionedDocumentId) : Json :=
  .ofFields [("uri", .string d.uri), ("version", .ofNat d.version)]

end VersionedDocumentId

structure DocumentItem where
  uri : String
  languageId : String
  version : Nat
  text : String
  deriving DecidableEq, Repr

namespace DocumentItem

def read? (v : Json) : Option DocumentItem := do
  let r ← record? ["uri", "languageId", "version", "text"] v
  return ⟨← r.need "uri" string?, ← r.need "languageId" string?,
    ← r.need "version" (natural? word64), ← r.need "text" string?⟩

def toJson (d : DocumentItem) : Json :=
  .ofFields [("uri", .string d.uri), ("languageId", .string d.languageId),
    ("version", .ofNat d.version), ("text", .string d.text)]

end DocumentItem

structure DidOpenParams where
  document : DocumentItem
  deriving DecidableEq, Repr

namespace DidOpenParams

def read? (v : Json) : Option DidOpenParams := do
  return ⟨← (← record? ["textDocument"] v).need "textDocument" DocumentItem.read?⟩

def toJson (p : DidOpenParams) : Json :=
  .ofFields [("textDocument", p.document.toJson)]

end DidOpenParams

/-- One step of a change. Without a range its text replaces the whole document. -/
structure ContentChange where
  range : Option Range
  text : String
  deriving DecidableEq, Repr

namespace ContentChange

def read? (v : Json) : Option ContentChange := do
  let r ← record? ["range", "text"] v
  return ⟨← r.optional "range" Range.read?, ← r.need "text" string?⟩

def toJson (c : ContentChange) : Json :=
  .ofPresent [("range", c.range.map Range.toJson), ("text", some (.string c.text))]

end ContentChange

structure DidChangeParams where
  document : VersionedDocumentId
  changes : List ContentChange
  deriving DecidableEq, Repr

namespace DidChangeParams

def read? (v : Json) : Option DidChangeParams := do
  let r ← record? ["textDocument", "contentChanges"] v
  return ⟨← r.need "textDocument" VersionedDocumentId.read?,
    ← r.need "contentChanges" (list? ContentChange.read?)⟩

def toJson (p : DidChangeParams) : Json :=
  .ofFields [("textDocument", p.document.toJson),
    ("contentChanges", .array (p.changes.map ContentChange.toJson))]

end DidChangeParams

structure DidCloseParams where
  document : DocumentId
  deriving DecidableEq, Repr

namespace DidCloseParams

def read? (v : Json) : Option DidCloseParams := do
  return ⟨← (← record? ["textDocument"] v).need "textDocument" DocumentId.read?⟩

def toJson (p : DidCloseParams) : Json :=
  .ofFields [("textDocument", p.document.toJson)]

end DidCloseParams

structure PositionParams where
  document : DocumentId
  position : Position
  deriving DecidableEq, Repr

namespace PositionParams

def read? (v : Json) : Option PositionParams := do
  let r ← record? ["textDocument", "position"] v
  return ⟨← r.need "textDocument" DocumentId.read?, ← r.need "position" Position.read?⟩

def toJson (p : PositionParams) : Json :=
  .ofFields [("textDocument", p.document.toJson), ("position", p.position.toJson)]

end PositionParams

end LanguageClient
