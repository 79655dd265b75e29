import LanguageClient.Json.Record
import LanguageClient.Text.Edit

namespace LanguageClient

open Json (Field record? natural? string?)

def Position.read? (v : Json) : Option Position := do
  let r ← record? ["line", "character"] v
  return ⟨← r.need "line" (natural? word32), ← r.need "character" (natural? word32)⟩

def Position.toJson (p : Position) : Json :=
  .ofFields [("line", .ofNat p.line), ("character", .ofNat p.character)]

def Range.read? (v : Json) : Option Range := do
  let r ← record? ["start", "end"] v
  return ⟨← r.need "start" Position.read?, ← r.need "end" Position.read?⟩

def Range.toJson (r : Range) : Json :=
  .ofFields [("start", r.start.toJson), ("end", r.stop.toJson)]

def TextEdit.read? (v : Json) : Option TextEdit := do
  let r ← record? ["range", "newText"] v
  return ⟨← r.need "range" Range.read?, ← r.need "newText" string?⟩

def TextEdit.toJson (e : TextEdit) : Json :=
  .ofFields [("range", e.range.toJson), ("newText", .string e.newText)]

def Edit.read? (v : Json) : Option Edit := do
  let r ← record? ["from", "to", "insert"] v
  return ⟨← r.need "from" (natural? word64), ← r.need "to" (natural? word64),
    ← r.need "insert" string?⟩

def Edit.toJson (e : Edit) : Json :=
  .ofFields [("from", .ofNat e.start), ("to", .ofNat e.stop), ("insert", .string e.insert)]

end LanguageClient
