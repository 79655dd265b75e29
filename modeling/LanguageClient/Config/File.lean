import LanguageClient.Config.Settings
import LanguageClient.Text.Utf8
import LanguageClient.Toml.Document

namespace LanguageClient.Settings

def ofText (text : List Char) : Except ConfigError Settings :=
  match (Toml.read? text).bind read? with
  | some s => s.validate
  | none => .error (.parse "malformed settings")

def ofFile : Option (List UInt8) → Except ConfigError Settings
  | none => .ok standard
  | some bytes =>
    match Utf8.decode bytes with
    | .ok text => ofText text
    | .error _ => .error .notText

end LanguageClient.Settings
