import LanguageClient.Config.Settings
import LanguageClient.Wire.Document
import LanguageClient.Wire.Handshake
import LanguageClient.Wire.Message
import LanguageClient.Wire.ServerNotice

namespace LanguageClient.Schema

def tidy {α : Type} (read? : Json → Option α) (toJson : α → Json) (v : Json) : Option Json :=
  (read? v).map toJson

def tidy? : String → Option (Json → Option Json)
  | "Position" => some (tidy Position.read? Position.toJson)
  | "Range" => some (tidy Range.read? Range.toJson)
  | "TextEdit" => some (tidy TextEdit.read? TextEdit.toJson)
  | "TextChange" => some (tidy Edit.read? Edit.toJson)
  | "Request" => some (tidy Request.read? Request.toJson)
  | "Response" => some (tidy Response.read? Response.toJson)
  | "Notification" => some (tidy Notification.read? Notification.toJson)
  | "RequestId" => some (tidy RequestId.read? RequestId.toJson)
  | "ResponseError" => some (tidy ResponseError.read? ResponseError.toJson)
  | "InitializeParams" => some (tidy InitializeParams.read? InitializeParams.toJson)
  | "InitializeResult" => some (tidy InitializeResult.read? InitializeResult.toJson)
  | "ServerCapabilities" => some (tidy ServerCapabilities.read? ServerCapabilities.toJson)
  | "MessageParams" => some (tidy MessageParams.read? MessageParams.toJson)
  | "CancelParams" => some (tidy CancelParams.read? CancelParams.toJson)
  | "RegistrationParams" => some (tidy RegistrationParams.read? RegistrationParams.toJson)
  | "UnregistrationParams" => some (tidy UnregistrationParams.read? UnregistrationParams.toJson)
  | "SyncKind" => some (tidy SyncKind.read? SyncKind.toJson)
  | "DidOpen" => some (tidy DidOpenParams.read? DidOpenParams.toJson)
  | "DidChange" => some (tidy DidChangeParams.read? DidChangeParams.toJson)
  | "DidClose" => some (tidy DidCloseParams.read? DidCloseParams.toJson)
  | "ClientConfig" => some (tidy Settings.read? Settings.toJson)
  | "PositionParams" => some (tidy PositionParams.read? PositionParams.toJson)
  | _ => none

end LanguageClient.Schema
