import LanguageClient.Client.Agenda
import LanguageClient.CommandLine.Arguments
import LanguageClient.Delta.Machine

namespace LanguageClient

def Json.ofOption {α : Type} (f : α → Json) (x : Option α) : Json :=
  (x.map f).getD .null

namespace Delta

def kind : Fault → String
  | .outOfBounds _ _ _ => "OutOfBounds"
  | .lengthMismatch _ _ => "LengthMismatch"

def inspect (d : Delta) : Json :=
  .ofFields [("len", .ofNat (Machine.oldLength d)), ("new_len", .ofNat (Machine.newLength d)),
    ("empty", .bool (Machine.oldLength d == 0)), ("identity", .bool d.isIdentity),
    ("ranges", .array ((Machine.regions d).map fun r =>
      .array [.ofNat r.oldStart, .ofNat r.oldStop, .ofNat r.newStart, .ofNat r.newStop]))]

end Delta

namespace WorkspaceError

def kind : WorkspaceError → String
  | alreadyOpen _ => "AlreadyOpen"
  | notOpen _ => "NotOpen"
  | invalidEdit _ _ => "InvalidEdit"
  | historyGone _ _ => "MappingUnavailable"
  | unknownDocument _ => "UnknownDocument"
  | documentClosed _ => "DocumentClosed"
  | outOfRange _ _ _ => "PositionOutOfRange"
  | delta fault => Delta.kind fault

end WorkspaceError

namespace ClientError

def kind : ClientError → String
  | notConnected => "NotConnected"
  | transport _ => "Transport"
  | timeout _ _ => "Timeout"
  | cancelled => "RequestCancelled"
  | server _ _ => "ServerError"
  | unsupported _ => "Unsupported"
  | badAnswer _ => "Protocol"
  | handlerConflict _ => "HandlerConflict"
  | undecodable => "Json"

def inspect (e : ClientError) : Json :=
  .ofPresent [("kind", some (.string e.kind)), ("code", some (.integer e.code)),
    ("cancelled", some (.bool e.isCancelled)), ("timeout", some (.bool e.isTimeout)),
    ("content_modified", some (.bool e.isContentModified)),
    ("recoverable", some (.bool e.isRecoverable)),
    ("message", if e = .undecodable then none else some (.string e.message))]

end ClientError

def RequestState.name : RequestState → String
  | queued => "Queued"
  | inFlight => "InFlight"
  | cancelRequested => "CancelRequested"
  | resolved => "Resolved"
  | rejected => "Rejected"
  | timedOut => "TimedOut"
  | cancelled => "Cancelled"

def Phase.name : Phase → String
  | disconnected => "Disconnected"
  | connecting => "Connecting"
  | initialized => "Initialized"

def LogLevel.name : LogLevel → String
  | error => "ERROR"
  | warning => "WARN"
  | info => "INFO"
  | debug => "DEBUG"

def Operation.name : Operation → String
  | request => "Request"
  | handshake => "Initialization"
  | shutdown => "Shutdown"

def CommandLine.Usage.name : CommandLine.Usage → String
  | .help => "DisplayHelp"
  | .version _ => "DisplayVersion"
  | .nothingGiven => "DisplayHelpOnMissingArgumentOrSubcommand"
  | .missingCommand => "MissingSubcommand"
  | .unknownCommand => "InvalidSubcommand"
  | .unknownArgument => "UnknownArgument"
  | .missingArgument => "MissingRequiredArgument"
  | .repeated => "ArgumentConflict"
  | .missingValue => "InvalidValue"
  | .unexpectedValue => "TooManyValues"
  | .malformedValue => "ValueValidation"

def CommandLine.Invocation.inspect (i : CommandLine.Invocation) : Json :=
  let text (s : Option String) : Json := .ofOption .string s
  let number (n : Option Nat) : Json := .ofOption .ofNat n
  let shared := [("config", text i.config), ("verbose", .bool i.verbose),
    ("server", .string i.server.program), ("root", text i.server.root),
    ("timeout_ms", number i.server.timeoutMs), ("server_args", Json.strings i.server.arguments)]
  match i.command with
  | .probe => .ofFields (("command", .string "probe") :: shared)
  | .request q => .ofFields (shared ++ [("command", .string "request"), ("file", .string q.file),
      ("method", .string q.method), ("line", number (q.position.map Prod.fst)),
      ("character", number (q.position.map Prod.snd)), ("params", text q.params),
      ("language_id", text q.languageId)])

def Gate.inspect (g : Gate) : Json :=
  .ofFields [("known", .bool g.isKnown),
    ("supported", .ofOption (fun fs => Json.strings (fs.map Feature.method)) g.supported),
    ("sync", .ofOption SyncKind.toJson g.syncKind)]

def Edit.inspect (e : Edit) : Json :=
  .array [.ofNat e.start, .ofNat e.stop, .string e.insert]

def Document.inspect (uri : String) (d : Document) : Json :=
  .ofFields [("id", .ofNat d.id), ("uri", .string uri), ("lang", .string d.languageId),
    ("version", .ofNat d.version), ("text", .string d.text), ("synced", .string d.syncedText),
    ("pending", .array (d.pending.map Edit.inspect)), ("has_pending", .bool d.hasPending),
    ("holders", .ofNat d.holders)]

def Workspace.inspect (w : Workspace) : Json :=
  .array (w.files.map fun (uri, d) => d.inspect uri)

def OpenOutcome.inspect (uri : String) : OpenOutcome → Json
  | opened d => .ofFields [("opened", d.inspect uri)]
  | joined holders => .ofFields [("joined", .ofNat holders)]

def CloseOutcome.inspect : CloseOutcome → Json
  | closed => .string "closed"
  | released remaining => .ofFields [("released", .ofNat remaining)]

def Batch.inspect (b : Batch) : Json :=
  .ofFields [("id", .ofNat b.id), ("uri", .string b.uri), ("from", .ofNat b.previousVersion),
    ("version", .ofNat b.version), ("before", .string b.previousText), ("text", .string b.text),
    ("changes", .array (b.edits.map Edit.inspect))]

end LanguageClient
