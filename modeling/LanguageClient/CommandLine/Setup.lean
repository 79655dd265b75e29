import LanguageClient.CommandLine.Arguments
import LanguageClient.CommandLine.Files
import LanguageClient.Client.Error
import LanguageClient.Config.File
import LanguageClient.Json.Reader
import LanguageClient.Text.FileUri

namespace LanguageClient.CommandLine

inductive CommandError
  | config (e : ConfigError)
  | configFile (fault : FileFault)
  | fileNotFound (path : String) (fault : FileFault)
  | unreadable (path : String) (fault : FileFault)
  | paramsNotJson
  | paramsNotObject
  | rootNotFound (path : String) (fault : FileFault)
  | settings (e : ConfigError)
  | cannotStart (program : String) (fault : FileFault)
  | cannotConnect (program : String) (e : ClientError)
  deriving DecidableEq, Repr

def chain (e : ClientError) : String :=
  match e with
  | .transport reason => s!"{e.message}: {reason}"
  | _ => e.message

def CommandError.message : CommandError → String
  | config e => s!"Failed to load config: {e.message}"
  | configFile fault => s!"Failed to load config: {fault.message}"
  | fileNotFound path fault => s!"File not found: {path}: {fault.message}"
  | unreadable path fault => s!"Failed to read {path}: {fault.message}"
  | paramsNotJson => "--params is not valid JSON: malformed value"
  | paramsNotObject => "--params must be a JSON object"
  | rootNotFound path fault => s!"Workspace root not found: {path}: {fault.message}"
  | settings e => e.message
  | cannotStart program fault => s!"Failed to start '{program}': {fault.message}"
  | cannotConnect program e => s!"'{program}' failed to initialize: {chain e}"

structure Host (m : Type → Type) where
  canonical : String → m (Except FileFault String)
  read : String → m (Except FileFault (List UInt8))
  start : (program : String) → (arguments : List String) → (directory : String) →
    m (Except FileFault Unit)
  directory : String
  configDirectory : String

structure Query where
  path : String
  uri : String
  languageId : String
  text : String
  method : String
  params : Json
  deriving DecidableEq, Repr

structure Plan where
  settings : Settings
  program : String
  root : String
  query : Option Query

/-- A letter as a small one, if that is one of the English alphabet; the kelvin sign is such a letter. -/
def lower (c : Char) : Char :=
  if c == '\u212a' then 'k' else c.toLower

/-- What follows the last dot of a file name, unless nothing stands before that dot. -/
def extension (path : String) : String :=
  let name := (path.toList.reverse.takeWhile (· != '/'))
  match name.dropWhile (· != '.') with
  | [] | ['.'] => ""
  | _ => String.ofList ((name.takeWhile (· != '.')).reverse.map lower)

def languageOf (path : String) : String :=
  match extension path with
  | "rs" => "rust"
  | "c" | "h" => "c"
  | "cpp" | "cc" | "cxx" | "hpp" | "hxx" => "cpp"
  | "go" => "go"
  | "java" => "java"
  | "kt" | "kts" => "kotlin"
  | "py" | "pyi" => "python"
  | "rb" => "ruby"
  | "ts" | "mts" | "cts" => "typescript"
  | "tsx" => "typescriptreact"
  | "js" | "mjs" | "cjs" => "javascript"
  | "jsx" => "javascriptreact"
  | "lua" => "lua"
  | "zig" => "zig"
  | "sh" | "bash" => "shellscript"
  | "json" => "json"
  | "toml" => "toml"
  | "yaml" | "yml" => "yaml"
  | "md" => "markdown"
  | _ => "plaintext"

def isFormatting (method : String) : Bool :=
  ["textDocument/formatting", "textDocument/rangeFormatting",
    "textDocument/onTypeFormatting"].contains method

/-- The request's content: the document, the position if there is one, options for formatting, and
over them what the user gives. -/
def requestParams (uri : String) (q : Inquiry) : Except CommandError Json := do
  let base := [("textDocument", some (Json.ofFields [("uri", .string uri)])),
    ("position", q.position.map fun p =>
      Json.ofFields [("line", .ofNat p.1), ("character", .ofNat p.2)]),
    ("options", if isFormatting q.method then
        some (Json.ofFields [("tabSize", .ofNat 4), ("insertSpaces", .bool true)])
      else none)]
  match q.params with
  | none => return .ofPresent base
  | some text =>
    match Json.read? text with
    | none => throw .paramsNotJson
    | some (.object fields) => return .ofPresent (base ++ fields.map fun f => (f.1, some f.2))
    | some _ => throw .paramsNotObject

variable {m : Type → Type} [Monad m]

def configPath (h : Host m) (i : Invocation) : String :=
  i.config.getD (h.configDirectory ++ "/tether/config.toml")

def loadSettings (h : Host m) (i : Invocation) : ExceptT CommandError m Settings := do
  match ← h.read (configPath h i) with
  | .ok bytes =>
    match Settings.ofFile (some bytes) with
    | .ok s => return s
    | .error e => throw (.config e)
  | .error .notFound | .error .notDirectory => return .standard
  | .error fault => throw (.configFile fault)

def readQuery (h : Host m) (q : Inquiry) : ExceptT CommandError m Query := do
  let path ← match ← h.canonical q.file with
    | .ok path => pure path
    | .error fault => throw (.fileNotFound q.file fault)
  let text ← match ← h.read path with
    | .ok bytes =>
      match Utf8.decode bytes with
      | .ok text => pure (String.ofList text)
      | .error _ => throw (.unreadable path (.other ConfigError.notText.message))
    | .error fault => throw (.unreadable path fault)
  let uri := FileUri.ofPath path
  let params ← match requestParams uri q with
    | .ok params => pure params
    | .error e => throw e
  return { path, uri, languageId := q.languageId.getD (languageOf path), text, method := q.method,
           params }

def startServer (h : Host m) (s : ServerChoice) (settings : Settings) :
    ExceptT CommandError m (String × Settings) := do
  let given := s.root.getD h.directory
  let root ← match ← h.canonical given with
    | .ok root => pure root
    | .error fault => throw (.rootNotFound given fault)
  let settings := { settings with rootUri := settings.rootUri <|> some (FileUri.ofPath root) }
  let settings ← match s.timeoutMs with
    | none => pure settings
    | some timeoutMs =>
      match { settings with timeoutMs }.validate with
      | .ok settings => pure settings
      | .error e => throw (.settings e)
  match ← h.start s.program s.arguments root with
  | .ok () => return (root, settings)
  | .error fault => throw (.cannotStart s.program fault)

def plan (h : Host m) (i : Invocation) : ExceptT CommandError m Plan := do
  let settings ← loadSettings h i
  let query ← match i.command with
    | .probe => pure none
    | .request q => some <$> readQuery h q
  let (root, settings) ← startServer h i.server settings
  return { settings, program := i.server.program, root, query }

end LanguageClient.CommandLine
