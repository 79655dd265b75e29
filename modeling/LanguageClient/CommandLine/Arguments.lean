import LanguageClient.Decimal.Word
import LanguageClient.Json.Record

namespace LanguageClient.CommandLine

inductive CommandName
  | probe
  | request
  deriving DecidableEq, Repr

namespace CommandName

def ofText? : String → Option CommandName
  | "probe" => some probe
  | "request" => some request
  | _ => none

def text : CommandName → String
  | probe => "probe"
  | request => "request"

end CommandName

inductive Usage
  | help
  | version (command : Option CommandName)
  | nothingGiven
  | missingCommand
  | unknownCommand
  | unknownArgument
  | missingArgument
  | repeated
  | missingValue
  | unexpectedValue
  | malformedValue
  deriving DecidableEq, Repr

namespace Usage

def exitCode : Usage → Nat
  | help | version _ => 0
  | _ => 2

def programVersion : String := "0.1.0"

def printed : Usage → String
  | version none => s!"tether {programVersion}\n"
  | version (some c) => s!"tether-{c.text} {programVersion}\n"
  | _ => ""

end Usage

inductive ValueKind
  | text
  | path
  | word64
  | word32
  deriving DecidableEq, Repr

/-- A whole number of 32 bits; zero may have a minus sign. -/
def readWord32? (cs : List Char) : Option Nat :=
  match cs with
  | '-' :: cs => if !cs.isEmpty && cs.all (· == '0') then some 0 else none
  | cs =>
    match Decimal.readWord cs with
    | .ok n => if n < LanguageClient.word32 then some n else none
    | .error _ => none

def readWord64? (cs : List Char) : Option Nat :=
  (Decimal.readWord cs).toOption

def ValueKind.fault? : ValueKind → String → Option Usage
  | text, _ => none
  | path, v => if v.isEmpty then some .missingValue else none
  | word64, v => if (readWord64? v.toList).isSome then none else some .malformedValue
  | word32, v => if (readWord32? v.toList).isSome then none else some .malformedValue

inductive Action
  | value (kind : ValueKind)
  | switch
  | help
  | version
  deriving DecidableEq, Repr

structure Parameter where
  name : String
  letter : Option Char
  action : Action
  deriving DecidableEq, Repr

def commonParameters : List Parameter :=
  [⟨"config", none, .value .path⟩, ⟨"verbose", some 'v', .switch⟩, ⟨"help", some 'h', .help⟩,
    ⟨"version", some 'V', .version⟩]

def serverParameters : List Parameter :=
  [⟨"server", some 's', .value .text⟩, ⟨"root", none, .value .path⟩,
    ⟨"timeout-ms", none, .value .word64⟩]

def requestParameters : List Parameter :=
  [⟨"file", some 'f', .value .path⟩, ⟨"method", some 'm', .value .text⟩,
    ⟨"line", none, .value .word32⟩, ⟨"character", none, .value .word32⟩,
    ⟨"params", none, .value .text⟩, ⟨"language-id", none, .value .text⟩]

def parameters : Option CommandName → List Parameter
  | none => commonParameters
  | some .probe => serverParameters ++ commonParameters
  | some .request => serverParameters ++ requestParameters ++ commonParameters

structure Reading where
  given : Table String String
  pending : Option (Parameter × Option String)
  rest : List String

namespace Reading

def start : Reading := ⟨[], none, []⟩

def isAwaiting (r : Reading) : Bool :=
  r.pending.any (·.2.isNone)

def accept (r : Reading) (p : Parameter) (value : String) : Except Usage Reading :=
  if Table.contains p.name r.given then .error .repeated
  else
    let fault := match p.action with
      | .value kind => kind.fault? value
      | _ => none
    match fault with
    | some u => .error u
    | none => .ok { r with given := Table.put p.name value r.given }

def resolve (r : Reading) : Except Usage Reading :=
  match r.pending with
  | none => .ok r
  | some (_, none) => .error .missingValue
  | some (p, some value) => { r with pending := none }.accept p value

def occur (r : Reading) (place : Option CommandName) (p : Parameter) (attached : Option String) :
    Except Usage Reading := do
  match p.action, attached with
  | .value _, some v => (← r.resolve).accept p v
  | .value _, none => return { ← r.resolve with pending := some (p, none) }
  | _, some _ => throw .unexpectedValue
  | .switch, none => (← r.resolve).accept p ""
  | .help, none =>
    let _ ← r.resolve
    throw .help
  | .version, none =>
    let _ ← r.resolve
    throw (.version place)

def long (r : Reading) (place : Option CommandName) (cs : List Char) : Except Usage Reading :=
  let name := String.ofList (cs.takeWhile (· != '='))
  let attached := match cs.dropWhile (· != '=') with
    | [] => none
    | _ :: value => some (String.ofList value)
  match (parameters place).find? (·.name == name) with
  | some p => r.occur place p attached
  | none => .error .unknownArgument

/-- Options by letter; the value of one may follow its letter at once. -/
def short (place : Option CommandName) : List Char → Reading → Except Usage Reading
  | [], r => .ok r
  | c :: cs, r =>
    match (parameters place).find? (·.letter == some c) with
    | none => .error .unknownArgument
    | some p =>
      match p.action, cs with
      | .value _, [] => r.occur place p none
      | .value _, '=' :: value => r.occur place p (some (String.ofList value))
      | .value _, value => r.occur place p (some (String.ofList value))
      | _, _ => do short place cs (← r.occur place p none)

def word (r : Reading) (place : Option CommandName) (text : String) : Except Usage Reading :=
  match r.pending with
  | some (p, none) => .ok { r with pending := some (p, some text) }
  | _ => .error (if place.isNone then .unknownCommand else .unknownArgument)

def isCommand (text : String) : Bool :=
  text == "help" || (CommandName.ofText? text).isSome

def afterDashes (r : Reading) (place : Option CommandName) (rest : List String) :
    Except Usage Reading :=
  match place, rest with
  | some _, _ => .ok { r with rest }
  | none, [] => .ok r
  | none, w :: _ => .error (if isCommand w then .unknownArgument else .unknownCommand)

def helpAbout : List String → Usage
  | [] => .help
  | [w] => if isCommand w then .help else .unknownCommand
  | _ => .unknownCommand

def read (place : Option CommandName) :
    List String → Reading → Except Usage (Reading × Option (CommandName × List String))
  | [], r => .ok (r, none)
  | w :: ws, r =>
    let command := if place.isNone && !r.isAwaiting then CommandName.ofText? w else none
    if place.isNone && !r.isAwaiting && w == "help" then .error (helpAbout ws)
    else
      match command, w.toList with
      | some c, _ => .ok (r, some (c, ws))
      | none, ['-', '-'] => do return (← r.afterDashes place ws, none)
      | none, '-' :: '-' :: cs => do read place ws (← r.long place cs)
      | none, '-' :: c :: cs => do read place ws (← short place (c :: cs) r)
      | none, _ => do read place ws (← r.word place w)

def text? (r : Reading) (name : String) : Option String :=
  Table.get? name r.given

/-- An empty environment variable is an empty path. -/
def checkEnvironment (r : Reading) (config : Option String) : Except Usage Unit :=
  if (r.text? "config").isNone && config == some "" then .error .missingValue else .ok ()

def requires (r : Reading) (names : List String) : Except Usage Unit :=
  if names.all fun n => (r.text? n).isSome then .ok () else .error .missingArgument

end Reading

structure ServerChoice where
  program : String
  arguments : List String
  root : Option String
  timeoutMs : Option Nat
  deriving DecidableEq, Repr

structure Inquiry where
  file : String
  method : String
  position : Option (Nat × Nat)
  params : Option String
  languageId : Option String
  deriving DecidableEq, Repr

inductive Command
  | probe
  | request (q : Inquiry)
  deriving DecidableEq, Repr

structure Invocation where
  config : Option String
  verbose : Bool
  server : ServerChoice
  command : Command
  deriving DecidableEq, Repr

namespace Invocation

def readCommand (c : CommandName) (config : Option String) (words : List String) :
    Except Usage Reading := do
  let r ← (← Reading.read (some c) words .start).1.resolve
  r.checkEnvironment config
  r.requires ["server"]
  match c with
  | .probe => pure ()
  | .request =>
    r.requires ["file", "method"]
    if (r.text? "line").isSome then r.requires ["character"]
    if (r.text? "character").isSome then r.requires ["line"]
  return r

def inquiry (r : Reading) : Inquiry where
  file := (r.text? "file").getD ""
  method := (r.text? "method").getD ""
  position := do
    return (← readWord32? (← r.text? "line").toList, ← readWord32? (← r.text? "character").toList)
  params := r.text? "params"
  languageId := r.text? "language-id"

def read (config : Option String) (words : List String) : Except Usage Invocation := do
  match ← Reading.read none words .start with
  | (outer, none) =>
    let outer ← outer.resolve
    outer.checkEnvironment config
    throw (if outer.given.isEmpty && config.isNone then .nothingGiven else .missingCommand)
  | (outer, some (c, words)) =>
    let inner ← readCommand c config words
    let outer ← outer.resolve
    outer.checkEnvironment config
    return {
      config := inner.text? "config" <|> outer.text? "config" <|> config
      verbose := (inner.text? "verbose" <|> outer.text? "verbose").isSome
      server := {
        program := (inner.text? "server").getD ""
        arguments := inner.rest
        root := inner.text? "root"
        timeoutMs := do readWord64? (← inner.text? "timeout-ms").toList }
      command := match c with
        | .probe => .probe
        | .request => .request (inquiry inner) }

end Invocation

end LanguageClient.CommandLine
