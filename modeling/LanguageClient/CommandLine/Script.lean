import LanguageClient.CommandLine.Exchange

namespace LanguageClient.CommandLine

inductive Answer
  | result (v : Json)
  | error (e : Json)
  | silence
  deriving DecidableEq, Repr

structure Script where
  capabilities : Json
  info : Option Json
  answers : Table String Answer
  before : Table String (List String)

namespace Script

def answerTo (s : Script) (method : String) : Answer :=
  match Table.get? method s.answers with
  | some a => a
  | none =>
    if method = "initialize" then
      .result (.ofPresent [("capabilities", some s.capabilities), ("serverInfo", s.info)])
    else .result .null

def response (id : Json) : Answer → List String
  | .result v => [(Json.ofFields [("jsonrpc", .string "2.0"), ("id", id), ("result", v)]).compact]
  | .error e => [(Json.ofFields [("jsonrpc", .string "2.0"), ("id", id), ("error", e)]).compact]
  | .silence => []

def reply (s : Script) (text : String) : List String :=
  let message := (Json.read? text).getD .null
  match message.get? "method", message.get? "id" with
  | some (.string method), id =>
    (Table.get? method s.before).getD [] ++
      (match id with
        | some id => response id (s.answerTo method)
        | none => [])
  | _, _ => []

/-- The exchange to its end, and what the server received. When nobody has anything to say, time passes
until someone's time runs out. -/
def converse (s : Script) : Nat → Exchange → List String → Exchange × List String
  | 0, x, heard => (x, heard)
  | n + 1, x, heard =>
    let (sent, x) := x.advance.takeSent
    let x := (sent.flatMap s.reply).foldl Exchange.receive x
    if !sent.isEmpty then converse s n x (heard ++ sent)
    else if x.isDone then (x, heard)
    else
      match x.agenda.nextAlarm? with
      | some moment => converse s n (x.wait (moment - x.agenda.now)) heard
      | none => (x, heard)

end Script

def FileTree.host (t : FileTree) (directory configDirectory : String) : Host Id where
  canonical path := (t.locate directory path).map absolute
  read path := (t.read directory path).map fun text => Utf8.encode text.toList
  start program _ root := t.startable root program
  directory
  configDirectory

structure Run where
  exitCode : Nat
  printed : String
  heard : List String

def patience : Nat := 10000

def run (t : FileTree) (directory configDirectory : String) (s : Script) (config : Option String)
    (words : List String) : Run :=
  match Invocation.read config words with
  | .error u => ⟨u.exitCode, u.printed, []⟩
  | .ok i =>
    match Id.run (plan (t.host directory configDirectory) i).run with
    | .error e => ⟨2, (failure e.message).pretty ++ "\n", []⟩
    | .ok p =>
      let (x, heard) := s.converse patience (.start p 0) []
      match x.stage with
      | .done v => ⟨v.exitCode, v.output.pretty ++ "\n", heard⟩
      | _ => ⟨2, "", heard⟩

end LanguageClient.CommandLine
