import LanguageClient.Client.Turn
import LanguageClient.CommandLine.Output
import LanguageClient.CommandLine.Path
import LanguageClient.CommandLine.Setup

namespace LanguageClient.CommandLine

structure Verdict where
  output : Json
  exitCode : Nat
  deriving DecidableEq, Repr

inductive Stage
  | connecting
  | asking
  | leaving (output : Json)
  | done (v : Verdict)
  deriving DecidableEq, Repr

structure Exchange where
  plan : Plan
  agenda : Agenda
  stage : Stage

def Verdict.ofError (e : CommandError) : Verdict :=
  ⟨failure e.message, 2⟩

def syncName : Option SyncKind → String
  | some .full => "full"
  | some .incremental => "incremental"
  | some .off | none => "none"

def probeOutput (gate : Gate) (init : InitializeResult) : Json :=
  success [("server", init.serverInfo.map fun i => .string i.name),
    ("version", (init.serverInfo.bind (·.version)).map .string),
    ("sync", some (.string (syncName gate.syncKind))),
    ("features", some (.array (Feature.all.map fun f => .ofFields [
      ("feature", .string f.displayName), ("method", .string f.method),
      ("supported", .bool ((gate.supports f).getD false))]))),
    ("capabilities", some init.capabilities.toJson)]

def answerEdits (m : Mapping) (d : Documents) (uri : String) (answer : Json) :
    Except WorkspaceError (Option (List Edit)) :=
  match Json.list? TextEdit.read? answer with
  | none | some [] => .ok none
  | some edits => (m.mapEdits d uri edits).map some

def requestOutput (root : String) (q : Query) (answer : Json) (edits : Option (List Edit)) :
    Json :=
  success [("file", some (.string (Path.relative root q.path))),
    ("method", some (.string q.method)), ("result", some answer),
    ("edits", edits.map fun es => .array (es.map Edit.toJson))]

namespace Exchange

def jobName : String := "command"

def transport : Nat := 0

def start (plan : Plan) (processId : Nat) : Exchange :=
  let (_, a) := (Agenda.new plan.settings .exclusive processId .rising).addTransport .new
  ⟨plan, a.spawn jobName (.connect transport), .connecting⟩

def isDone (x : Exchange) : Bool :=
  match x.stage with
  | .done _ => true
  | _ => false

def leave (x : Exchange) (output : Json) : Exchange :=
  { x with agenda := x.agenda.spawn jobName .shutDown, stage := .leaving output }

def ask (x : Exchange) (q : Query) : Exchange :=
  match x.agenda.client.openFile q.uri q.languageId q.text with
  | .error e => x.leave (failure e.message)
  | .ok (_, client) =>
    let call : Call := ⟨q.method, some q.params, none, .any, none⟩
    { x with agenda := (x.agenda.update client).spawn jobName (.mapped call), stage := .asking }

def answered (x : Exchange) (q : Query) : Outcome → Exchange
  | .error e => x.leave (failure e.message)
  | .ok v =>
    let m := (Table.get? jobName x.agenda.mappings).getD default
    match answerEdits m x.agenda.client.documents q.uri v with
    | .error e => x.leave (failure e.message)
    | .ok edits => x.leave (requestOutput x.plan.root q v edits)

def hear (x : Exchange) (r : Report) : Exchange :=
  match x.stage, r with
  | .connecting, .connected (.error e) =>
    { x with stage := .done (.ofError (.cannotConnect x.plan.program e)) }
  | .connecting, .connected (.ok init) =>
    match x.plan.query with
    | none => x.leave (probeOutput x.agenda.client.gate init)
    | some q => x.ask q
  | .asking, .answered outcome =>
    match x.plan.query with
    | some q => x.answered q outcome
    | none => x
  | .leaving output, .shutDown _ => { x with stage := .done ⟨output, 0⟩ }
  | _, _ => x

def advanceOnce (x : Exchange) : Exchange :=
  let (reports, agenda) := x.agenda.settle.takeReports
  (reports.map Prod.snd).foldl hear { x with agenda }

/-- There are no more stages than this. -/
def advance (x : Exchange) : Exchange :=
  x.advanceOnce.advanceOnce.advanceOnce.advanceOnce

def receive (x : Exchange) (raw : String) : Exchange :=
  advance { x with agenda := (x.agenda.deliver transport raw).2 }

def takeSent (x : Exchange) : List String × Exchange :=
  let (sent, agenda) := x.agenda.takeSent
  (sent.map Prod.snd, { x with agenda })

def wait (x : Exchange) (ms : Nat) : Exchange :=
  advance { x with agenda := x.agenda.wait ms }

end Exchange

end LanguageClient.CommandLine
