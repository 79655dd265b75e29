import LanguageClient.CommandLine.Exchange
import LanguageClient.Transport.Framing

namespace LanguageClient.CommandLine

structure Pipes where
  input : IO.FS.Handle
  output : IO.FS.Handle

def faultOf : IO.Error → FileFault
  | .noFileOrDirectory .. | .noSuchThing .. => .notFound
  | .permissionDenied .. => .denied
  | .inappropriateType .. => .isDirectory
  | e => .other (toString e)

def guarded {α : Type} (action : IO α) : IO (Except FileFault α) := do
  try return .ok (← action)
  catch e => return .error (faultOf e)

def openPipes (program : String) : IO Pipes := do
  return ⟨← IO.FS.Handle.mk (program ++ ".in") .write, ← IO.FS.Handle.mk (program ++ ".out") .read⟩

/-- The world, where a server is taken to be started by someone else. -/
def world (pipes : IO.Ref (Option Pipes)) : IO (Host IO) := do
  let home := (← IO.getEnv "HOME").getD "."
  return {
    canonical := fun path => guarded do return (← IO.FS.realPath path).toString
    read := fun path => guarded do return (← IO.FS.readBinFile path).toList
    start := fun program _ _ => guarded do pipes.set (some (← openPipes program))
    directory := (← IO.currentDir).toString
    configDirectory := (← IO.getEnv "XDG_CONFIG_HOME").getD (home ++ "/.config") }

def Pipes.send (p : Pipes) (text : String) : IO Unit := do
  p.input.write ⟨(Framing.write text.toList).toArray⟩
  p.input.flush

partial def Pipes.hear (p : Pipes) (head : List UInt8) : IO (Option String) := do
  let head := head ++ (← p.output.read 1).toList
  match head.getLast? with
  | some b =>
    if b ≠ Framing.newline then p.hear head
    else
      match Framing.readHeaders none head with
      | (.ok n, _) =>
        let body ← p.output.read n.toUSize
        return (Framing.read (head ++ body.toList)).1.toOption.map String.ofList
      | (.error fault, _) => if fault.isEnd then p.hear head else return none
  | none => return none

partial def comes {α : Type} (coming : Task α) (moment? : Option Nat) : IO Bool := do
  if ← IO.hasFinished coming then return true
  let now ← IO.monoMsNow
  if moment?.any (· ≤ now) then return false
  IO.sleep 1
  comes coming moment?

/-- Carries messages to and fro until the command is done; `coming` is the server's next one, until it
has said all. -/
partial def carry (p : Pipes) (start : Nat) (coming : Option (Task (Except IO.Error (Option String))))
    (x : Exchange) : IO Verdict := do
  let x := x.wait ((← IO.monoMsNow) - start - x.agenda.now)
  let (sent, x) := x.takeSent
  for text in sent do p.send text
  match x.stage, coming with
  | .done v, _ => return v
  | _, none =>
    IO.sleep 1
    carry p start none x
  | _, some message =>
    if ← comes message (x.agenda.nextAlarm?.map (· + start)) then
      match message.get with
      | .ok (some text) => carry p start (some (← IO.asTask (p.hear []))) (x.receive text)
      | _ => carry p start none x
    else carry p start coming x

def processId : IO Nat := do
  match ← guarded (IO.FS.realPath "/proc/self") with
  | .ok path => return ((path.toString.splitOn "/").getLast?.bind String.toNat?).getD 0
  | .error _ => return 0

def printJson (v : Json) : IO Unit :=
  IO.println v.pretty

def execute (i : Invocation) : IO UInt32 := do
  let pipes ← IO.mkRef none
  match ← (plan (← world pipes) i).run with
  | .error e =>
    printJson (failure e.message)
    return 2
  | .ok p =>
    match ← pipes.get with
    | none => return 2
    | some ends =>
      let coming ← IO.asTask (ends.hear [])
      let v ← carry ends (← IO.monoMsNow) (some coming) (.start p (← processId))
      printJson v.output
      return v.exitCode.toUInt32

end LanguageClient.CommandLine

open LanguageClient.CommandLine in
def main (args : List String) : IO UInt32 := do
  match Invocation.read (← IO.getEnv "TETHER_CONFIG") args with
  | .ok i => execute i
  | .error u =>
    IO.print u.printed
    return u.exitCode.toUInt32
