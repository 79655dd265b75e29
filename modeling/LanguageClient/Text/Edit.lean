import LanguageClient.Text.Position

namespace LanguageClient

structure Edit where
  start : Nat
  stop : Nat
  insert : String
  deriving DecidableEq, Repr, Inhabited

structure TextEdit where
  range : Range
  newText : String
  deriving DecidableEq, Repr, Inhabited

namespace Edit

inductive Refusal
  | inverted (start stop : Nat)
  | pastEnd (start stop length : Nat)
  | splitsCharacter (start stop : Nat)
  deriving DecidableEq, Repr

def Refusal.message : Refusal → String
  | .inverted start stop => s!"inverted range {start}..{stop}"
  | .pastEnd start stop length => s!"range {start}..{stop} exceeds document length {length}"
  | .splitsCharacter start stop => s!"range {start}..{stop} splits a character"

def isEmpty (e : Edit) : Bool :=
  e.start == e.stop && e.insert.isEmpty

def splice? (e : Edit) (cs : List Char) : Option (List Char) := do
  let (before, rest) ← Text.cut? e.start cs
  let (_, after) ← Text.cut? (e.stop - e.start) rest
  return before ++ e.insert.toList ++ after

def apply (e : Edit) (text : String) : Except Refusal String :=
  if e.stop < e.start then .error (.inverted e.start e.stop)
  else if Text.size text < e.stop then .error (.pastEnd e.start e.stop (Text.size text))
  else match e.splice? text.toList with
    | some cs => .ok (String.ofList cs)
    | none => .error (.splitsCharacter e.start e.stop)

def applyAll (edits : List Edit) (text : String) : Except Refusal String :=
  edits.foldlM (fun t e => e.apply t) text

end Edit

end LanguageClient
