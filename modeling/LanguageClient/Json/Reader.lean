import LanguageClient.Json.Number

namespace LanguageClient.Json

inductive Token
  | openArray
  | closeArray
  | openObject
  | closeObject
  | colon
  | comma
  | string (s : String)
  | scalar (v : Json)
  deriving Repr

inductive Scan
  | between
  | bare (chars : List Char)
  | quoted (chars : List Char)
  | escape (chars : List Char)
  | code (chars : List Char) (high : Option Nat) (digits value : Nat)
  | lead (chars : List Char) (unit : Nat)
  | leadEscape (chars : List Char) (unit : Nat)
  deriving Repr

def isBlank (c : Char) : Bool :=
  c == ' ' || c == '\n' || c == '\t' || c == '\r'

def mark? : Char → Option Token
  | '[' => some .openArray
  | ']' => some .closeArray
  | '{' => some .openObject
  | '}' => some .closeObject
  | ':' => some .colon
  | ',' => some .comma
  | _ => none

def bare? (cs : List Char) : Option Json :=
  match String.ofList cs with
  | "null" => some null
  | "true" => some (bool true)
  | "false" => some (bool false)
  | _ => readNumber? cs

def escaped? : Char → Option Char
  | '"' => some '"'
  | '\\' => some '\\'
  | '/' => some '/'
  | 'b' => some '\x08'
  | 'f' => some '\x0c'
  | 'n' => some '\n'
  | 'r' => some '\r'
  | 't' => some '\t'
  | _ => none

def hexDigit? (c : Char) : Option Nat :=
  if c.isDigit then some (c.toNat - 48)
  else if 'a' ≤ c && c ≤ 'f' then some (c.toNat - 87)
  else if 'A' ≤ c && c ≤ 'F' then some (c.toNat - 55)
  else none

/-- The state after a complete four-digit code. The second half of a surrogate pair must follow the
first, and nothing else may. -/
def codeDone? (chars : List Char) (high : Option Nat) (unit : Nat) : Option Scan :=
  match high with
  | none =>
    if 0xD800 ≤ unit ∧ unit < 0xDC00 then some (.lead chars unit)
    else if 0xDC00 ≤ unit ∧ unit < 0xE000 then none
    else some (.quoted (Char.ofNat unit :: chars))
  | some high =>
    if 0xDC00 ≤ unit ∧ unit < 0xE000 then
      some (.quoted (Char.ofNat (0x10000 + (high - 0xD800) * 0x400 + (unit - 0xDC00)) :: chars))
    else none

def outside? (c : Char) : Option (Scan × List Token) :=
  if isBlank c then some (.between, [])
  else if c = '"' then some (.quoted [], [])
  else match mark? c with
    | some t => some (.between, [t])
    | none => some (.bare [c], [])

def Scan.step? : Scan → Char → Option (Scan × List Token)
  | between, c => outside? c
  | bare chars, c =>
    if isBlank c || c == '"' || (mark? c).isSome then do
      let v ← bare? chars.reverse
      let (s, ts) ← outside? c
      return (s, .scalar v :: ts)
    else some (bare (c :: chars), [])
  | quoted chars, c =>
    if c = '"' then some (between, [.string (String.ofList chars.reverse)])
    else if c = '\\' then some (escape chars, [])
    else if c.toNat < 32 then none
    else some (quoted (c :: chars), [])
  | escape chars, c =>
    if c = 'u' then some (code chars none 0 0, [])
    else (escaped? c).map fun e => (quoted (e :: chars), [])
  | code chars high digits value, c => do
    let d ← hexDigit? c
    if digits = 3 then return (← codeDone? chars high (16 * value + d), [])
    else return (code chars high (digits + 1) (16 * value + d), [])
  | lead chars unit, c => if c = '\\' then some (leadEscape chars unit, []) else none
  | leadEscape chars unit, c => if c = 'u' then some (code chars (some unit) 0 0, []) else none

def tokens? (cs : List Char) : Option (List Token) := do
  let (scan, found) ← cs.foldlM (fun (s, found) c => do
    let (s', ts) ← Scan.step? s c
    return (s', ts.reverse ++ found)) (Scan.between, [])
  match scan with
  | .between => return found.reverse
  | .bare chars => return (Token.scalar (← bare? chars.reverse) :: found).reverse
  | _ => none

inductive Opened
  | items (done : List Json)
  | member (done : List (String × Json)) (key : String)
  deriving Repr

inductive Expected
  | value (opened : List Opened)
  | itemOrClose (opened : List Opened)
  | keyOrClose (opened : List Opened)
  | key (done : List (String × Json)) (opened : List Opened)
  | colon (done : List (String × Json)) (key : String) (opened : List Opened)
  | afterItem (done : List Json) (opened : List Opened)
  | afterMember (done : List (String × Json)) (opened : List Opened)
  | nothing (result : Json)
  deriving Repr

def Expected.put (v : Json) : List Opened → Expected
  | [] => nothing v
  | .items done :: opened => afterItem (v :: done) opened
  | .member done k :: opened => afterMember (Table.put k v done) opened

def startValue? (maxDepth : Nat) (opened : List Opened) : Token → Option Expected
  | .openArray => if opened.length < maxDepth then some (.itemOrClose opened) else none
  | .openObject => if opened.length < maxDepth then some (.keyOrClose opened) else none
  | .string s => some (.put (string s) opened)
  | .scalar v => some (.put v opened)
  | _ => none

def Expected.step? (maxDepth : Nat) : Expected → Token → Option Expected
  | value opened, t => startValue? maxDepth opened t
  | itemOrClose opened, .closeArray => some (put (array []) opened)
  | itemOrClose opened, t => startValue? maxDepth (.items [] :: opened) t
  | keyOrClose opened, .closeObject => some (put (object []) opened)
  | keyOrClose opened, .string k => some (colon [] k opened)
  | key done opened, .string k => some (colon done k opened)
  | colon done k opened, .colon => some (value (.member done k :: opened))
  | afterItem done opened, .comma => some (value (.items done :: opened))
  | afterItem done opened, .closeArray => some (put (array done.reverse) opened)
  | afterMember done opened, .comma => some (key done opened)
  | afterMember done opened, .closeObject => some (put (object done) opened)
  | _, _ => none

def readWithin? (maxDepth : Nat) (text : String) : Option Json := do
  let ts ← tokens? text.toList
  match ← ts.foldlM (Expected.step? maxDepth) (.value []) with
  | .nothing v => return v
  | _ => none

def maxDepth : Nat := 127

def read? (text : String) : Option Json :=
  readWithin? maxDepth text

end LanguageClient.Json
