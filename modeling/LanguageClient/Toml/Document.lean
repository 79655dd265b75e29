import LanguageClient.Toml.Token
import LanguageClient.Toml.Scalar

/-!
A configuration file as one object.

A file is read line by line, where a line goes on until its brackets are closed. Headers choose the
table that the following keys go to. No key is given twice, no table has two headers, and a table that
was opened by dotted keys takes more keys in no other way.
-/

namespace LanguageClient.Toml

/-- How a table came to be: by its own header, as a step in the path of another header, or as a step in
a dotted key. -/
inductive Origin
  | header
  | path
  | dotted
  deriving DecidableEq, Repr

inductive Node
  | value (v : Json)
  | table (origin : Origin) (entries : List (String × Node))
  | tables (items : List (List (String × Node)))

abbrev Entries := List (String × Node)

mutual

def Node.toJson : Node → Json
  | .value v => v
  | .table _ entries => Json.object (entriesToJson entries)
  | .tables items => Json.array (itemsToJson items).reverse

def entriesToJson : List (String × Node) → List (String × Json)
  | [] => []
  | (k, n) :: rest => (k, n.toJson) :: entriesToJson rest

def itemsToJson : List (List (String × Node)) → List Json
  | [] => []
  | entries :: rest => Json.object (entriesToJson entries) :: itemsToJson rest

end

/-- Puts a value under a dotted key. `mayEnd` tells whether the table reached so far may take it. -/
def assign (key : String) (v : Json) : List String → Bool → Entries → Option Entries
  | [], mayEnd, entries =>
    if mayEnd && !Table.contains key entries then some (Table.put key (.value v) entries) else none
  | k :: path, _, entries =>
    match Table.get? k entries with
    | none =>
      (assign key v path true []).map fun inner => Table.put k (.table .dotted inner) entries
    | some (.table .header _) => none
    | some (.table origin inner) =>
      (assign key v path (origin == .dotted) inner).map fun inner =>
        Table.put k (.table origin inner) entries
    | some (.tables (latest :: older)) =>
      (assign key v path false latest).map fun latest =>
        Table.put k (.tables (latest :: older)) entries
    | _ => none

def within (f : Entries → Option Entries) : List String → Entries → Option Entries
  | [], entries => f entries
  | k :: path, entries =>
    match Table.get? k entries with
    | none => (within f path []).map fun inner => Table.put k (.table .path inner) entries
    | some (.table origin inner) =>
      (within f path inner).map fun inner => Table.put k (.table origin inner) entries
    | some (.tables (latest :: older)) =>
      (within f path latest).map fun latest => Table.put k (.tables (latest :: older)) entries
    | _ => none

def openTable (key : String) (entries : Entries) : Option Entries :=
  match Table.get? key entries with
  | none => some (Table.put key (.table .header []) entries)
  | some (.table .path inner) => some (Table.put key (.table .header inner) entries)
  | _ => none

def openItem (key : String) (entries : Entries) : Option Entries :=
  match Table.get? key entries with
  | none => some (Table.put key (.tables [[]]) entries)
  | some (.tables items) => some (Table.put key (.tables ([] :: items)) entries)
  | _ => none

inductive Piece
  | part (s : String)
  | dot
  deriving DecidableEq, Repr

def isKeyChar (c : Char) : Bool :=
  c.isAlphanum || c == '_' || c == '-'

def pieces? : List Char → List Char → Option (List Piece)
  | [], [] => some []
  | cs, [] => some [.part (String.ofList cs.reverse)]
  | cs, '.' :: rest =>
    (pieces? [] rest).map fun ps =>
      if cs = [] then .dot :: ps else .part (String.ofList cs.reverse) :: .dot :: ps
  | cs, c :: rest => if isKeyChar c then pieces? (c :: cs) rest else none

def Token.pieces? : Token → Option (List Piece)
  | bare cs => Toml.pieces? [] cs
  | quoted s false => some [.part s]
  | _ => none

def joined? : List Piece → Option (List String)
  | [.part s] => some [s]
  | .part s :: .dot :: rest => (joined? rest).map (s :: ·)
  | _ => none

def key? (ts : List Token) : Option (List String) := do
  joined? (← ts.mapM Token.pieces?).flatten

def maxDepth : Nat := 79

def skipLines (ts : List Token) : List Token :=
  ts.dropWhile (· == .newline)

mutual

def valueAt? : (fuel depth : Nat) → List Token → Option (Json × List Token)
  | 0, _, _ => none
  | _ + 1, _, .bare cs :: rest => (scalar? cs).map (·, rest)
  | _ + 1, _, .quoted s _ :: rest => some (.string s, rest)
  | fuel + 1, depth, .openSquare _ :: rest =>
    if depth < maxDepth then itemsAt? fuel (depth + 1) [] (skipLines rest) else none
  | fuel + 1, depth, .openCurly :: rest =>
    if depth < maxDepth then
      match rest with
      | .closeCurly :: rest => some (.object [], rest)
      | _ => membersAt? fuel (depth + 1) [] rest
    else none
  | _ + 1, _, _ => none

def itemsAt? : (fuel depth : Nat) → List Json → List Token → Option (Json × List Token)
  | 0, _, _, _ => none
  | _ + 1, _, done, .closeSquare _ :: rest => some (.array done.reverse, rest)
  | fuel + 1, depth, done, ts => do
    let (v, rest) ← valueAt? fuel depth ts
    match skipLines rest with
    | .comma :: rest => itemsAt? fuel depth (v :: done) (skipLines rest)
    | .closeSquare _ :: rest => some (.array (v :: done).reverse, rest)
    | _ => none

def membersAt? : (fuel depth : Nat) → Entries → List Token → Option (Json × List Token)
  | 0, _, _, _ => none
  | fuel + 1, depth, done, ts => do
    let path ← key? (ts.takeWhile (· != .equals))
    let key ← path.getLast?
    let _ :: rest := ts.dropWhile (· != .equals) | none
    let (v, rest) ← valueAt? fuel depth rest
    let done ← assign key v path.dropLast true done
    match rest with
    | .comma :: rest => membersAt? fuel depth done rest
    | .closeCurly :: rest => some (.object (entriesToJson done), rest)
    | _ => none

end

/-- The value that the tokens spell. Each step takes a token, so their number is fuel enough. -/
def value? (ts : List Token) : Option Json :=
  match valueAt? (2 * ts.length + 1) 0 ts with
  | some (v, []) => some v
  | _ => none

structure Reading where
  root : Entries
  current : List String

def header? (ts : List Token) : Option (Bool × List String) :=
  let isClose : Token → Bool
    | .closeSquare _ => true
    | _ => false
  match ts with
  | .openSquare _ :: .openSquare true :: rest =>
    match rest.dropWhile (!isClose ·) with
    | [.closeSquare _, .closeSquare true] =>
      (key? (rest.takeWhile (!isClose ·))).map (true, ·)
    | _ => none
  | .openSquare _ :: rest =>
    match rest.dropWhile (!isClose ·) with
    | [.closeSquare _] => (key? (rest.takeWhile (!isClose ·))).map (false, ·)
    | _ => none
  | _ => none

def Reading.line? (r : Reading) (ts : List Token) : Option Reading :=
  match ts with
  | [] => some r
  | .openSquare _ :: _ => do
    let (repeated, path) ← header? ts
    let key ← path.getLast?
    let root ← within (if repeated then openItem key else openTable key) path.dropLast r.root
    return ⟨root, path⟩
  | _ => do
    let path ← key? (ts.takeWhile (· != .equals))
    let key ← path.getLast?
    let _ :: rest := ts.dropWhile (· != .equals) | none
    let v ← value? rest
    return { r with root := ← within (assign key v path.dropLast true) r.current r.root }

def Token.nesting : Token → Int
  | openSquare _ | openCurly => 1
  | closeSquare _ | closeCurly => -1
  | _ => 0

def lines : Int → List Token → List Token → List (List Token)
  | _, line, [] => [line.reverse]
  | depth, line, t :: rest =>
    if t = .newline ∧ depth ≤ 0 then line.reverse :: lines 0 [] rest
    else lines (depth + t.nesting) (t :: line) rest

def read? (text : List Char) : Option Json := do
  let r ← (lines 0 [] (← tokens? text)).foldlM Reading.line? ⟨[], []⟩
  return .object (entriesToJson r.root)

end LanguageClient.Toml
