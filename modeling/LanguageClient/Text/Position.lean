import LanguageClient.Word

/-!
Byte offsets and protocol positions in a text.

Offsets count UTF-8 bytes; the columns of a `Position` count UTF-16 code units. `offsetAt` and
`positionAt` lead from one to the other. Both are total: a column past its line means the end of the
line, a line past the text means the end of the text, and an offset inside a character means the
start of that character.
-/

namespace LanguageClient

structure Position where
  line : Nat
  character : Nat
  deriving DecidableEq, Repr, Inhabited

def Position.wrap (p : Position) : Position :=
  ⟨p.line % word32, p.character % word32⟩

structure Range where
  start : Position
  stop : Position
  deriving DecidableEq, Repr, Inhabited

namespace Text

def byteLength : List Char → Nat
  | [] => 0
  | c :: cs => c.utf8Size + byteLength cs

def size (text : String) : Nat :=
  byteLength text.toList

@[simp] theorem byteLength_nil : byteLength [] = 0 := rfl

@[simp] theorem byteLength_cons (c : Char) (cs : List Char) :
    byteLength (c :: cs) = c.utf8Size + byteLength cs := rfl

@[simp] theorem byteLength_append (a b : List Char) :
    byteLength (a ++ b) = byteLength a + byteLength b := by
  induction a <;> simp_all [Nat.add_assoc]

/-- Splits after `n` bytes; `none` if that is inside a character or past the end. -/
def cut? : Nat → List Char → Option (List Char × List Char)
  | 0, cs => some ([], cs)
  | _ + 1, [] => none
  | n + 1, c :: cs =>
    if c.utf8Size ≤ n + 1 then (cut? (n + 1 - c.utf8Size) cs).map fun p => (c :: p.1, p.2) else none

def IsBoundary (cs : List Char) (n : Nat) : Prop :=
  (cut? n cs).isSome

def takeBytes : Nat → List Char → List Char
  | _, [] => []
  | n, c :: cs => if c.utf8Size ≤ n then c :: takeBytes (n - c.utf8Size) cs else []

def utf16Size (c : Char) : Nat :=
  if c.toNat < 0x10000 then 1 else 2

def columnOffset : List Char → Nat → Nat
  | [], _ => 0
  | '\n' :: _, _ => 0
  | '\r' :: '\n' :: _, _ => 0
  | c :: cs, units =>
    if utf16Size c ≤ units then c.utf8Size + columnOffset cs (units - utf16Size c) else 0

def lineOffset : List Char → Nat → Nat → Nat
  | cs, 0, units => columnOffset cs units
  | [], _ + 1, _ => 0
  | c :: cs, line + 1, units =>
    c.utf8Size + lineOffset cs (if c = '\n' then line else line + 1) units

def advance (p : Position) (c : Char) : Position :=
  if c = '\n' then ⟨p.line + 1, 0⟩ else ⟨p.line, p.character + utf16Size c⟩

def offsetAt (text : String) (p : Position) : Nat :=
  lineOffset text.toList p.line p.character

def placeAfter (cs : List Char) : Position :=
  cs.foldl advance ⟨0, 0⟩

/-- The protocol's numbers have 32 bits; lines and columns further on wrap around. -/
def positionAt (text : String) (offset : Nat) : Position :=
  (placeAfter (takeBytes offset text.toList)).wrap

end Text

end LanguageClient
