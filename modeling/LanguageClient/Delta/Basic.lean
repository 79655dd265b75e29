import LanguageClient.Text.Edit

/-!
How a document of one length becomes a document of another.

A `Delta` cuts the old document into spans, each kept or replaced, and forgets what text was
inserted. Its spans are kept in normal form by `Span.cons`: none is empty, and no two neighbours are
of the same kind.
-/

namespace LanguageClient

inductive Span
  | kept (length : Nat)
  | replaced (removed inserted : Nat)
  deriving DecidableEq, Repr

namespace Span

def oldLength : Span → Nat
  | kept n => n
  | replaced removed _ => removed

def newLength : Span → Nat
  | kept n => n
  | replaced _ inserted => inserted

def isKept : Span → Bool
  | kept _ => true
  | replaced _ _ => false

/-- Puts a span before others: an empty one vanishes, one like its neighbour joins it. -/
def cons : Span → List Span → List Span
  | kept 0, rest => rest
  | kept n, kept m :: rest => kept (n + m) :: rest
  | kept n, rest => kept n :: rest
  | replaced 0 0, rest => rest
  | replaced d i, replaced d' i' :: rest => replaced (d + d') (i + i') :: rest
  | replaced d i, rest => replaced d i :: rest

def oldTotal : List Span → Nat
  | [] => 0
  | s :: rest => s.oldLength + oldTotal rest

def newTotal : List Span → Nat
  | [] => 0
  | s :: rest => s.newLength + newTotal rest

end Span

structure Delta where
  spans : List Span
  deriving DecidableEq, Repr, Inhabited

namespace Delta

inductive Fault
  | outOfBounds (start stop length : Nat)
  | lengthMismatch (produced expected : Nat)
  deriving DecidableEq, Repr

def Fault.message : Fault → String
  | outOfBounds start stop length =>
    s!"change {start}..{stop} is outside a document of length {length}"
  | lengthMismatch produced expected =>
    s!"cannot compose a change producing {produced} bytes with one expecting {expected}"

def empty : Delta := ⟨[]⟩

def ofSpans (spans : List Span) : Delta :=
  ⟨spans.foldr Span.cons []⟩

def identity (length : Nat) : Delta :=
  ofSpans [.kept length]

def oldLength (d : Delta) : Nat :=
  Span.oldTotal d.spans

def newLength (d : Delta) : Nat :=
  Span.newTotal d.spans

def isIdentity (d : Delta) : Bool :=
  d.spans.all Span.isKept

def ofEdit (length : Nat) (e : Edit) : Except Fault Delta :=
  if e.stop < e.start ∨ length < e.stop then .error (.outOfBounds e.start e.stop length)
  else .ok (ofSpans
    [.kept e.start, .replaced (e.stop - e.start) (Text.size e.insert), .kept (length - e.stop)])

end Delta

end LanguageClient
