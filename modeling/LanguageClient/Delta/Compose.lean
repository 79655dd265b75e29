import LanguageClient.Delta.Basic

/-!
Doing one delta after another.

`Span.merge` walks the spans of both, cutting the longer of two facing spans to the length of the
shorter. The part of a replaced span that is left over after a cut has already counted its other
side, so that side becomes zero.
-/

namespace LanguageClient

namespace Span

/-- What `n` bytes that `x` produces and `y` consumes do from end to end. -/
def through : Span → Span → Nat → Span
  | kept _, kept _, n => kept n
  | kept _, replaced _ i, n => replaced n i
  | replaced d _, kept _, n => replaced d n
  | replaced d _, replaced _ i, _ => replaced d i

def dropNew : Span → Nat → Span
  | kept m, n => kept (m - n)
  | replaced _ i, n => replaced 0 (i - n)

def dropOld : Span → Nat → Span
  | kept m, n => kept (m - n)
  | replaced d _, n => replaced (d - n) 0

/-- The spans of one delta followed by another; `none` if the lengths between them differ. -/
def merge : List Span → List Span → Option (List Span)
  | [], [] => some []
  | x :: a, [] => if x.newLength = 0 then (merge a []).map (cons x) else none
  | [], y :: b => if y.oldLength = 0 then (merge [] b).map (cons y) else none
  | x :: a, y :: b =>
    if x.newLength < y.oldLength then
      (merge a (y.dropOld x.newLength :: b)).map (cons (through x y x.newLength))
    else if x.newLength = y.oldLength then
      (merge a b).map (cons (through x y x.newLength))
    else
      (merge (x.dropNew y.oldLength :: a) b).map (cons (through x y y.oldLength))
termination_by a b => a.length + b.length

end Span

namespace Delta

def compose (a b : Delta) : Except Fault Delta :=
  if a.newLength = b.oldLength then
    match Span.merge a.spans b.spans with
    | some spans => .ok ⟨spans⟩
    | none => .error (.lengthMismatch a.newLength b.oldLength)
  else .error (.lengthMismatch a.newLength b.oldLength)

def andThen (d : Delta) (e : Edit) : Except Fault Delta := do
  d.compose (← ofEdit d.newLength e)

def ofEdits (length : Nat) (edits : List Edit) : Except Fault Delta :=
  edits.foldlM andThen (identity length)

end Delta

end LanguageClient
