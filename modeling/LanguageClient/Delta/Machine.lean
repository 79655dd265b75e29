import LanguageClient.Delta.Compose
import LanguageClient.Delta.Track

/-!
Deltas as a machine counts them, in words of 64 bits whose sums wrap around.

The texts of a workspace are in memory, so their lengths are words and `Delta.compose` and its like need
no bound. But a delta can be made for any length, without a text. Its old side adds up to that length; its
new side may come to more than a word holds.
-/

namespace LanguageClient

def Span.wrap : Span → Span
  | kept n => kept (n % word64)
  | replaced d i => replaced (d % word64) (i % word64)

def Region.wrap (r : Region) : Region :=
  ⟨r.oldStart % word64, r.oldStop % word64, r.newStart % word64, r.newStop % word64⟩

namespace Delta

/-- Sums that wrap at every step come to the same words as sums that wrap at the end. -/
def wrap (d : Delta) : Delta :=
  ⟨d.spans.map Span.wrap⟩

namespace Machine

def oldLength (d : Delta) : Nat :=
  d.oldLength % word64

def newLength (d : Delta) : Nat :=
  d.newLength % word64

def ofEdit (length : Nat) (e : Edit) : Except Fault Delta :=
  (Delta.ofEdit length e).map wrap

/-- Words may agree where lengths differ; then `Span.merge` comes to the end of one side too early. -/
def compose (a b : Delta) : Except Fault Delta :=
  if newLength a = oldLength b then
    match Span.merge a.spans b.spans with
    | some spans => .ok (wrap ⟨spans⟩)
    | none => .error (.lengthMismatch (newLength a) (oldLength b))
  else .error (.lengthMismatch (newLength a) (oldLength b))

def andThen (d : Delta) (e : Edit) : Except Fault Delta := do
  compose d (← ofEdit (newLength d) e)

def ofEdits (length : Nat) (edits : List Edit) : Except Fault Delta :=
  edits.foldlM andThen (identity length)

def track (d : Delta) (pos : Nat) (bias : Bias) : Option Nat :=
  (d.track pos bias).map (· % word64)

def regions (d : Delta) : List Region :=
  d.regions.map Region.wrap

end Machine

end Delta

end LanguageClient
