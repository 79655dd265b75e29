import LanguageClient.Delta.Basic

namespace LanguageClient

/-- `before` snaps to the start of a replaced region and stays before inserted text, `after` to its
end and behind. `strict` has no answer inside a region and is otherwise like `before`. -/
inductive Bias
  | before
  | after
  | strict
  deriving DecidableEq, Repr, Inhabited

structure Region where
  oldStart : Nat
  oldStop : Nat
  newStart : Nat
  newStop : Nat
  deriving DecidableEq, Repr

namespace Span

def track : List Span → Nat → Bias → Option Nat
  | [], pos, _ => if pos = 0 then some 0 else none
  | kept n :: rest, pos, bias =>
    if pos < n then some pos else (track rest (pos - n) bias).map (n + ·)
  | replaced d i :: rest, pos, bias =>
    if pos = 0 then some (if d = 0 ∧ bias = .after then i else 0)
    else if pos < d then
      match bias with
      | .before => some 0
      | .after => some i
      | .strict => none
    else (track rest (pos - d) bias).map (i + ·)

def regionsFrom : Nat → Nat → List Span → List Region
  | _, _, [] => []
  | old, new, kept n :: rest => regionsFrom (old + n) (new + n) rest
  | old, new, replaced d i :: rest =>
    ⟨old, old + d, new, new + i⟩ :: regionsFrom (old + d) (new + i) rest

end Span

namespace Delta

def track (d : Delta) (pos : Nat) (bias : Bias) : Option Nat :=
  Span.track d.spans pos bias

def regions (d : Delta) : List Region :=
  Span.regionsFrom 0 0 d.spans

/-- Whether a region overlaps the half-open range from `start` to `stop`. The regions are in order,
so the search ends at the first one behind the range. -/
def touches (d : Delta) (start stop : Nat) : Bool :=
  (d.regions.takeWhile (·.oldStart < stop)).any (start < ·.oldStop)

end Delta

end LanguageClient
