import LanguageClient.Json.Basic
import LanguageClient.Decimal.Shortest

namespace LanguageClient.Json

def maxNatural : Nat := Nat.pow 2 64 - 1

def maxExponent : Nat := Nat.pow 2 31 - 1

def digitValue (c : Char) : Nat :=
  c.toNat - '0'.toNat

def readDigits (cs : List Char) : Nat :=
  cs.foldl (fun n c => 10 * n + digitValue c) 0

/-- Leading digits of a number: appends digits to `n` while the result fits in 64 bits, and returns
how many were taken. -/
def takeDigits (n : Nat) : List Char → Nat × Nat
  | [] => (n, 0)
  | c :: cs =>
    if 10 * n + digitValue c ≤ maxNatural then
      let (m, count) := takeDigits (10 * n + digitValue c) cs
      (m, count + 1)
    else (n, 0)

def powerOfTen (e : Nat) : Float :=
  Float.ofScientific 1 false e

/-- Divides by ten `e` times, at most 308 at once. -/
def scaleDown (x : Float) (e : Nat) : Float :=
  if e ≤ 308 then x / powerOfTen e
  else if x == 0 then x
  else scaleDown (x / powerOfTen 308) (e - 308)
termination_by e

def scale? (n : Nat) (e : Int) : Option Float :=
  let x := Float.ofNat n
  if e < 0 then some (scaleDown x e.natAbs)
  else if e ≤ 308 then
    let y := x * powerOfTen e.natAbs
    if y.isInf then none else some y
  else if n = 0 then some x else none

structure Written where
  negative : Bool
  whole : List Char
  fraction : Option (List Char)
  exponent : Option (Bool × List Char)
  deriving Repr

def Written.real? (w : Written) : Option Float := do
  let (n, taken) := takeDigits 0 w.whole
  let dropped := w.whole.length - taken
  let (n, places) := takeDigits n (w.fraction.getD [])
  let point : Int := (dropped : Int) - places
  let size ←
    match w.exponent with
    | none => scale? n point
    | some (down, digits) =>
      if maxExponent < readDigits digits then
        if n ≠ 0 ∧ !down then none else some 0.0
      else scale? n (if down then point - readDigits digits else point + readDigits digits)
  return if w.negative then -size else size

def Written.value? (w : Written) : Option Json :=
  let n := readDigits w.whole
  if w.fraction.isNone ∧ w.exponent.isNone then
    if w.negative then
      if n = 0 ∨ Nat.pow 2 63 < n then w.real?.map real else some (integer (-(n : Int)))
    else if n ≤ maxNatural then some (integer n)
    else w.real?.map real
  else w.real?.map real

def exponent? : List Char → Option (Option (Bool × List Char))
  | [] => some none
  | 'e' :: '-' :: ds | 'E' :: '-' :: ds =>
    if ds ≠ [] ∧ ds.all Char.isDigit then some (some (true, ds)) else none
  | 'e' :: '+' :: ds | 'E' :: '+' :: ds | 'e' :: ds | 'E' :: ds =>
    if ds ≠ [] ∧ ds.all Char.isDigit then some (some (false, ds)) else none
  | _ => none

def fraction? : List Char → Option (Option (List Char) × Option (Bool × List Char))
  | '.' :: rest =>
    if rest.takeWhile Char.isDigit = [] then none
    else (exponent? (rest.dropWhile Char.isDigit)).map (some (rest.takeWhile Char.isDigit), ·)
  | rest => (exponent? rest).map (none, ·)

def unsigned? (negative : Bool) (cs : List Char) : Option Written := do
  let whole := cs.takeWhile Char.isDigit
  guard (whole ≠ [] ∧ (whole.length = 1 ∨ whole.head? ≠ some '0'))
  let (fraction, exponent) ← fraction? (cs.dropWhile Char.isDigit)
  return ⟨negative, whole, fraction, exponent⟩

def readNumber? : List Char → Option Json
  | '-' :: cs => (unsigned? true cs).bind Written.value?
  | cs => (unsigned? false cs).bind Written.value?

/-- Digits with the point after the first `p` of them, or with an exponent where that is shorter. -/
def writeDigits (d : Decimal.Digits) : String :=
  let count := d.digits.length
  let p : Int := count + d.exponent
  let zeros (n : Int) := List.replicate n.toNat '0'
  let text : List Char :=
    if 0 ≤ d.exponent ∧ p ≤ 16 then d.digits ++ zeros d.exponent ++ ['.', '0']
    else if 0 < p ∧ p ≤ 16 then d.digits.take p.toNat ++ '.' :: d.digits.drop p.toNat
    else if -5 < p ∧ p ≤ 0 then '0' :: '.' :: zeros (-p) ++ d.digits
    else
      let mark := 'e' :: (toString (p - 1)).toList
      match d.digits with
      | c :: c' :: cs => c :: '.' :: c' :: cs ++ mark
      | cs => cs ++ mark
  String.ofList text

def writeReal (x : Float) : String :=
  if x.isNaN || x.isInf then "null"
  else
    let sign := if x.toBits.toNat < Nat.pow 2 63 then "" else "-"
    let size := if x == 0 then "0.0" else writeDigits (Decimal.Binary.ofFloat x).shortest
    sign ++ size

end LanguageClient.Json
