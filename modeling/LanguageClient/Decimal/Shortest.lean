/-!
The shortest decimal that reads back as a given number.

A finite number is `m · 2 ^ q`; the reals that round to it form an interval around it, ends included
if `m` is even. Among decimals with one significant digit, then two, and so on, the first in the
interval is taken, and of two such neighbours the nearer one. All arithmetic is exact.
-/

namespace LanguageClient.Decimal

structure Binary where
  mantissa : Nat
  exponent : Int
  deriving DecidableEq, Repr

structure Digits where
  digits : List Char
  exponent : Int
  deriving DecidableEq, Repr

def Binary.ofFloat (x : Float) : Binary :=
  let bits := x.toBits.toNat
  let fraction := bits % Nat.pow 2 52
  match bits / Nat.pow 2 52 % Nat.pow 2 11 with
  | 0 => ⟨fraction, -1074⟩
  | e => ⟨Nat.pow 2 52 + fraction, (e : Int) - 1075⟩

def scaled (n base : Nat) (e : Int) : Nat × Nat :=
  if 0 ≤ e then (n * Nat.pow base e.toNat, 1) else (n, Nat.pow base (-e).toNat)

def digitCount (n : Nat) : Nat :=
  (Nat.toDigits 10 n).length

/-- The place of the decimal point: the least `p` with `m · 2 ^ q < 10 ^ p`. -/
def Binary.magnitude (b : Binary) : Int :=
  let (n, d) := scaled b.mantissa 2 b.exponent
  (digitCount (n * Nat.pow 10 400 / d) : Int) - 400

/-- The interval of reals that round to the number, in units of a quarter of its last place. -/
def Binary.ends (b : Binary) : Nat × Nat :=
  let below := if b.mantissa = Nat.pow 2 52 ∧ -1074 < b.exponent then 1 else 2
  (4 * b.mantissa - below, 4 * b.mantissa + 2)

def Digits.trim (d : Digits) : Digits :=
  let kept := (d.digits.reverse.dropWhile (· == '0')).reverse
  ⟨kept, d.exponent + (d.digits.length - kept.length : Nat)⟩

def Binary.withDigits? (b : Binary) (count : Nat) : Option Digits :=
  let unit := b.magnitude - count
  let (n, d) := scaled 1 2 (b.exponent - 2)
  let (u, w) := scaled 1 10 unit
  -- a quarter of the last place is `place` and one step of the decimal grid is `step`
  let place := n * w
  let step := u * d
  let (low, high) := b.ends
  let inside (k : Nat) : Bool :=
    if b.mantissa % 2 = 0 then low * place ≤ k * step && k * step ≤ high * place
    else low * place < k * step && k * step < high * place
  let exact := 4 * b.mantissa * place
  let floor := exact / step
  let nearerAbove := (floor + 1) * step - exact < exact - floor * step
  let choice :=
    if inside floor && !(nearerAbove && inside (floor + 1)) then some floor
    else if inside (floor + 1) then some (floor + 1)
    else none
  choice.map fun k => Digits.trim ⟨Nat.toDigits 10 k, unit⟩

/-- The shortest digits of a number that is not zero. Seventeen always suffice. -/
def Binary.shortest (b : Binary) : Digits :=
  ((List.range 17).findSome? fun k => b.withDigits? (k + 1)).getD ⟨['0'], 0⟩

end LanguageClient.Decimal
