import LanguageClient.Decimal.Shortest

namespace LanguageClient.Decimal

/-- `n / d` to the nearest whole number. -/
def roundHalfEven (n d : Nat) : Nat :=
  let q := n / d
  let r := n % d
  if 2 * r < d then q
  else if 2 * r = d then (if q % 2 = 0 then q else q + 1)
  else q + 1

def roundScaled (x : Float) (k : Nat) : Nat :=
  let b := Binary.ofFloat x
  let (n, d) := scaled (b.mantissa * k) 2 b.exponent
  roundHalfEven n d

end LanguageClient.Decimal
