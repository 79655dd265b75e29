namespace LanguageClient.Decimal

inductive WordFault
  | empty
  | invalidDigit
  | tooLarge
  deriving DecidableEq, Repr

def WordFault.message : WordFault → String
  | empty => "cannot parse integer from empty string"
  | invalidDigit => "invalid digit found in string"
  | tooLarge => "number too large to fit in target type"

def maxWord : Nat := Nat.pow 2 64 - 1

def readWordFrom : Nat → List Char → Except WordFault Nat
  | n, [] => .ok n
  | n, c :: cs =>
    if c.isDigit then
      let m := 10 * n + (c.toNat - '0'.toNat)
      if m ≤ maxWord then readWordFrom m cs else .error .tooLarge
    else .error .invalidDigit

def readWord : List Char → Except WordFault Nat
  | [] => .error .empty
  | ['+'] => .error .invalidDigit
  | '+' :: cs => readWordFrom 0 cs
  | cs => readWordFrom 0 cs

end LanguageClient.Decimal
