import LanguageClient.Json.Number

namespace LanguageClient.Toml

open Json (real integer)

def separated? (isDigit : Char → Bool) : List Char → Option (List Char)
  | [] => none
  | [c] => if isDigit c then some [c] else none
  | c :: '_' :: rest => if isDigit c then (separated? isDigit rest).map (c :: ·) else none
  | c :: rest => if isDigit c then (separated? isDigit rest).map (c :: ·) else none

def digitOf (c : Char) : Nat :=
  if c.isDigit then c.toNat - 48 else if 'a' ≤ c then c.toNat - 87 else c.toNat - 55

def readBase (base : Nat) (cs : List Char) : Nat :=
  cs.foldl (fun n c => base * n + digitOf c) 0

def isHex (c : Char) : Bool :=
  c.isDigit || ('a' ≤ c && c ≤ 'f') || ('A' ≤ c && c ≤ 'F')

def whole? (n : Int) : Option Json :=
  if -9223372036854775808 ≤ n ∧ n < 9223372036854775808 then some (integer n) else none

def sign : List Char → Bool × List Char
  | '-' :: cs => (true, cs)
  | '+' :: cs => (false, cs)
  | cs => (false, cs)

def plainDigits? (cs : List Char) : Option (List Char) := do
  let ds ← separated? Char.isDigit cs
  if ds.length = 1 ∨ ds.head? ≠ some '0' then some ds else none

def decimal? (cs : List Char) : Option Json := do
  let (negative, rest) := sign cs
  let n := readBase 10 (← plainDigits? rest)
  whole? (if negative then -(n : Int) else n)

def integer? : List Char → Option Json
  | '0' :: 'x' :: cs => do whole? (readBase 16 (← separated? isHex cs))
  | '0' :: 'o' :: cs => do whole? (readBase 8 (← separated? (fun c => '0' ≤ c && c ≤ '7') cs))
  | '0' :: 'b' :: cs => do whole? (readBase 2 (← separated? (fun c => c == '0' || c == '1') cs))
  | cs => decimal? cs

/-- `n` times ten to `e`, rounded once; infinite or zero far outside the range. -/
def toFloat (n : Nat) (e : Int) : Float :=
  let size : Int := Decimal.digitCount n
  if n = 0 ∨ size + e < -330 then 0.0
  else if 310 < size + e then 1.0 / 0.0
  else if e < 0 then Float.ofScientific n true e.natAbs
  else Float.ofScientific n false e.natAbs

def isMark (c : Char) : Bool :=
  c == 'e' || c == 'E'

def float? (cs : List Char) : Option Json := do
  let (negative, rest) := sign cs
  let mantissa := rest.takeWhile (!isMark ·)
  let whole ← plainDigits? (mantissa.takeWhile (· != '.'))
  let fraction ←
    match mantissa.dropWhile (· != '.') with
    | [] => some []
    | _ :: ds => separated? Char.isDigit ds
  let exponent ←
    match rest.dropWhile (!isMark ·) with
    | [] => if fraction = [] then none else some (0 : Int)
    | _ :: ds =>
      let (down, ds) := sign ds
      (separated? Char.isDigit ds).map fun ds =>
        if down then -(readBase 10 ds : Int) else (readBase 10 ds : Int)
  let size := toFloat (readBase 10 (whole ++ fraction)) (exponent - fraction.length)
  if negative then return real (-size)
  else if size.isInf then none
  else return real size

def word? (cs : List Char) : Option Json :=
  match String.ofList cs with
  | "true" => some (.bool true)
  | "false" => some (.bool false)
  | "inf" | "+inf" => some (real (1.0 / 0.0))
  | "-inf" => some (real (-(1.0 / 0.0)))
  | "nan" | "+nan" | "-nan" => some (real (0.0 / 0.0))
  | _ => none

def two? (high : Nat) : List Char → Option (List Char × List Char)
  | a :: b :: rest =>
    if a.isDigit && b.isDigit && readBase 10 [a, b] ≤ high then some ([a, b], rest) else none
  | _ => none

def isLeapYear (y : Nat) : Bool :=
  y % 4 == 0 && (y % 100 != 0 || y % 400 == 0)

def daysIn (year month : Nat) : Nat :=
  if month = 2 then (if isLeapYear year then 29 else 28)
  else if month = 4 ∨ month = 6 ∨ month = 9 ∨ month = 11 then 30
  else 31

def date? : List Char → Option (List Char × List Char)
  | a :: b :: c :: d :: '-' :: rest => do
    let year := [a, b, c, d]
    guard (year.all Char.isDigit)
    let (month, rest) ← two? 12 rest
    let '-' :: rest := rest | none
    let (day, rest) ← two? 31 rest
    let m := readBase 10 month
    let n := readBase 10 day
    guard (1 ≤ m ∧ 1 ≤ n ∧ n ≤ daysIn (readBase 10 year) m)
    return (year ++ '-' :: month ++ '-' :: day, rest)
  | _ => none

def fraction (ds : List Char) : List Char :=
  match ((ds.take 9).reverse.dropWhile (· == '0')).reverse with
  | [] => []
  | kept => '.' :: kept

def time? (cs : List Char) : Option (List Char × List Char) := do
  let (hour, rest) ← two? 23 cs
  let ':' :: rest := rest | none
  let (minute, rest) ← two? 59 rest
  let ':' :: rest := rest | none
  let (second, rest) ← two? 60 rest
  let clock := hour ++ ':' :: minute ++ ':' :: second
  match rest with
  | '.' :: more =>
    if more.takeWhile Char.isDigit = [] then none
    else return (clock ++ fraction (more.takeWhile Char.isDigit), more.dropWhile Char.isDigit)
  | _ => return (clock, rest)

def offset? : List Char → Option (List Char)
  | [] => some []
  | ['Z'] | ['z'] => some ['Z']
  | s :: cs => do
    guard (s = '+' ∨ s = '-')
    let (hour, rest) ← two? 23 cs
    let ':' :: rest := rest | none
    let (minute, rest) ← two? 59 rest
    guard (rest = [])
    let isZero := hour ++ minute = ['0', '0', '0', '0']
    return (if isZero then '+' else s) :: hour ++ ':' :: minute

def moment? (cs : List Char) : Option (List Char) :=
  match date? cs with
  | some (day, []) => some day
  | some (day, t :: rest) => do
    guard (t = 'T' ∨ t = 't' ∨ t = ' ')
    let (clock, rest) ← time? rest
    return day ++ 'T' :: clock ++ (← offset? rest)
  | none => do
    let (clock, rest) ← time? cs
    guard (rest = [])
    return clock

def momentKey : String := "$__toml_private_datetime"

def scalar? (cs : List Char) : Option Json :=
  word? cs <|> integer? cs <|> float? cs <|>
    (moment? cs).map fun m => Json.ofFields [(momentKey, .string (String.ofList m))]

end LanguageClient.Toml
