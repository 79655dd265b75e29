namespace LanguageClient.FileUri

def isPlain (c : Char) : Bool :=
  c.isAlphanum || c == '/' || c == '.' || c == '-' || c == '_' || c == '~'

def hexDigit (n : Nat) : Char :=
  if n < 10 then Char.ofNat (48 + n) else Char.ofNat (55 + n)

def hexValue? (c : Char) : Option Nat :=
  if c.isDigit then some (c.toNat - 48)
  else if 'A' ≤ c && c ≤ 'F' then some (c.toNat - 55)
  else none

def escapeByte (b : UInt8) : List Char :=
  ['%', hexDigit (b.toNat / 16), hexDigit (b.toNat % 16)]

def escape (c : Char) : List Char :=
  if isPlain c then [c] else (String.utf8EncodeChar c).flatMap escapeByte

def encode (path : List Char) : List Char :=
  path.flatMap escape

def decode? : List Char → Option (List UInt8)
  | [] => some []
  | '%' :: h :: l :: rest => do
    let high ← hexValue? h
    let low ← hexValue? l
    return UInt8.ofNat (16 * high + low) :: (← decode? rest)
  | c :: rest => if isPlain c then (decode? rest).map (c.toNat.toUInt8 :: ·) else none

def ofPath (path : String) : String :=
  "file://" ++ String.ofList (encode path.toList)

end LanguageClient.FileUri
