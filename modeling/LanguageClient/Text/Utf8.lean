namespace LanguageClient.Utf8

inductive Fault
  | invalid (start length : Nat)
  | truncated (start : Nat)
  deriving DecidableEq, Repr

def Fault.message : Fault → String
  | invalid start length => s!"invalid utf-8 sequence of {length} bytes from index {start}"
  | truncated start => s!"incomplete utf-8 byte sequence from index {start}"

/-- A character under way: where it began, the bytes it has had, how many are owed and between which
bounds the next one must be, and its bits so far. -/
structure Begun where
  start : Nat
  had : Nat
  owed : Nat
  low : Nat
  high : Nat
  bits : Nat
  deriving DecidableEq, Repr

def begin? (start b : Nat) : Option Begun :=
  if b < 0xC2 then none
  else if b ≤ 0xDF then some ⟨start, 1, 1, 0x80, 0xBF, b - 0xC0⟩
  else if b = 0xE0 then some ⟨start, 1, 2, 0xA0, 0xBF, 0⟩
  else if b = 0xED then some ⟨start, 1, 2, 0x80, 0x9F, 0xD⟩
  else if b ≤ 0xEF then some ⟨start, 1, 2, 0x80, 0xBF, b - 0xE0⟩
  else if b = 0xF0 then some ⟨start, 1, 3, 0x90, 0xBF, 0⟩
  else if b ≤ 0xF3 then some ⟨start, 1, 3, 0x80, 0xBF, b - 0xF0⟩
  else if b = 0xF4 then some ⟨start, 1, 3, 0x80, 0x8F, 4⟩
  else none

def decodeFrom : Nat → Option Begun → List UInt8 → Except Fault (List Char)
  | _, none, [] => .ok []
  | _, some p, [] => .error (.truncated p.start)
  | i, none, b :: rest =>
    if b.toNat < 0x80 then (decodeFrom (i + 1) none rest).map (Char.ofNat b.toNat :: ·)
    else match begin? i b.toNat with
      | some p => decodeFrom (i + 1) (some p) rest
      | none => .error (.invalid i 1)
  | i, some p, b :: rest =>
    if p.low ≤ b.toNat ∧ b.toNat ≤ p.high then
      let bits := 64 * p.bits + (b.toNat - 0x80)
      if p.owed = 1 then (decodeFrom (i + 1) none rest).map (Char.ofNat bits :: ·)
      else
        decodeFrom (i + 1)
          (some { p with had := p.had + 1, owed := p.owed - 1, low := 0x80, high := 0xBF, bits })
          rest
    else .error (.invalid p.start p.had)

def decode (bytes : List UInt8) : Except Fault (List Char) :=
  decodeFrom 0 none bytes

def encode (cs : List Char) : List UInt8 :=
  cs.flatMap String.utf8EncodeChar

end LanguageClient.Utf8
