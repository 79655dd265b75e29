import LanguageClient.Decimal.Word
import LanguageClient.Text.Blank
import LanguageClient.Text.Utf8

/-!
Messages in a stream of bytes.

A frame is header lines, a blank line, and a body whose length in bytes one of the headers gives. The
last such header counts, and other headers are ignored. Reading returns what is left of the stream also
where it fails, so that one bad frame does not lose the next.
-/

namespace LanguageClient.Framing

inductive Fault
  | closed
  | bodyCutShort
  | noLength
  | badLength (fault : Decimal.WordFault)
  | badText (fault : Utf8.Fault)
  deriving DecidableEq, Repr

def Fault.message : Fault → String
  | closed => "Server closed connection"
  | bodyCutShort => "early eof"
  | noLength => "Missing Content-Length"
  | badLength fault => fault.message
  | badText fault => fault.message

def Fault.isEnd : Fault → Bool
  | closed | bodyCutShort => true
  | _ => false

def newline : UInt8 := 10

def splitLine : List UInt8 → List UInt8 × List UInt8
  | [] => ([], [])
  | b :: rest =>
    if b = newline then ([b], rest)
    else
      let (line, rest') := splitLine rest
      (b :: line, rest')

theorem splitLine_append (bs : List UInt8) : (splitLine bs).1 ++ (splitLine bs).2 = bs := by
  induction bs with
  | nil => rfl
  | cons b rest ih => by_cases h : b = newline <;> simp [splitLine, h, ih]

theorem length_splitLine (b : UInt8) (rest : List UInt8) :
    (splitLine (b :: rest)).2.length < (b :: rest).length := by
  have h := congrArg List.length (splitLine_append rest)
  by_cases hb : b = newline
  · simp [splitLine, hb]
  · simp [splitLine, hb] at h ⊢
    omega

def lengthKey : List Char := "Content-Length:".toList

inductive Header
  | blank
  | length (n : Nat)
  | other
  deriving DecidableEq, Repr

def Header.ofLine (line : List UInt8) : Except Fault Header :=
  match Utf8.decode line with
  | .error fault => .error (.badText fault)
  | .ok cs =>
    let cs := Text.trim cs
    if cs = [] then .ok .blank
    else match Text.after? lengthKey cs with
      | none => .ok .other
      | some value =>
        match Decimal.readWord (Text.trim value) with
        | .ok n => .ok (.length n)
        | .error fault => .error (.badLength fault)

def readHeaders (found : Option Nat) : List UInt8 → Except Fault Nat × List UInt8
  | [] => (.error .closed, [])
  | b :: bs =>
    let rest := (splitLine (b :: bs)).2
    match Header.ofLine (splitLine (b :: bs)).1 with
    | .error fault => (.error fault, rest)
    | .ok .blank => (match found with | some n => .ok n | none => .error .noLength, rest)
    | .ok (.length n) => readHeaders (some n) rest
    | .ok .other => readHeaders found rest
termination_by bs => bs.length
decreasing_by all_goals exact length_splitLine b bs

def read (stream : List UInt8) : Except Fault (List Char) × List UInt8 :=
  match readHeaders none stream with
  | (.error fault, rest) => (.error fault, rest)
  | (.ok n, rest) =>
    if rest.length < n then (.error .bodyCutShort, [])
    else
      match Utf8.decode (rest.take n) with
      | .ok cs => (.ok cs, rest.drop n)
      | .error fault => (.error (.badText fault), rest.drop n)

def readMany : Nat → List UInt8 → List (Except Fault (List Char))
  | 0, _ => []
  | k + 1, stream => (read stream).1 :: readMany k (read stream).2

def write (message : List Char) : List UInt8 :=
  let body := Utf8.encode message
  Utf8.encode (lengthKey ++ ' ' :: (toString body.length).toList ++ "\r\n\r\n".toList) ++ body

end LanguageClient.Framing
