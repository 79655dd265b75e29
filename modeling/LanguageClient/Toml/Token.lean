namespace LanguageClient.Toml

inductive Token
  | bare (cs : List Char)
  | quoted (s : String) (multiLine : Bool)
  | openSquare (tight : Bool)
  | closeSquare (tight : Bool)
  | openCurly
  | closeCurly
  | equals
  | comma
  | newline
  deriving DecidableEq, Repr

structure Style where
  escapes : Bool
  multiLine : Bool
  deriving DecidableEq, Repr

def Style.quote (s : Style) : Char :=
  if s.escapes then '"' else '\''

/-- What is under way; characters are kept last first. -/
inductive Scan
  | outside (previous : Char)
  | comment
  | bare (cs : List Char)
  | afterDate (cs : List Char)
  | carriage
  | oneQuote (escapes : Bool)
  | twoQuotes (escapes : Bool)
  | fresh (style : Style)
  | freshReturn (style : Style)
  | inside (style : Style) (cs : List Char) (quotes : Nat)
  | insideReturn (style : Style) (cs : List Char)
  | escape (style : Style) (cs : List Char)
  | code (style : Style) (cs : List Char) (owed value : Nat)
  | skip (style : Style) (cs : List Char) (broken : Bool)
  | skipReturn (style : Style) (cs : List Char)
  deriving DecidableEq, Repr

def isSpace (c : Char) : Bool :=
  c == ' ' || c == '\t'

def isBare (c : Char) : Bool :=
  c.isAlphanum || c == '_' || c == '-' || c == '+' || c == '.' || c == ':'

def isPrintable (c : Char) : Bool :=
  c == '\t' || (32 ≤ c.toNat && c.toNat ≠ 127)

def isDate (cs : List Char) : Bool :=
  match cs with
  | [y, y', y'', y''', '-', m, m', '-', d, d'] => [y, y', y'', y''', m, m', d, d'].all Char.isDigit
  | _ => false

def escaped? : Char → Option Char
  | 'b' => some '\x08'
  | 't' => some '\t'
  | 'n' => some '\n'
  | 'f' => some '\x0c'
  | 'r' => some '\r'
  | '"' => some '"'
  | '\\' => some '\\'
  | _ => none

def hexDigit? (c : Char) : Option Nat :=
  if c.isDigit then some (c.toNat - 48)
  else if 'a' ≤ c && c ≤ 'f' then some (c.toNat - 87)
  else if 'A' ≤ c && c ≤ 'F' then some (c.toNat - 55)
  else none

def isScalarValue (n : Nat) : Bool :=
  n < 0xD800 || (0xE000 ≤ n && n < 0x110000)

abbrev Step := Option (Scan × List Token)

def outside? (previous c : Char) : Step :=
  if isSpace c then some (.outside c, [])
  else if c = '\n' then some (.outside c, [.newline])
  else if c = '\r' then some (.carriage, [])
  else if c = '#' then some (.comment, [])
  else if c = '"' then some (.oneQuote true, [])
  else if c = '\'' then some (.oneQuote false, [])
  else if c = '=' then some (.outside c, [.equals])
  else if c = ',' then some (.outside c, [.comma])
  else if c = '[' then some (.outside c, [.openSquare (previous == '[')])
  else if c = ']' then some (.outside c, [.closeSquare (previous == ']')])
  else if c = '{' then some (.outside c, [.openCurly])
  else if c = '}' then some (.outside c, [.closeCurly])
  else if isBare c then some (.bare [c], [])
  else none

def emit (t : Token) : Step → Step
  | some (s, ts) => some (s, t :: ts)
  | none => none

def closeString (cs : List Char) (multiLine : Bool) : Token :=
  .quoted (String.ofList cs.reverse) multiLine

def inside? (style : Style) (cs : List Char) (c : Char) : Step :=
  if c = style.quote then
    if style.multiLine then some (.inside style cs 1, [])
    else some (.outside c, [closeString cs false])
  else if c = '\\' && style.escapes then some (.escape style cs, [])
  else if c = '\n' && style.multiLine then some (.inside style (c :: cs) 0, [])
  else if c = '\r' && style.multiLine then some (.insideReturn style cs, [])
  else if isPrintable c then some (.inside style (c :: cs) 0, [])
  else none

def Scan.step? : Scan → Char → Step
  | outside previous, c => outside? previous c
  | comment, c =>
    if c = '\n' then outside? ' ' c
    else if c = '\r' then some (.carriage, [])
    else if isPrintable c then some (.comment, [])
    else none
  | bare cs, c =>
    if isBare c then some (bare (c :: cs), [])
    else if c = ' ' && isDate cs.reverse then some (afterDate cs, [])
    else emit (.bare cs.reverse) (outside? ' ' c)
  | afterDate cs, c =>
    if c.isDigit then some (bare (c :: ' ' :: cs), [])
    else emit (.bare cs.reverse) (outside? ' ' c)
  | carriage, c => if c = '\n' then outside? ' ' c else none
  | oneQuote escapes, c =>
    if c = Style.quote ⟨escapes, false⟩ then some (twoQuotes escapes, [])
    else inside? ⟨escapes, false⟩ [] c
  | twoQuotes escapes, c =>
    if c = Style.quote ⟨escapes, true⟩ then some (fresh ⟨escapes, true⟩, [])
    else emit (.quoted "" false) (outside? ' ' c)
  | fresh style, c =>
    if c = '\n' then some (inside style [] 0, [])
    else if c = '\r' then some (freshReturn style, [])
    else inside? style [] c
  | freshReturn style, c => if c = '\n' then some (inside style [] 0, []) else none
  | inside style cs 0, c => inside? style cs c
  | inside style cs (q + 1), c =>
    if c = style.quote then if q + 1 < 5 then some (inside style cs (q + 2), []) else none
    else if q + 1 < 3 then inside? style (List.replicate (q + 1) style.quote ++ cs) c
    else emit (closeString (List.replicate (q - 2) style.quote ++ cs) true) (outside? ' ' c)
  | insideReturn style cs, c => if c = '\n' then some (inside style (c :: cs) 0, []) else none
  | escape style cs, c =>
    if c = 'u' then some (code style cs 4 0, [])
    else if c = 'U' then some (code style cs 8 0, [])
    else match escaped? c with
      | some e => some (inside style (e :: cs) 0, [])
      | none =>
        if !style.multiLine then none
        else if c = '\n' then some (skip style cs true, [])
        else if c = '\r' then some (skipReturn style cs, [])
        else if isSpace c then some (skip style cs false, [])
        else none
  | code style cs owed value, c => do
    let value := 16 * value + (← hexDigit? c)
    if owed = 1 then
      if isScalarValue value then some (inside style (Char.ofNat value :: cs) 0, []) else none
    else some (code style cs (owed - 1) value, [])
  | skip style cs broken, c =>
    if isSpace c then some (skip style cs broken, [])
    else if c = '\n' then some (skip style cs true, [])
    else if c = '\r' then some (skipReturn style cs, [])
    else if broken then inside? style cs c
    else none
  | skipReturn style cs, c => if c = '\n' then some (skip style cs true, []) else none

def Scan.finish? : Scan → Option (List Token)
  | outside _ | comment => some []
  | bare cs | afterDate cs => some [.bare cs.reverse]
  | twoQuotes _ => some [.quoted "" false]
  | inside style cs q =>
    if 3 ≤ q then some [closeString (List.replicate (q - 3) style.quote ++ cs) true] else none
  | _ => none

/-- The tokens of a file. A mark of byte order at its start is passed over. -/
def tokens? (cs : List Char) : Option (List Token) := do
  let cs := match cs with
    | '\ufeff' :: rest => rest
    | cs => cs
  let (scan, found) ← cs.foldlM (fun (s, found) c => do
    let (s', ts) ← Scan.step? s c
    return (s', ts.reverse ++ found)) (Scan.outside '\n', [])
  return found.reverse ++ (← scan.finish?)

end LanguageClient.Toml
