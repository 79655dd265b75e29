import LanguageClient.Json.Basic
import LanguageClient.Word

/-!
Records with named fields, read from and written to values.

A record is read from an object, where fields it does not know are ignored, or from an array that
holds its fields in declaration order. An optional field may be missing or null; in the array form it
must be there, unless the field has a default. Null is never a value of its own in an optional field.
-/

namespace LanguageClient.Json

structure Field where
  name : String
  hasDefault : Bool
  deriving DecidableEq, Repr

instance : Coe String Field := ⟨(⟨·, false⟩)⟩

abbrev Record := List (String × Json)

def Record.ofArray? : List Field → List Json → Option Record
  | [], [] => some []
  | [], _ :: _ => none
  | f :: fs, [] => if f.hasDefault then Record.ofArray? fs [] else none
  | f :: fs, v :: vs => (Record.ofArray? fs vs).map ((f.name, v) :: ·)

def record? (fields : List Field) : Json → Option Record
  | object entries => some entries
  | array items => Record.ofArray? fields items
  | _ => none

variable {α : Type}

def Record.need (r : Record) (name : String) (decode : Json → Option α) : Option α :=
  (Table.get? name r).bind decode

def Record.optional (r : Record) (name : String) (decode : Json → Option α) :
    Option (Option α) :=
  match Table.get? name r with
  | none | some null => some none
  | some v => (decode v).map some

def Record.orElse (r : Record) (name : String) (default : α) (decode : Json → Option α) :
    Option α :=
  match Table.get? name r with
  | none => some default
  | some v => decode v

def string? : Json → Option String
  | string s => some s
  | _ => none

def bool? : Json → Option Bool
  | bool b => some b
  | _ => none

def natural? (bound : Nat) : Json → Option Nat
  | integer (.ofNat n) => if n < bound then some n else none
  | _ => none

def signed32? : Json → Option Int
  | integer n => if -2147483648 ≤ n ∧ n < 2147483648 then some n else none
  | _ => none

def real? : Json → Option Float
  | real x => some x
  | integer n => some (Float.ofInt n)
  | _ => none

def list? (decode : Json → Option α) : Json → Option (List α)
  | array items => items.mapM decode
  | _ => none

def any? (v : Json) : Option Json :=
  some v

end LanguageClient.Json
