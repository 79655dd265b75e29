import LanguageClient.Table

namespace LanguageClient

inductive Json
  | null
  | bool (b : Bool)
  | integer (n : Int)
  | real (x : Float)
  | string (s : String)
  | array (items : List Json)
  | object (fields : List (String × Json))
  deriving Repr, Inhabited

namespace Json

mutual

def decEq : (a b : Json) → Decidable (a = b)
  | null, null => isTrue rfl
  | bool x, bool y => decidable_of_iff (x = y) (by simp)
  | integer x, integer y => decidable_of_iff (x = y) (by simp)
  | real x, real y => decidable_of_iff (x = y) (by simp)
  | string x, string y => decidable_of_iff (x = y) (by simp)
  | array x, array y => have := decEqItems x y; decidable_of_iff (x = y) (by simp)
  | object x, object y => have := decEqFields x y; decidable_of_iff (x = y) (by simp)
  | null, bool _ | null, integer _ | null, real _ | null, string _ | null, array _
  | null, object _ | bool _, null | bool _, integer _ | bool _, real _ | bool _, string _
  | bool _, array _ | bool _, object _ | integer _, null | integer _, bool _ | integer _, real _
  | integer _, string _ | integer _, array _ | integer _, object _ | real _, null | real _, bool _
  | real _, integer _ | real _, string _ | real _, array _ | real _, object _ | string _, null
  | string _, bool _ | string _, integer _ | string _, real _ | string _, array _
  | string _, object _ | array _, null | array _, bool _ | array _, integer _ | array _, real _
  | array _, string _ | array _, object _ | object _, null | object _, bool _
  | object _, integer _ | object _, real _ | object _, string _ | object _, array _ =>
    isFalse (by simp)

def decEqItems : (a b : List Json) → Decidable (a = b)
  | [], [] => isTrue rfl
  | x :: xs, y :: ys =>
    have := decEq x y
    have := decEqItems xs ys
    decidable_of_iff (x = y ∧ xs = ys) (by simp)
  | [], _ :: _ | _ :: _, [] => isFalse (by simp)

def decEqFields : (a b : List (String × Json)) → Decidable (a = b)
  | [], [] => isTrue rfl
  | (k, x) :: xs, (l, y) :: ys =>
    have := decEq x y
    have := decEqFields xs ys
    decidable_of_iff (k = l ∧ x = y ∧ xs = ys) (by simp [and_assoc])
  | [], _ :: _ | _ :: _, [] => isFalse (by simp)

end

instance : DecidableEq Json := decEq

def ofFields (fields : List (String × Json)) : Json :=
  object (Table.ofEntries fields)

def ofPresent (fields : List (String × Option Json)) : Json :=
  ofFields (fields.filterMap fun f => f.2.map (f.1, ·))

def get? (key : String) : Json → Option Json
  | object fields => Table.get? key fields
  | _ => none

def ofNat (n : Nat) : Json :=
  integer n

def strings (items : List String) : Json :=
  array (items.map string)

end Json

end LanguageClient
