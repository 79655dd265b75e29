import LanguageClient.Wire.Message

namespace LanguageClient

open Json (Field record? natural? string? any? list?)

inductive Severity
  | error
  | warning
  | info
  | log
  | debug
  deriving DecidableEq, Repr

namespace Severity

def code : Severity → Nat
  | error => 1
  | warning => 2
  | info => 3
  | log => 4
  | debug => 5

def read? (v : Json) : Option Severity :=
  match natural? word8 v with
  | some 1 => some error
  | some 2 => some warning
  | some 3 => some info
  | some 4 => some log
  | some 5 => some debug
  | _ => none

def toJson (s : Severity) : Json :=
  .ofNat s.code

end Severity

structure MessageParams where
  severity : Severity
  message : String
  deriving DecidableEq, Repr

namespace MessageParams

def read? (v : Json) : Option MessageParams := do
  let r ← record? ["type", "message"] v
  return ⟨← r.need "type" Severity.read?, ← r.need "message" string?⟩

def toJson (p : MessageParams) : Json :=
  .ofFields [("type", p.severity.toJson), ("message", .string p.message)]

end MessageParams

structure CancelParams where
  id : RequestId
  deriving DecidableEq, Repr

namespace CancelParams

def read? (v : Json) : Option CancelParams := do
  return ⟨← (← record? ["id"] v).need "id" RequestId.read?⟩

def toJson (p : CancelParams) : Json :=
  .ofFields [("id", p.id.toJson)]

end CancelParams

structure Registration where
  id : String
  method : String
  options : Option Json
  deriving DecidableEq, Repr

namespace Registration

def read? (v : Json) : Option Registration := do
  let r ← record? ["id", "method", "registerOptions"] v
  return ⟨← r.need "id" string?, ← r.need "method" string?, ← r.optional "registerOptions" any?⟩

def toJson (x : Registration) : Json :=
  .ofPresent [("id", some (.string x.id)), ("method", some (.string x.method)),
    ("registerOptions", x.options)]

end Registration

structure RegistrationParams where
  registrations : List Registration
  deriving DecidableEq, Repr

namespace RegistrationParams

def read? (v : Json) : Option RegistrationParams := do
  return ⟨← (← record? ["registrations"] v).need "registrations" (list? Registration.read?)⟩

def toJson (p : RegistrationParams) : Json :=
  .ofFields [("registrations", .array (p.registrations.map Registration.toJson))]

end RegistrationParams

structure Unregistration where
  id : String
  method : String
  deriving DecidableEq, Repr

namespace Unregistration

def read? (v : Json) : Option Unregistration := do
  let r ← record? ["id", "method"] v
  return ⟨← r.need "id" string?, ← r.need "method" string?⟩

def toJson (x : Unregistration) : Json :=
  .ofFields [("id", .string x.id), ("method", .string x.method)]

end Unregistration

structure UnregistrationParams where
  unregistrations : List Unregistration
  deriving DecidableEq, Repr

namespace UnregistrationParams

/-- The protocol spells this key so. -/
def key : String := "unregisterations"

def read? (v : Json) : Option UnregistrationParams := do
  return ⟨← (← record? [(key : String)] v).need key (list? Unregistration.read?)⟩

def toJson (p : UnregistrationParams) : Json :=
  .ofFields [(key, .array (p.unregistrations.map Unregistration.toJson))]

end UnregistrationParams

end LanguageClient
