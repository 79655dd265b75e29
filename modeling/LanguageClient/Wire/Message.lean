import LanguageClient.Json.Reader
import LanguageClient.Json.Record
import LanguageClient.Decimal.Word

namespace LanguageClient

open Json (Field record? natural? string? any? signed32?)

inductive RequestId
  | number (n : Nat)
  | name (s : String)
  deriving DecidableEq, Repr, Inhabited

/-- The number of an id. Some servers send a number back as a string. -/
def RequestId.number? : RequestId → Option Nat
  | number n => some n
  | name s => (Decimal.readWord s.toList).toOption

def RequestId.read? : Json → Option RequestId
  | .string s => some (name s)
  | v => (natural? word64 v).map number

def RequestId.toJson : RequestId → Json
  | number n => .ofNat n
  | name s => .string s

def formatVersion : String := "2.0"

structure Request where
  format : String
  id : RequestId
  method : String
  params : Option Json
  deriving DecidableEq, Repr

structure Notification where
  format : String
  method : String
  params : Option Json
  deriving DecidableEq, Repr

structure ResponseError where
  code : Int
  message : String
  data : Option Json
  deriving DecidableEq, Repr

structure Response where
  format : String
  id : Option RequestId
  result : Option Json
  error : Option ResponseError
  deriving DecidableEq, Repr

namespace ErrorCode

def parseError : Int := -32700
def methodNotFound : Int := -32601
def invalidParams : Int := -32602
def internalError : Int := -32603
def serverNotReady : Int := -32002
def requestCancelled : Int := -32800
def contentModified : Int := -32801

end ErrorCode

namespace Request

def new (id : Nat) (method : String) (params : Option Json) : Request :=
  ⟨formatVersion, .number id, method, params⟩

def read? (v : Json) : Option Request := do
  let r ← record? ["jsonrpc", "id", "method", "params"] v
  return ⟨← r.need "jsonrpc" string?, ← r.need "id" RequestId.read?, ← r.need "method" string?,
    ← r.optional "params" any?⟩

def toJson (m : Request) : Json :=
  .ofPresent [("jsonrpc", some (.string m.format)), ("id", some m.id.toJson),
    ("method", some (.string m.method)), ("params", m.params)]

end Request

namespace Notification

def new (method : String) (params : Option Json) : Notification :=
  ⟨formatVersion, method, params⟩

def read? (v : Json) : Option Notification := do
  let r ← record? ["jsonrpc", "method", "params"] v
  return ⟨← r.need "jsonrpc" string?, ← r.need "method" string?, ← r.optional "params" any?⟩

def toJson (m : Notification) : Json :=
  .ofPresent [("jsonrpc", some (.string m.format)), ("method", some (.string m.method)),
    ("params", m.params)]

end Notification

namespace ResponseError

def new (code : Int) (message : String) : ResponseError :=
  ⟨code, message, none⟩

def methodNotFound (method : String) : ResponseError :=
  new ErrorCode.methodNotFound s!"Method not found: {method}"

def display (e : ResponseError) : String :=
  s!"[{e.code}] {e.message}"

def read? (v : Json) : Option ResponseError := do
  let r ← record? ["code", "message", "data"] v
  return ⟨← r.need "code" signed32?, ← r.need "message" string?, ← r.optional "data" any?⟩

def toJson (e : ResponseError) : Json :=
  .ofPresent [("code", some (.integer e.code)), ("message", some (.string e.message)),
    ("data", e.data)]

end ResponseError

namespace Response

def success (id : RequestId) (result : Json) : Response :=
  ⟨formatVersion, some id, some result, none⟩

def failure (id : RequestId) (error : ResponseError) : Response :=
  ⟨formatVersion, some id, none, some error⟩

/-- An error counts before a result, and neither means null. -/
def outcome (m : Response) : Except ResponseError Json :=
  match m.error with
  | some e => .error e
  | none => .ok (m.result.getD .null)

def read? (v : Json) : Option Response := do
  let r ← record? ["jsonrpc", "id", "result", "error"] v
  return ⟨← r.need "jsonrpc" string?, ← r.optional "id" RequestId.read?,
    ← r.optional "result" any?, ← r.optional "error" ResponseError.read?⟩

def toJson (m : Response) : Json :=
  .ofPresent [("jsonrpc", some (.string m.format)), ("id", some (m.id.elim .null RequestId.toJson)),
    ("result", m.result), ("error", m.error.map ResponseError.toJson)]

end Response

inductive Message
  | request (m : Request)
  | response (m : Response)
  | notification (m : Notification)
  deriving DecidableEq, Repr

namespace Message

def read? (v : Json) : Option Message :=
  match (v.get? "id").isSome, (v.get? "method").isSome with
  | true, true => (Request.read? v).map request
  | true, false => (Response.read? v).map response
  | false, true => (Notification.read? v).map notification
  | false, false => none

def toJson : Message → Json
  | request m => m.toJson
  | response m => m.toJson
  | notification m => m.toJson

def ofText? (text : String) : Option Message :=
  (Json.read? text).bind read?

end Message

end LanguageClient
