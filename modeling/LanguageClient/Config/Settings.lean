import LanguageClient.Decimal.Rounding
import LanguageClient.Json.Record

namespace LanguageClient

open Json (Field record? natural? string? bool? real? any?)

structure RetrySettings where
  maxAttempts : Nat
  initialDelayMs : Nat
  maxDelayMs : Nat
  backoffFactor : Float
  deriving DecidableEq, Repr

namespace RetrySettings

def standard : RetrySettings :=
  ⟨3, 100, 5000, 2.0⟩

def fields : List Field :=
  [⟨"max_attempts", true⟩, ⟨"initial_delay_ms", true⟩, ⟨"max_delay_ms", true⟩,
    ⟨"backoff_factor", true⟩]

def read? (v : Json) : Option RetrySettings := do
  let r ← record? fields v
  return {
    maxAttempts := ← r.orElse "max_attempts" standard.maxAttempts (natural? word32)
    initialDelayMs := ← r.orElse "initial_delay_ms" standard.initialDelayMs (natural? word64)
    maxDelayMs := ← r.orElse "max_delay_ms" standard.maxDelayMs (natural? word64)
    backoffFactor := ← r.orElse "backoff_factor" standard.backoffFactor real? }

def toJson (s : RetrySettings) : Json :=
  .ofFields [("max_attempts", .ofNat s.maxAttempts),
    ("initial_delay_ms", .ofNat s.initialDelayMs), ("max_delay_ms", .ofNat s.maxDelayMs),
    ("backoff_factor", .real s.backoffFactor)]

end RetrySettings

structure Settings where
  timeoutMs : Nat
  clientName : String
  rootUri : Option String
  options : Option Json
  /-- Documents of up to so many bytes are always sent whole. -/
  fullSyncThreshold : Nat
  enforceCapabilities : Bool
  retry : RetrySettings
  deriving DecidableEq, Repr

inductive ConfigError
  | parse (detail : String)
  | invalidValue (key problem : String)
  | notText
  deriving DecidableEq, Repr

def ConfigError.message : ConfigError → String
  | parse detail => s!"Config parse error: {detail}"
  | invalidValue key problem => s!"Invalid value for '{key}': {problem}"
  | notText => "stream did not contain valid UTF-8"

inductive Operation
  | request
  | handshake
  | shutdown
  deriving DecidableEq, Repr

namespace Operation

def ofMethod : String → Operation
  | "initialize" => handshake
  | "shutdown" => shutdown
  | _ => request

def share : Operation → Float
  | request => 1.0
  | handshake => 2.0
  | shutdown => 0.5

end Operation

namespace Settings

def standard : Settings :=
  ⟨3000, "tether", none, none, 1024, true, .standard⟩

instance : Inhabited Settings := ⟨standard⟩

def fields : List Field :=
  [⟨"timeout_ms", true⟩, ⟨"client_name", true⟩, ⟨"root_uri", true⟩,
    ⟨"initialization_options", true⟩, ⟨"full_sync_threshold", true⟩,
    ⟨"enforce_capabilities", true⟩, ⟨"retry", true⟩]

def read? (v : Json) : Option Settings := do
  let r ← record? fields v
  return {
    timeoutMs := ← r.orElse "timeout_ms" standard.timeoutMs (natural? word64)
    clientName := ← r.orElse "client_name" standard.clientName string?
    rootUri := ← r.optional "root_uri" string?
    options := ← r.optional "initialization_options" any?
    fullSyncThreshold := ← r.orElse "full_sync_threshold" standard.fullSyncThreshold (natural? word64)
    enforceCapabilities := ← r.orElse "enforce_capabilities" standard.enforceCapabilities bool?
    retry := ← r.orElse "retry" standard.retry RetrySettings.read? }

def toJson (s : Settings) : Json :=
  .ofPresent [("timeout_ms", some (.ofNat s.timeoutMs)),
    ("client_name", some (.string s.clientName)), ("root_uri", s.rootUri.map .string),
    ("initialization_options", s.options),
    ("full_sync_threshold", some (.ofNat s.fullSyncThreshold)),
    ("enforce_capabilities", some (.bool s.enforceCapabilities)), ("retry", some s.retry.toJson)]

def validate (s : Settings) : Except ConfigError Settings :=
  if s.timeoutMs = 0 then .error (.invalidValue "timeout_ms" "must be greater than zero")
  else if s.retry.maxAttempts = 0 then
    .error (.invalidValue "retry.max_attempts" "must be at least 1")
  else if s.retry.backoffFactor < 1.0 then
    .error (.invalidValue "retry.backoff_factor" "must be at least 1.0")
  else .ok s

def baseSeconds (s : Settings) : Float :=
  Float.ofNat (s.timeoutMs / 1000) + Float.ofNat (s.timeoutMs % 1000 * 1000000) / 1e9

def timeoutFor (s : Settings) (method : String) : Nat :=
  Decimal.roundScaled (s.baseSeconds * (Operation.ofMethod method).share) 1000000000

end Settings

end LanguageClient
