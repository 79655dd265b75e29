import LanguageClient.Capability.Feature
import LanguageClient.Wire.Handshake
import LanguageClient.Wire.ServerNotice

namespace LanguageClient

structure Gate where
  capabilities : Option ServerCapabilities
  registered : List Registration
  deriving DecidableEq, Repr

namespace Gate

def unknown : Gate := ⟨none, []⟩

instance : Inhabited Gate := ⟨unknown⟩

/-- A handshake answer: registrations made before it are forgotten. -/
def set (_ : Gate) (capabilities : ServerCapabilities) : Gate :=
  ⟨some capabilities, []⟩

def clear (_ : Gate) : Gate :=
  unknown

def isKnown (g : Gate) : Bool :=
  g.capabilities.isSome

def registerOne (rs : List Registration) (r : Registration) : List Registration :=
  rs.filter (·.id != r.id) ++ [r]

def register (g : Gate) (rs : List Registration) : Gate :=
  { g with registered := rs.foldl registerOne g.registered }

def unregister (g : Gate) (us : List Unregistration) : Gate :=
  { g with registered := us.foldl (fun rs u => rs.filter (·.id != u.id)) g.registered }

def isRegistered (g : Gate) (f : Feature) : Bool :=
  g.registered.any (·.method == f.method)

def isEnabled : Json → Bool
  | .bool b => b
  | .null => false
  | _ => true

def advertises (c : ServerCapabilities) (path : String) : Bool :=
  (c.get? path).any isEnabled

def supports (g : Gate) (f : Feature) : Option Bool :=
  g.capabilities.map fun c => advertises c f.capability || g.isRegistered f

def hasCapability (g : Gate) (path : String) : Option Bool :=
  g.capabilities.map fun c =>
    advertises c path || (Feature.ofCapability? path).any g.isRegistered

/-- Requests without a feature of their own are never refused. -/
def supportsMethod (g : Gate) (method : String) : Option Bool :=
  match Feature.ofMethod? method with
  | some f => g.supports f
  | none => if g.isKnown then some true else none

def registeredSyncKind? (r : Registration) : Option SyncKind :=
  if r.method = "textDocument/didChange" then do
    SyncKind.read? (← (← r.options).get? "syncKind")
  else none

def syncKind (g : Gate) : Option SyncKind :=
  g.capabilities.map fun c => (g.registered.findSome? registeredSyncKind?).getD c.syncKind

def supported (g : Gate) : Option (List Feature) :=
  if g.isKnown then some (Feature.all.filter (g.supports · == some true)) else none

end Gate

end LanguageClient
