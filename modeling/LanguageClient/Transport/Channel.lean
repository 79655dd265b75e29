namespace LanguageClient

inductive SendFault
  | closed
  | refused
  | endDropped
  deriving DecidableEq, Repr

def SendFault.message : SendFault → String
  | closed => "Transport closed"
  | refused => "Transport refused message"
  | endDropped => "Server end dropped"

structure Channel (α : Type) where
  nextSubscription : Nat
  subscribers : List (Nat × α)
  closed : Bool
  refusing : Bool
  serverGone : Bool
  waiting : List String
  deriving Repr

namespace Channel

variable {α : Type}

def new : Channel α := ⟨0, [], false, false, false, []⟩

instance : Inhabited (Channel α) := ⟨new⟩

def subscribe (c : Channel α) (subscriber : α) : Nat × Channel α :=
  (c.nextSubscription,
    { c with
      nextSubscription := c.nextSubscription + 1
      subscribers := c.subscribers ++ [(c.nextSubscription, subscriber)] })

def unsubscribe (c : Channel α) (id : Nat) : Channel α :=
  { c with subscribers := c.subscribers.filter (·.1 != id) }

def audience (c : Channel α) : List α :=
  c.subscribers.map Prod.snd

def sendFault? (c : Channel α) : Option SendFault :=
  if c.closed then some .closed
  else if c.refusing then some .refused
  else if c.serverGone then some .endDropped
  else none

def send (c : Channel α) (message : String) : Except SendFault (Channel α) :=
  match c.sendFault? with
  | some fault => .error fault
  | none => .ok { c with waiting := c.waiting ++ [message] }

def take? (c : Channel α) : Option (String × Channel α) :=
  match c.waiting with
  | [] => none
  | m :: rest => some (m, { c with waiting := rest })

def close (c : Channel α) : Channel α := { c with closed := true }

def refuse (c : Channel α) (on : Bool) : Channel α := { c with refusing := on }

def dropServer (c : Channel α) : Channel α := { c with serverGone := true, waiting := [] }

end Channel

end LanguageClient
