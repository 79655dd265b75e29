import LanguageClient.Config.Settings

/-!
Trying again after a failure, with growing delays.

After a failure that may pass, the next attempt waits the initial delay times the factor to the power
of the retries already made, but never more than the longest delay. There are at most `maxAttempts`
attempts, and always one. Delays are nanoseconds; only whole milliseconds of the initial one count.
-/

namespace LanguageClient

structure RetryPolicy where
  maxAttempts : Nat
  initialDelay : Nat
  maxDelay : Nat
  factor : Float
  deriving DecidableEq, Repr

namespace RetryPolicy

def ofSettings (s : RetrySettings) : RetryPolicy :=
  ⟨s.maxAttempts, s.initialDelayMs * 1000000, s.maxDelayMs * 1000000, s.backoffFactor⟩

def standard : RetryPolicy :=
  ofSettings .standard

def once : RetryPolicy :=
  { standard with maxAttempts := 1 }

/-- `x` to the power `n`, by repeated squaring from the lowest bit of `n`. The exponent is a signed word. -/
def power (x : Float) (n : Nat) : Float :=
  if n < word32 / 2 then go 1.0 x n else 1.0 / go 1.0 x (word32 - n)
where
  go (r x : Float) (n : Nat) : Float :=
    let r' := if n % 2 = 1 then r * x else r
    if h : n / 2 = 0 then r' else go r' (x * x) (n / 2)
  termination_by n
  decreasing_by omega

def delay (p : RetryPolicy) (k : Nat) : Nat :=
  if k = 0 then 0
  else
    let ms := (Float.ofNat (p.initialDelay / 1000000) * power p.factor (k - 1)).toUInt64.toNat
    min (ms * 1000000) p.maxDelay

/-- The wait after attempt number `k`, counted from zero, failed; none if it was the last. -/
def nextDelay? (p : RetryPolicy) (k : Nat) (retryable : Bool) : Option Nat :=
  if retryable && k + 1 < max p.maxAttempts 1 then some (p.delay (k + 1)) else none

theorem lt_of_nextDelay? {p : RetryPolicy} {k d : Nat} {retryable : Bool}
    (h : p.nextDelay? k retryable = some d) : k + 1 < max p.maxAttempts 1 := by
  rw [nextDelay?] at h
  split at h
  next hmore => exact of_decide_eq_true (Bool.and_eq_true_iff.mp hmore).2
  next => cases h

end RetryPolicy

inductive RetryStep
  | attempt
  | sleep (ns : Nat)
  deriving DecidableEq, Repr

structure RetryRun (ε α : Type) where
  result : Except ε α
  steps : List RetryStep

namespace RetryRun

variable {ε α : Type}

def runFrom (p : RetryPolicy) (retryable : ε → Bool) (outcome : Nat → Except ε α) (k : Nat) :
    RetryRun ε α :=
  match outcome k with
  | .ok a => ⟨.ok a, [.attempt]⟩
  | .error e =>
    match h : p.nextDelay? k (retryable e) with
    | none => ⟨.error e, [.attempt]⟩
    | some d =>
      let rest := runFrom p retryable outcome (k + 1)
      ⟨rest.result, .attempt :: .sleep d :: rest.steps⟩
termination_by max p.maxAttempts 1 - k
decreasing_by
  have hlt := RetryPolicy.lt_of_nextDelay? h
  omega

def run (p : RetryPolicy) (retryable : ε → Bool) (outcome : Nat → Except ε α) : RetryRun ε α :=
  runFrom p retryable outcome 0

def startsFrom (now : Nat) : List RetryStep → List Nat
  | [] => []
  | .attempt :: rest => now :: startsFrom now rest
  | .sleep ns :: rest => startsFrom (now + ns) rest

def times (r : RetryRun ε α) : List Nat :=
  startsFrom 0 r.steps

end RetryRun

end LanguageClient
