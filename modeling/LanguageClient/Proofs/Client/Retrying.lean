import LanguageClient.Proofs.Client.Cancellation
import LanguageClient.Proofs.Client.Happening
import LanguageClient.Proofs.Retry

namespace LanguageClient

namespace Client

variable {c : Client} {x : Act} {acts : List Act} {key : String}

section CancelledKeys

theorem cancelledKeys_teardown (c : Client) : c.teardown.cancelledKeys = c.cancelledKeys := by
  rw [teardown]
  dsimp only
  split <;> rfl

theorem cancelledKeys_detach (c : Client) (generation : Nat) :
    (c.detach generation).cancelledKeys = c.cancelledKeys := by
  rw [detach]
  split
  · exact c.cancelledKeys_teardown
  · rfl

theorem cancelledKeys_drop (c : Client) : c.drop.cancelledKeys = c.cancelledKeys := by
  rw [drop]
  dsimp only
  split <;> rfl

theorem cancelledKeys_of_startRequest {c c' : Client} {method : String} {params : Option Json}
    {key : Option String} {id : Nat} (h : c.startRequest method params key = .ok (id, c')) :
    c'.cancelledKeys = c.cancelledKeys := by
  obtain ⟨lines, queue, rfl⟩ := exists_of_startRequest h
  rfl

theorem cancelledKeys_finishConnect (c : Client) (generation : Nat) (outcome : Outcome) :
    (c.finishConnect generation outcome).2.cancelledKeys = c.cancelledKeys := by
  cases c.finishCourse generation outcome with
  | @fails _ gate _ _ hfinish =>
    rw [hfinish]
    exact cancelledKeys_detach { c with gate } generation
  | completes _ _ hdone hfinish =>
    obtain ⟨documents, lines, rfl⟩ := exists_of_completeHandshake hdone
    rw [hfinish]

theorem cancelledKeys_beginShutdown (c : Client) :
    (c.act .beginShutdown).cancelledKeys = c.cancelledKeys := by
  rw [act]
  cases c.shutdownCourse with
  | asks _ hstart hshutdown =>
    rw [hshutdown]
    exact cancelledKeys_of_startRequest hstart
  | letsGo _ hshutdown =>
    rw [hshutdown]
    exact c.cancelledKeys_teardown

theorem cancelledKeys_act (h : ∀ key, x ≠ .cancel key) :
    (c.act x).cancelledKeys = c.cancelledKeys := by
  by_cases hlocal : x.isLocal = true
  · obtain ⟨documents, lines, queue, handlers, hact⟩ := c.exists_of_isLocal hlocal
    rw [hact]
  · cases x with
    | cancel key => exact absurd rfl (h key)
    | startMapped method params key =>
      obtain ⟨documents, requests, lines, queue, hact⟩ := c.exists_startMapped method params key
      rw [hact]
    | request method params key =>
      rw [act]
      cases hstart : c.startRequest method params key with
      | error e => rfl
      | ok started => exact cancelledKeys_of_startRequest hstart
    | write now =>
      obtain ⟨requests, transports, lines, hact⟩ := c.exists_write now
      rw [hact]
    | receive raw =>
      obtain ⟨requests, gate, lines, hact⟩ := c.exists_receive raw
      rw [act, hact]
    | beginConnect transport =>
      obtain ⟨lines, hact⟩ := c.exists_beginConnect transport
      rw [act, hact]
      exact c.cancelledKeys_teardown
    | finishConnect generation outcome => exact c.cancelledKeys_finishConnect generation outcome
    | disconnect => exact c.cancelledKeys_teardown
    | beginShutdown => exact c.cancelledKeys_beginShutdown
    | forget | sweep | addTransport | happen => rfl
    | _ => exact absurd rfl hlocal

theorem isCancelled_act (h : c.isCancelled key = true) (x : Act) :
    (c.act x).isCancelled key = true := by
  by_cases hcancel : ∃ key', x = .cancel key'
  · obtain ⟨key', rfl⟩ := hcancel
    rw [act, isCancelled_cancel, h, Bool.or_true]
  · rw [isCancelled, cancelledKeys_act fun key' hx => hcancel ⟨key', hx⟩]
    exact h

end CancelledKeys

theorem requests_drop (c : Client) : c.drop.requests = c.requests.abandon := by
  rw [drop]
  dsimp only
  split <;> rfl

end Client

def Job.retries? : Job → Option Call
  | .request call _ | .finishRequest call _ _ => if call.retry.isSome then some call else none
  | _ => none

namespace Agenda

open Client (Act)

variable {a : Agenda} {hs : List Happening} {key : String} {call : Call} {id : Nat}

theorem stable_isCancelled (key : String) : Stable fun c => c.isCancelled key = true where
  act h := Client.isCancelled_act h _
  drop {c} h := by
    rw [Client.isCancelled, c.cancelledKeys_drop]
    exact h
  transports h := h

theorem isCancelled_run_of_mem {acts : List Act} (hacts : .acts acts ∈ hs)
    (hcancel : .cancel key ∈ acts) : (a.run hs).client.isCancelled key = true := by
  obtain ⟨before, after, rfl⟩ := List.append_of_mem hacts
  obtain ⟨earlier, later, rfl⟩ := List.append_of_mem hcancel
  rw [run_append]
  refine (stable_isCancelled key).run
    (a := (a.run before).happen (.acts (earlier ++ .cancel key :: later))) ?_ after
  change (Client.run _ _).isCancelled key = true
  rw [Client.run_append]
  refine (stable_isCancelled key).run_acts (c := Client.act _ (.cancel key)) ?_ later
  rw [Client.act, Client.isCancelled_cancel, beq_self_eq_true, Bool.true_or]

section Turn

theorem exists_dropIfUnused (a : Agenda) : ∃ handles,
    a.dropIfUnused.client.requests = { a.client.requests with handles } := by
  rw [dropIfUnused]
  split
  next => exact ⟨_, a.client.requests_drop⟩
  next => exact ⟨_, rfl⟩

theorem exists_finish (a : Agenda) (id : Nat) (report : Option Report) : ∃ handles,
    (a.finish id report).client.requests = { a.client.requests with handles } := by
  unfold finish
  dsimp only
  split <;> exact exists_dropIfUnused _

variable (hretry : call.retry.isSome = true) (hcancelled : a.client.isCallCancelled call = true)
include hretry hcancelled

theorem requestTurn_of_isCallCancelled (id attempt : Nat) :
    a.requestTurn id call attempt = a.finish id (some (.answered (.error .cancelled))) := by
  rw [requestTurn, Client.attempt, hretry, hcancelled]
  rfl

theorem finishRequestTurn_of_isCallCancelled (id attempt : Nat) (outcome : Outcome) :
    a.finishRequestTurn id call attempt outcome =
      a.finish id (some (.answered (call.shape.ofOutcome outcome))) := by
  rw [finishRequestTurn]
  cases call.shape.ofOutcome outcome with
  | ok v => rfl
  | error e =>
    obtain ⟨p, hp⟩ := Option.isSome_iff_exists.mp hretry
    have hdelay : a.client.retryDelay? call attempt e = none := by
      rw [Client.retryDelay?, hp, hcancelled]
      exact RetryPolicy.nextDelay?_eq_none_iff.mpr (.inl (by simp))
    dsimp only
    rw [hdelay]

omit hretry in
theorem exists_turn_of_isCallCancelled {job : Job} (hjob : job.retries? = some call) (id : Nat) :
    ∃ handles, (a.turn id job).client.requests = { a.client.requests with handles } := by
  cases job with
  | request call' attempt =>
    obtain ⟨hretry, hsame⟩ := Option.ite_none_right_eq_some.mp hjob
    cases hsame
    rw [turn, requestTurn_of_isCallCancelled hretry hcancelled]
    exact a.exists_finish id _
  | finishRequest call' attempt request =>
    obtain ⟨hretry, hsame⟩ := Option.ite_none_right_eq_some.mp hjob
    cases hsame
    rw [turn, withOutcome]
    split
    next outcome _ =>
      let forgot : Agenda := { a with client := a.client.forget request }
      rw [finishRequestTurn_of_isCallCancelled (a := forgot) hretry hcancelled]
      exact forgot.exists_finish id _
    next => exact ⟨_, rfl⟩
  | _ => cases hjob

end Turn

/-- Retrying ends with the first attempt that succeeds, fails for good or is the last one allowed, and
each retry before it waits once. And a call stops asking as soon as its key is cancelled: whether it
has yet to begin, waits for an answer or waits to try again, none of its turns does more to the
requests than let go of the handle of one. -/
theorem retrying_stops :
    (∀ {ε α : Type} (p : RetryPolicy) (retryable : ε → Bool) (outcome : Nat → Except ε α),
      ∃ k, IsLeast {k | (∃ v, outcome k = .ok v) ∨
          (∃ e, outcome k = .error e ∧ retryable e = false) ∨ k = max 1 p.maxAttempts - 1} k ∧
        (RetryRun.run p retryable outcome).result = outcome k ∧
        (RetryRun.run p retryable outcome).steps.count .attempt = k + 1 ∧
        (RetryRun.run p retryable outcome).steps = .attempt :: (List.range k).flatMap fun i =>
          [RetryStep.sleep (p.delay (i + 1)), .attempt]) ∧
    (∀ (p : RetryPolicy) (k : Nat), p.delay k ≤ p.maxDelay) ∧
    ∀ (a : Agenda) (hs : List Happening) (acts : List Act) (key : String) (call : Call),
      .acts acts ∈ hs → .cancel key ∈ acts → call.key = some key →
      ∀ id e, (a.run hs).line.head? = some id → Table.get? id (a.run hs).errands = some e →
        e.job.retries? = some call →
          ∃ handles, (a.run (hs ++ [.next])).client.requests =
            { (a.run hs).client.requests with handles } := by
  refine ⟨fun p retryable outcome => ?_, RetryPolicy.delay_le,
    fun a hs acts key call hacts hcancel hkey id e hline herrand hjob => ?_⟩
  · obtain ⟨k, hleast, hrun⟩ := RetryRun.exists_run p retryable outcome
    refine ⟨k, ?_, ?_, ?_, ?_⟩
    · rw [Nat.max_comm]
      exact hleast
    · rw [hrun]
    · rw [hrun, List.count_cons_self, RetryRun.count_attempt_retries]
    · rw [hrun, RetryRun.retries]
      simp only [Nat.zero_add]
  · have hcancelled : (a.run hs).client.isCallCancelled call = true := by
      rw [Client.isCallCancelled, hkey]
      exact isCancelled_run_of_mem hacts hcancel
    have hnext : (a.run hs).next? = some { (a.run hs).turn id e.job with
        line := ((a.run hs).turn id e.job).line.erase id } := by
      rw [next?, hline, Option.map_some, herrand]
    rw [run_append]
    change ∃ handles, ((a.run hs).next?.getD (a.run hs)).client.requests = _
    rw [hnext]
    exact exists_turn_of_isCallCancelled hcancelled hjob id

theorem retrying_stops_of_cancelled_attempt :
    let call : Call := ⟨"workspace/symbol", none, some "search", .any, some .standard⟩
    let a := Agenda.new .standard .exclusive 1 .rising
    let hs : List Happening := [.spawn (some "symbols") (.request call 0), .next, .next,
      .acts [.cancel "search"]]
    (a.run hs).line.head? = some 1 ∧
      Table.get? 1 (a.run hs).errands = some ⟨some "symbols", .finishRequest call 0 1⟩ ∧
      (a.run hs).client.requests.nextId = 2 ∧
      ∃ handles, (a.run (hs ++ [.next])).client.requests =
        { (a.run hs).client.requests with handles } := by
  intro call a hs
  have hline : (a.run hs).line.head? = some 1 := by decide +kernel
  have herrand : Table.get? 1 (a.run hs).errands =
      some ⟨some "symbols", .finishRequest call 0 1⟩ := rfl
  refine ⟨hline, herrand, rfl, ?_⟩
  exact retrying_stops.2.2 a hs [.cancel "search"] "search" call (by simp [hs]) List.mem_cons_self rfl
    1 _ hline herrand rfl

end Agenda

end LanguageClient
