import LanguageClient.Client.Turn
import LanguageClient.Proofs.Client.Act

namespace LanguageClient

namespace Agenda

inductive Happening
  | acts (acts : List Client.Act)
  | spawn (name : Option String) (job : Job)
  | receive (raw : String)
  | deliver (transport : Nat) (raw : String)
  | addTransport (channel : Channel Unit)
  | takeSent
  | takeReports
  | keep (name : String) (m : Mapping)
  | discard (name : String) (m : Mapping)
  | release
  | next
  | pass (later : Nat)

def happen (a : Agenda) : Happening → Agenda
  | .acts acts => a.update (a.client.run acts)
  | .spawn name job => a.spawn name job
  | .receive raw => (a.receive raw).2
  | .deliver transport raw => (a.deliver transport raw).2
  | .addTransport channel => (a.addTransport channel).2
  | .takeSent => a.takeSent.2
  | .takeReports => a.takeReports.2
  | .keep name m => a.keep name m
  | .discard name m => a.discard name m
  | .release => a.release
  | .next => a.next?.getD a
  | .pass later => ({ a with now := later } : Agenda).ring

def run (a : Agenda) (hs : List Happening) : Agenda :=
  hs.foldl happen a

theorem run_append (a : Agenda) (hs more : List Happening) :
    a.run (hs ++ more) = (a.run hs).run more :=
  List.foldl_append

structure Stable (P : Client → Prop) : Prop where
  act : ∀ {c : Client} {x : Client.Act}, P c → P (c.act x)
  drop : ∀ {c : Client}, P c → P c.drop
  transports : ∀ {c : Client} {transports}, P c → P { c with transports }

namespace Stable

variable {P : Client → Prop} (hP : Stable P) {a : Agenda}
include hP

theorem run_acts {c : Client} (h : P c) (acts : List Client.Act) : P (c.run acts) := by
  induction acts generalizing c with
  | nil => exact h
  | cons x acts ih => exact ih (hP.act h)

theorem of_act {x : Client.Act} {client : Client} (h : P a.client) (hact : a.client.act x = client) :
    P client :=
  hact ▸ hP.act h

theorem dropIfUnused (h : P a.client) : P a.dropIfUnused.client := by
  rw [Agenda.dropIfUnused]
  split
  · exact hP.drop h
  · exact h

theorem finish (h : P a.client) (id : Nat) (report : Option Report) :
    P (a.finish id report).client := by
  unfold Agenda.finish
  refine hP.dropIfUnused ?_
  dsimp only
  split <;> exact h

theorem keep (h : P a.client) (name : String) (m : Mapping) : P (a.keep name m).client := by
  rw [Agenda.keep]
  dsimp only
  split
  next old _ => exact hP.act (x := .release old) h
  next => exact h

section Turn

theorem writeAll (n : Nat) (h : P a.client) : P (a.writeAll n).client := by
  induction n generalizing a with
  | zero => exact h
  | succ n ih =>
    rw [Agenda.writeAll]
    cases hwrite : a.client.write? (nanoseconds a.now) with
    | none => exact h
    | some client => exact ih (hP.of_act h (Client.act_write hwrite))

theorem sweepTurn (h : P a.client) (id : Nat) : P (a.sweepTurn id).client := by
  rw [Agenda.sweepTurn]
  split
  next =>
    have hact := hP.act (x := .sweep (nanoseconds a.now)) h
    dsimp only
    split <;> exact hact
  next => exact hP.finish h id none

theorem writeTurn (h : P a.client) (id generation : Nat) : P (a.writeTurn id generation).client := by
  rw [Agenda.writeTurn]
  split
  next =>
    split
    next => exact hP.writeAll _ h
    next => exact h
  next => exact hP.finish h id none

theorem respondTurn (h : P a.client) (id : Nat) (question : RequestId)
    (answer : Except ResponseError Json) : P (a.respondTurn id question answer).client := by
  rw [Agenda.respondTurn]
  refine hP.finish ?_ id none
  split
  next => exact hP.act (x := .respond question answer) h
  next => exact h

theorem ponderTurn (h : P a.client) (id : Nat) (q : Question) : P (a.ponderTurn id q).client := by
  rw [Agenda.ponderTurn]
  split
  next => exact hP.respondTurn h id q.id q.answer
  next => exact h

theorem connectTurn (h : P a.client) (id transport : Nat) : P (a.connectTurn id transport).client :=
  hP.act (x := .beginConnect transport) h

theorem leaveTurn (h : P a.client) (id : Nat) (result : Except ClientError Unit) :
    P (a.leaveTurn id result).client :=
  hP.finish (a := a.update a.client.disconnect) (hP.act (x := .disconnect) h) id _

theorem finishShutdownTurn (h : P a.client) (id : Nat) (outcome : Outcome) :
    P (a.finishShutdownTurn id outcome).client := by
  have hact := hP.act (x := .afterShutdown outcome) h
  rw [Client.act] at hact
  rw [Agenda.finishShutdownTurn]
  generalize a.client.afterShutdown outcome = after at hact
  obtain ⟨result, client⟩ := after
  have hleave : ∀ result, P ((a.update client).leaveTurn id result).client :=
    hP.leaveTurn (a := a.update client) hact id
  cases result with
  | error e => exact hleave (.error e)
  | ok =>
    dsimp only
    split
    next =>
      split
      next => exact hleave (.ok ())
      next => exact hact
    next => exact hleave (.ok ())

theorem shutDownTurn (h : P a.client) (id : Nat) : P (a.shutDownTurn id).client := by
  rw [Agenda.shutDownTurn]
  cases hbegin : a.client.beginShutdown with
  | error refused =>
    have hact := hP.of_act h (Client.act_beginShutdown_of_error hbegin)
    exact hP.finish (a := a.update refused.2) hact id _
  | ok started => exact hP.of_act h (Client.act_beginShutdown_of_ok hbegin)

theorem requestTurn (h : P a.client) (id : Nat) (call : Call) (attempt : Nat) :
    P (a.requestTurn id call attempt).client := by
  rw [Agenda.requestTurn]
  cases hattempt : a.client.attempt call with
  | error e => exact hP.finish h id _
  | ok started => exact hP.of_act h (Client.act_request_of_attempt hattempt)

theorem finishRequestTurn (h : P a.client) (id : Nat) (call : Call) (attempt : Nat)
    (outcome : Outcome) : P (a.finishRequestTurn id call attempt outcome).client := by
  rw [Agenda.finishRequestTurn]
  split
  next => exact hP.finish h id _
  next =>
    split
    next => exact hP.finish h id _
    next => exact hP.requestTurn h id call (attempt + 1)
    next => exact h

theorem mappedTurn (h : P a.client) (id : Nat) (call : Call) : P (a.mappedTurn id call).client := by
  rw [Agenda.mappedTurn]
  split
  next =>
    split
    next => exact hP.finish h id _
    next =>
      cases hstart : a.client.startMapped call.method call.params call.key with
      | none => exact h
      | some started =>
        obtain ⟨result, client⟩ := started
        have hact := hP.of_act h (Client.act_startMapped hstart)
        cases result with
        | error e => exact hP.finish (a := a.update client) hact id _
        | ok asked => exact hact
  next => exact h

theorem finishMappedTurn (h : P a.client) (id : Nat) (call : Call) (m : Mapping) (outcome : Outcome) :
    P (a.finishMappedTurn id call m outcome).client := by
  have hact := hP.act (x := .finishMapped call m outcome) h
  unfold Agenda.finishMappedTurn
  refine hP.finish ?_ id _
  split
  next => exact hP.keep hact _ m
  next => exact hact

theorem withOutcome (h : P a.client) (request : Nat) {go : Agenda → Outcome → Agenda}
    (hgo : ∀ {a : Agenda} (outcome : Outcome), P a.client → P (go a outcome).client) :
    P (a.withOutcome request go).client := by
  rw [Agenda.withOutcome]
  split
  next outcome _ => exact hgo outcome (hP.act (x := .forget request) h)
  next => exact h

theorem turn (h : P a.client) (id : Nat) (job : Job) : P (a.turn id job).client := by
  cases job with
  | sweep => exact hP.sweepTurn h id
  | write generation => exact hP.writeTurn h id generation
  | ponder q => exact hP.ponderTurn h id q
  | respond question answer => exact hP.respondTurn h id question answer
  | connect transport => exact hP.connectTurn h id transport
  | finishConnect generation request =>
    refine hP.withOutcome h request fun {a} outcome h => ?_
    exact hP.finish (a := a.update (a.client.finishConnect generation outcome).2)
      (hP.act (x := .finishConnect generation outcome) h) id _
  | shutDown => exact hP.shutDownTurn h id
  | finishShutdown request =>
    exact hP.withOutcome h request fun outcome h => hP.finishShutdownTurn h id outcome
  | leave mark result => exact hP.leaveTurn h id result
  | awaitHandshake =>
    rw [Agenda.turn]
    split
    next => exact hP.finish h id _
    next => exact h
  | awaitOutcome request =>
    exact hP.withOutcome h request fun outcome h => hP.finish h id _
  | request call attempt => exact hP.requestTurn h id call attempt
  | finishRequest call attempt request =>
    exact hP.withOutcome h request fun outcome h => hP.finishRequestTurn h id call attempt outcome
  | mapped call => exact hP.mappedTurn h id call
  | finishMapped call m request =>
    exact hP.withOutcome h request fun outcome h => hP.finishMappedTurn h id call m outcome

end Turn

section Happen

theorem next (h : P a.client) : P (a.next?.getD a).client := by
  cases hnext : a.next? with
  | none => exact h
  | some a' =>
    obtain ⟨id, -, rfl⟩ := Option.map_eq_some_iff.mp hnext
    dsimp only [Option.getD_some]
    split
    next e _ => exact hP.turn h id e.job
    next => exact h

theorem receive (h : P a.client) (raw : String) : P (a.receive raw).2.client := by
  have hact := hP.act (x := .receive raw) h
  rw [Agenda.receive]
  dsimp only
  split <;> exact hact

theorem deliver (h : P a.client) (transport : Nat) (raw : String) :
    P (a.deliver transport raw).2.client := by
  rw [Agenda.deliver]
  split
  next =>
    split
    next => exact h
    next => exact hP.receive h raw
  next => exact h

theorem happen (h : P a.client) (x : Happening) : P (a.happen x).client := by
  cases x with
  | acts acts => exact hP.run_acts h acts
  | spawn | takeReports | pass => exact h
  | receive raw => exact hP.receive h raw
  | deliver transport raw => exact hP.deliver h transport raw
  | addTransport | takeSent => exact hP.transports h
  | keep name m => exact hP.keep h name m
  | discard name m => exact hP.act (x := .release m) h
  | release => exact hP.dropIfUnused (a := { a with held := false }) h
  | next => exact hP.next h

theorem run (h : P a.client) (hs : List Happening) : P (a.run hs).client := by
  induction hs generalizing a with
  | nil => exact h
  | cons x hs ih => exact ih (hP.happen h x)

end Happen

end Stable

end Agenda

end LanguageClient
