import LanguageClient.Proofs.Client.Traffic

/-!
Which connection a client has, and what it believes the server can do.

A `Bond` changes in few ways: the client lets go, attaches anew, completes the handshake of the
connection it has, or learns what a server can do with which it has no connection any more.
Everything else leaves it as it is.
-/

namespace LanguageClient

structure Bond where
  phase : Phase
  attached : Option Nat
  ready : Bool
  generation : Nat
  capabilities : Option ServerCapabilities

namespace Bond

def isReady (b : Bond) : Bool :=
  b.attached.isSome && b.ready

def cut (b : Bond) : Bond :=
  ⟨.disconnected, none, false, b.generation + 1, none⟩

def renew (b : Bond) : Bond :=
  ⟨.connecting, some (b.generation + 1), false, b.generation + 1, none⟩

def learn (b : Bond) (result : InitializeResult) : Bond :=
  { b with capabilities := some result.capabilities }

def complete (b : Bond) (result : InitializeResult) : Bond :=
  { b.learn result with phase := .initialized, ready := true }

/-- What can become of a bond, with the answer to a handshake if one is gone on with: its generation
and what it says. -/
inductive Step : Bond → Option (Nat × InitializeResult) → Bond → Prop
  | keep (b : Bond) : Step b none b
  | cut (b : Bond) : Step b none b.cut
  | renew (b : Bond) : Step b none b.renew
  | complete (b : Bond) {g : Nat} {result : InitializeResult} (hgeneration : b.generation = g)
      (hattached : b.attached.isSome) : Step b (some (g, result)) (b.complete result)
  | late (b : Bond) {g : Nat} {result : InitializeResult} (hgeneration : b.generation ≠ g) :
      Step b (some (g, result)) (b.learn result)
  | lost (b : Bond) {g : Nat} {result : InitializeResult} (hgeneration : b.generation = g)
      (hattached : b.attached = none) : Step b (some (g, result)) b.cut

structure Tied (b : Bond) : Prop where
  phase : b.phase = .initialized ↔ b.isReady = true
  latest : ∀ g, b.attached = some g → b.generation = g

theorem tied_cut (b : Bond) : b.cut.Tied where
  phase := by simp [cut, isReady]
  latest g hg := by cases hg

theorem tied_renew (b : Bond) : b.renew.Tied where
  phase := by simp [renew, isReady]
  latest g hg := by
    cases hg
    rfl

theorem Tied.step {b b' : Bond} (h : b.Tied) {answer : Option (Nat × InitializeResult)}
    (hstep : Step b answer b') : b'.Tied := by
  cases hstep with
  | keep => exact h
  | cut => exact b.tied_cut
  | renew => exact b.tied_renew
  | complete hgeneration hattached =>
    refine ⟨⟨fun _ => ?_, fun _ => rfl⟩, h.latest⟩
    exact Bool.and_eq_true_iff.mpr ⟨hattached, rfl⟩
  | late hgeneration => exact ⟨h.phase, h.latest⟩
  | lost hgeneration hattached => exact b.tied_cut

end Bond

namespace Traffic

def bond (t : Traffic) : Bond :=
  ⟨t.phase, t.attached, t.ready, t.generation, t.capabilities⟩

theorem bond_start (t : Traffic) (f : Frame) : (t.start f).bond = t.bond := by
  rw [start, Wire.enqueue]
  split <;> rfl

end Traffic

def Milestone.answer? : Milestone → Option (Nat × InitializeResult)
  | .handedOver _ _ => none
  | .answered g result => some (g, result)

theorem Traffic.Step.bond {t t' : Traffic} {m : Option Milestone} (hstep : Step t m t') :
    Bond.Step t.bond (m.bind Milestone.answer?) t'.bond := by
  cases hstep with
  | tell | hold | settle | withdraw | pass | handOver => exact .keep t.bond
  | start s hfs f hf =>
    rw [Traffic.bond_start]
    exact .keep t.bond
  | disconnect => exact .cut t.bond
  | connect f hf => exact .renew t.bond
  | complete s hgeneration hattached hfs => exact .complete t.bond hgeneration hattached
  | late hgeneration => exact .late t.bond hgeneration
  | lost hgeneration hattached => exact .lost t.bond hgeneration hattached

namespace Client

def Act.answer? : Act → Option (Nat × InitializeResult)
  | .finishConnect generation (.ok v) => (InitializeResult.read? v).map (generation, ·)
  | _ => none

def bond (c : Client) : Bond :=
  ⟨c.phase, c.attached, c.ready, c.generation, c.gate.capabilities⟩

theorem answer?_of_milestone? (c : Client) (a : Act) :
    (c.milestone? a).bind Milestone.answer? = a.answer? := by
  cases a with
  | write now =>
    cases hnext : c.nextFrame? with
    | none => simp [milestone?, Act.answer?, hnext]
    | some next =>
      obtain ⟨g, l, f⟩ := next
      cases hhands : c.handsOver? l f <;>
        simp [milestone?, Act.answer?, hnext, hhands, Milestone.answer?]
  | finishConnect generation outcome =>
    cases outcome with
    | error e => rfl
    | ok v =>
      rw [milestone?, Act.answer?]
      cases InitializeResult.read? v <;> rfl
  | _ => rfl

theorem bond_step (c : Client) (a : Act) : Bond.Step c.bond a.answer? (c.act a).bond := by
  rw [← c.answer?_of_milestone? a]
  exact (step_act a).bond

theorem tied_new (settings : Settings) (policy : HolderPolicy) (processId : Nat) (hashing : Hashing) :
    (new settings policy processId hashing).bond.Tied where
  phase := by simp [new, bond, Bond.isReady]
  latest g hg := by cases hg

theorem tied_run {c : Client} (h : c.bond.Tied) (acts : List Act) : (c.run acts).bond.Tied := by
  induction acts generalizing c with
  | nil => exact h
  | cons a rest ih => exact ih (h.step (c.bond_step a))

end Client

end LanguageClient
