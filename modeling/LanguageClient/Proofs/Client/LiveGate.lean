import LanguageClient.Proofs.Client.Bond

namespace LanguageClient

namespace Bond

def InOrder (b : Bond) (answers : List (Nat × InitializeResult)) : Prop :=
  (b.phase ≠ .initialized → b.capabilities = none) ∧
    (b.phase = .initialized → ∃ g result, b.attached = some g ∧ (g, result) ∈ answers ∧
      b.capabilities = some result.capabilities)

def Expects (b : Bond) (answers : List (Nat × InitializeResult)) (g : Nat)
    (result : InitializeResult) : Prop :=
  b.generation = g ∨ b.phase = .initialized ∧ ∃ g' result', b.attached = some g' ∧
    (g', result') ∈ answers ∧ result'.capabilities = result.capabilities

theorem inOrder_of_unknown {b : Bond} {answers : List (Nat × InitializeResult)}
    (hphase : b.phase ≠ .initialized) (hunknown : b.capabilities = none) : b.InOrder answers :=
  ⟨fun _ => hunknown, fun h => absurd h hphase⟩

theorem Tied.inOrder_complete {b : Bond} (h : b.Tied) {answers : List (Nat × InitializeResult)}
    {g : Nat} (hgeneration : b.generation = g) (hattached : b.attached.isSome) (result : InitializeResult) :
    (b.complete result).InOrder (answers ++ [(g, result)]) := by
  obtain ⟨g', hg'⟩ := Option.isSome_iff_exists.mp hattached
  refine ⟨fun hne => absurd rfl hne, fun _ => ⟨g', result, hg', ?_, rfl⟩⟩
  rw [← h.latest g' hg', hgeneration]
  exact List.mem_concat_self

theorem Tied.inOrder_learn_iff {b : Bond} (h : b.Tied) {answers : List (Nat × InitializeResult)}
    {g : Nat} (hgeneration : b.generation ≠ g) (result : InitializeResult) :
    (b.learn result).InOrder (answers ++ [(g, result)]) ↔ b.Expects answers g result := by
  constructor
  · rintro ⟨hunknown, hknown⟩
    have hphase : b.phase = .initialized := Decidable.byContradiction fun hne => by
      cases hunknown hne
    obtain ⟨g', result', hg', hmem, hcapabilities⟩ := hknown hphase
    refine .inr ⟨hphase, g', result', hg', ?_, (Option.some.inj hcapabilities).symm⟩
    refine (List.mem_append.mp hmem).resolve_right fun hlast => hgeneration ?_
    rw [h.latest g' hg', (Prod.mk.inj (List.mem_singleton.mp hlast)).1]
  · rintro (hg | ⟨hphase, g', result', hg', hmem, hcapabilities⟩)
    · exact absurd hg hgeneration
    · refine ⟨fun hne => absurd hphase hne, fun _ => ⟨g', result', hg', ?_, ?_⟩⟩
      · exact List.mem_append_left _ hmem
      · exact congrArg some hcapabilities.symm

theorem InOrder.step_iff {b b' : Bond} {answers : List (Nat × InitializeResult)}
    (h : b.InOrder answers) (htied : b.Tied) {answer : Option (Nat × InitializeResult)}
    (hstep : Step b answer b') :
    b'.InOrder (answers ++ answer.toList) ↔
      ∀ g result, answer = some (g, result) → b.Expects answers g result := by
  have hcut : ∀ as, b.cut.InOrder as := fun as => inOrder_of_unknown (by simp [cut]) rfl
  cases hstep with
  | keep =>
    refine iff_of_true ?_ fun g result h => by cases h
    rw [Option.toList_none, List.append_nil]
    exact h
  | cut => exact iff_of_true (hcut _) fun g result h => by cases h
  | renew => exact iff_of_true (inOrder_of_unknown (by simp [renew]) rfl) fun g result h => by cases h
  | complete hgeneration hattached =>
    refine iff_of_true (htied.inOrder_complete hgeneration hattached _) fun g result h => ?_
    cases h
    exact .inl hgeneration
  | late hgeneration =>
    refine (htied.inOrder_learn_iff hgeneration _).trans ⟨fun h g result heq => ?_, fun h => h _ _ rfl⟩
    cases heq
    exact h
  | lost hgeneration hattached =>
    refine iff_of_true (hcut _) fun g result h => ?_
    cases h
    exact .inl hgeneration

end Bond

namespace Client

/-- While the handshake is not complete, nothing is known of a server and no request is refused; and
while it is, the gate has what the attached connection was answered. -/
def GateInOrder (c : Client) (answers : List (Nat × InitializeResult)) : Prop :=
  (c.phase ≠ .initialized →
    c.gate.capabilities = none ∧ ∀ method, c.refuses method = false) ∧
    (c.phase = .initialized → ∃ g result, c.attached = some g ∧ (g, result) ∈ answers ∧
      c.gate.capabilities = some result.capabilities)

theorem refuses_of_unknown {c : Client} (h : c.gate.capabilities = none) (method : String) :
    c.refuses method = false := by
  have hmethod : c.gate.supportsMethod method = none := by
    rw [Gate.supportsMethod]
    split
    · rw [Gate.supports, h]
      rfl
    · rw [Gate.isKnown, h]
      rfl
  rw [refuses, hmethod]
  exact Bool.and_false _

theorem gateInOrder_iff (c : Client) (answers : List (Nat × InitializeResult)) :
    c.GateInOrder answers ↔ c.bond.InOrder answers := by
  refine and_congr_left fun _ => forall_congr' fun _ => ⟨And.left, fun h => ⟨h, ?_⟩⟩
  exact refuses_of_unknown h

theorem inOrder_take_succ_iff {c : Client} (htied : c.bond.Tied) {acts : List Act} {n : Nat} {a : Act}
    (ha : acts[n]? = some a)
    (h : (c.run (acts.take n)).bond.InOrder ((acts.take n).filterMap Act.answer?)) :
    (c.run (acts.take (n + 1))).bond.InOrder ((acts.take (n + 1)).filterMap Act.answer?) ↔
      ∀ g result, a.answer? = some (g, result) →
        (c.run (acts.take n)).bond.Expects ((acts.take n).filterMap Act.answer?) g result := by
  have hlast : (some a).toList.filterMap Act.answer? = a.answer?.toList := by
    rw [Option.toList_some, List.filterMap_cons]
    cases a.answer? <;> rfl
  rw [← h.step_iff (tied_run htied (acts.take n)) (bond_step _ a), List.take_add_one, ha,
    run_append, List.filterMap_append, hlast]
  rfl

/-- The gate is in order throughout a run if and only if everybody who goes on with the answer to his
handshake finds his own connection, or one whose server can do the same. -/
theorem gate_in_order_iff (settings : Settings) (policy : HolderPolicy) (processId : Nat) (hashing : Hashing)
    (acts : List Act) :
    let c := new settings policy processId hashing
    (∀ n, (c.run (acts.take n)).GateInOrder ((acts.take n).filterMap Act.answer?)) ↔
      ∀ n a g result, acts[n]? = some a → a.answer? = some (g, result) →
        (c.run (acts.take n)).bond.Expects ((acts.take n).filterMap Act.answer?) g result := by
  intro c
  have htied := tied_new settings policy processId hashing
  simp only [gateInOrder_iff]
  constructor
  · intro h n a g result ha
    exact (inOrder_take_succ_iff htied ha (h n)).mp (h (n + 1)) g result
  · intro h n
    induction n with
    | zero => exact Bond.inOrder_of_unknown (by simp [c, run, bond, new]) rfl
    | succ n ih =>
      cases ha : acts[n]? with
      | none =>
        rw [List.take_add_one, ha]
        simpa using ih
      | some a => exact (inOrder_take_succ_iff htied ha ih).mpr fun g result => h n a g result ha

/-- A connection is let go when its handshake has been answered and the caller has not had his turn.
He goes on, and from then on the gate speaks of a server that is gone. -/
theorem gate_of_lost_connection :
    let c := new .standard .exclusive 1 .rising
    let answer : Json := .object [("capabilities", .object [("hoverProvider", .bool true)])]
    let acts := [Act.beginConnect 0,
      .receive (Response.success (.number 1) answer).toJson.compact, .disconnect]
    let resumed := Act.finishConnect 1 (.ok answer)
    ((c.run acts).outcome? 1).bind Except.toOption = some answer ∧
      ((c.run acts).act resumed).phase = .disconnected ∧
      ((c.run acts).act resumed).gate.capabilities = some ⟨[("hoverProvider", .bool true)]⟩ ∧
      ¬((c.run acts).act resumed).GateInOrder ((acts ++ [resumed]).filterMap Act.answer?) := by
  intro c answer acts resumed
  have hphase : ((c.run acts).act resumed).phase = .disconnected := by decide +kernel
  have hknown : ((c.run acts).act resumed).gate.capabilities =
      some ⟨[("hoverProvider", .bool true)]⟩ := by decide +kernel
  refine ⟨by decide +kernel, hphase, hknown, fun h => ?_⟩
  have hne : ((c.run acts).act resumed).phase ≠ .initialized := by
    rw [hphase]
    exact Phase.noConfusion
  cases hknown.symm.trans (h.1 hne).1

end Client

end LanguageClient
