import LanguageClient.Proofs.Client.Attachment
import LanguageClient.Proofs.Client.Dealings
import LanguageClient.Proofs.Client.Queue
import Mathlib.Data.List.Induction

namespace LanguageClient

namespace Bond

structure Aligned (b : Bond) : Prop extends b.Tied where
  free : b.phase = .disconnected ↔ b.attached = none

theorem Aligned.step {b b' : Bond} (h : b.Aligned) {answer : Option (Nat × InitializeResult)}
    (hstep : Step b answer b') : b'.Aligned where
  toTied := h.toTied.step hstep
  free := by
    cases hstep with
    | keep | late hgeneration => exact h.free
    | cut | lost hgeneration hattached => exact iff_of_true rfl rfl
    | renew => exact iff_of_false Phase.noConfusion nofun
    | complete hgeneration hattached =>
      refine iff_of_false Phase.noConfusion fun hnone => ?_
      exact absurd hattached (by rw [show b.attached = none from hnone]; exact Bool.false_ne_true)

theorem Step.not_ready {b b' : Bond} {answer : Option (Nat × InitializeResult)}
    (hstep : Step b answer b') {g : Nat} (hne : b.attached ≠ some g) (h : b'.attached = some g) :
    b'.ready = false := by
  cases hstep with
  | keep | late hgeneration | complete hgeneration hattached => exact absurd h hne
  | cut | renew | lost hgeneration hattached => rfl

def Passed (g : Nat) (b : Bond) : Prop :=
  g ≤ b.generation ∧ (b.generation = g → b.attached = some g)

theorem Passed.step {g : Nat} {b b' : Bond} (h : b.Passed g)
    {answer : Option (Nat × InitializeResult)} (hstep : Step b answer b') : b'.Passed g := by
  obtain ⟨hle, hlatest⟩ := h
  cases hstep with
  | keep | late hgeneration | complete hgeneration hattached => exact ⟨hle, hlatest⟩
  | cut | lost hgeneration hattached | renew =>
    exact ⟨Nat.le_succ_of_le hle, fun heq => absurd heq (Nat.ne_of_gt (Nat.lt_succ_of_le hle))⟩

end Bond

namespace Client

theorem aligned_new (settings : Settings) (policy : HolderPolicy) (processId : Nat) (hashing : Hashing) :
    (new settings policy processId hashing).bond.Aligned where
  toTied := tied_new settings policy processId hashing
  free := iff_of_true rfl rfl

theorem aligned_run {c : Client} (h : c.bond.Aligned) (acts : List Act) :
    (c.run acts).bond.Aligned := by
  induction acts generalizing c with
  | nil => exact h
  | cons a rest ih => exact ih (h.step (c.bond_step a))

theorem passed_run {g : Nat} {c : Client} (h : c.bond.Passed g) (acts : List Act) :
    (c.run acts).bond.Passed g := by
  induction acts generalizing c with
  | nil => exact h
  | cons a rest ih => exact ih (h.step (c.bond_step a))

theorem passed_beginConnect (c : Client) (transport : Nat) :
    (c.act (.beginConnect transport)).bond.Passed (c.beginConnect transport).1 := by
  have hwire := c.wire_beginConnect transport
  have hmade : (c.beginConnect transport).1 = c.generation + 1 :=
    congrArg Wire.generation (c.wire_attach transport)
  have hgeneration : (c.act (.beginConnect transport)).generation = c.generation + 1 :=
    congrArg Wire.generation hwire
  have hattached : (c.act (.beginConnect transport)).attached = some (c.generation + 1) :=
    congrArg Wire.attached hwire
  rw [hmade]
  exact ⟨Nat.le_of_eq hgeneration.symm, fun _ => hattached⟩

section Greeted

variable {c : Client} {g : Nat}

theorem greeted_append_singleton {acts : List Act} {a : Act} :
    Greeted g c (acts ++ [a]) ↔
      Greeted g c acts ∨
        ∃ outcome, a = .finishConnect g outcome ∧ (c.run acts).completes g outcome = true := by
  constructor
  · rintro ⟨mid, outcome, post, hacts, hcompletes⟩
    cases post using List.reverseRecOn with
    | nil =>
      obtain ⟨rfl, ha⟩ := List.append_inj' hacts rfl
      exact .inr ⟨outcome, (List.cons.inj ha).1, hcompletes⟩
    | append_singleton post last =>
      rw [← List.cons_append, ← List.append_assoc] at hacts
      obtain ⟨rfl, -⟩ := List.append_inj' hacts rfl
      exact .inl ⟨mid, outcome, post, rfl, hcompletes⟩
  · rintro (⟨mid, outcome, post, rfl, hcompletes⟩ | ⟨outcome, rfl, hcompletes⟩)
    · exact ⟨mid, outcome, post ++ [a], by simp, hcompletes⟩
    · exact ⟨acts, outcome, [], rfl, hcompletes⟩

theorem le_of_greeted {acts : List Act} (htied : c.bond.Tied) (h : Greeted g c acts) :
    g ≤ (c.run acts).generation := by
  obtain ⟨mid, outcome, post, rfl, hcompletes⟩ := h
  have htied' : (c.run mid).bond.Tied := tied_run htied mid
  have hlatest : (c.run mid).generation = g :=
    htied'.latest g (attached_of_completes htied' hcompletes)
  rw [run_append, ← hlatest]
  exact generation_run_le _

theorem ready_iff_greeted {acts : List Act} (htied : c.bond.Tied) (hfree : c.attached = none)
    (h : (c.run acts).attached = some g) : (c.run acts).ready = true ↔ Greeted g c acts := by
  induction acts using List.reverseRecOn with
  | nil => cases hfree.symm.trans h
  | append_singleton acts a ih =>
    have htied' : (c.run acts).bond.Tied := tied_run htied acts
    rw [greeted_append_singleton]
    rw [run_append] at h ⊢
    change ((c.run acts).act a).attached = some g at h
    change ((c.run acts).act a).ready = true ↔ _
    by_cases hg : g ≤ (c.run acts).generation
    · obtain ⟨hbefore, hready⟩ := of_attached_act hg h
      rw [hready, Bool.or_eq_true, ih hbefore]
      refine or_congr_right ⟨fun hdeed => ?_, ?_⟩
      · obtain ⟨generation, outcome, rfl, hcompletes⟩ := exists_of_completes hdeed
        cases (attached_of_completes htied' hcompletes).symm.trans hbefore
        exact ⟨outcome, rfl, hcompletes⟩
      · rintro ⟨outcome, rfl, hcompletes⟩
        rw [deed_of_completes hcompletes]
        rfl
    -- a line of a later generation has just begun
    · have hunborn : (c.run acts).attached ≠ some g := fun hbefore =>
        hg (Nat.le_of_eq (htied'.latest g hbefore).symm)
      refine iff_of_false ?_ ?_
      · rw [show ((c.run acts).act a).ready = false from (bond_step _ a).not_ready hunborn h]
        exact Bool.false_ne_true
      · rintro (hgreeted | ⟨outcome, -, hcompletes⟩)
        · exact hg (le_of_greeted htied hgreeted)
        · exact hunborn (attached_of_completes htied' hcompletes)

end Greeted

/-- Whoever goes on with the handshake of a connection that is not the latest fails. What he was
answered reaches the gate, and nothing else changes. -/
theorem finishConnect_of_ne {c : Client} {g : Nat} (h : c.generation ≠ g) (outcome : Outcome) :
    ∃ e gate, c.finishConnect g outcome = (.error e, { c with gate }) := by
  cases c.finishCourse g outcome with
  | @fails e gate _ _ hfinish =>
    have hdetach : ({ c with gate } : Client).detach g = { c with gate } := if_neg h
    exact ⟨e, gate, hfinish.trans (congrArg (Prod.mk _) hdetach)⟩
  | completes _ hcompletes => exact absurd (of_completes hcompletes).1 h

theorem asked_beginConnect (c : Client) (transport : Nat) :
    let c' := c.act (.beginConnect transport)
    c.requests.nextId < c'.requests.nextId ∧ ∃ r, c'.requests.get? c.requests.nextId = some r ∧
      c'.requests.peek? c.requests.nextId = some none := by
  intro c'
  obtain ⟨lines, hbegun⟩ := c.exists_beginConnect transport
  have hrequests : c'.requests = _ := (congrArg requests hbegun :)
  rw [hrequests, ← c.nextId_attach transport]
  exact ⟨Nat.lt_succ_self _, _, Table.get?_put_self _ _ _, Table.get?_put_self _ _ _⟩

theorem exists_outcome_of_lost (settings : Settings) (policy : HolderPolicy) (processId : Nat) (hashing : Hashing)
    (before : List Act) (transport : Nat) {between : List Act} :
    let start := new settings policy processId hashing
    let c := start.run (before ++ .beginConnect transport :: between)
    let (g, id, _) := (start.run before).beginConnect transport
    c.attached ≠ some g → .forget id ∉ between → ∃ outcome, c.outcome? id = some outcome := by
  intro start c
  let c₀ := start.run before
  let begun := c₀.act (.beginConnect transport)
  have hid : (c₀.beginConnect transport).2.1 = c₀.requests.nextId := c₀.nextId_attach transport
  have hg : begun.generation = (c₀.beginConnect transport).1 :=
    (congrArg Wire.generation (c₀.wire_beginConnect transport)).trans
      (congrArg Wire.generation (c₀.wire_attach transport)).symm
  have hrun : c = begun.run between := start.run_append before (.beginConnect transport :: between)
  change c.attached ≠ some (c₀.beginConnect transport).1 →
    .forget (c₀.beginConnect transport).2.1 ∉ between →
      ∃ outcome, c.outcome? (c₀.beginConnect transport).2.1 = some outcome
  rw [hid, ← hg]
  intro hlost hforget
  -- the frame of the request is on the line that was lost, so the request is not live
  have hdead : c.requests.get? c₀.requests.nextId = none := by
    obtain ⟨-, hforsaken⟩ :=
      placed_run settings policy processId hashing (before ++ .beginConnect transport :: between)
    have hpushed := pushed_run (c := begun) (Nat.le_refl _) between
    rw [(c₀.pushed_beginConnect transport).2, ← hrun] at hpushed
    exact Option.map_eq_none_iff.mp
      (hforsaken begun.generation _ hpushed hlost _ List.mem_cons_self).1
  have hsorted : begun.requests.live.Sorted :=
    sorted_act (sorted_run (placed_new settings policy processId hashing) RequestTable.sorted_empty before) _
  obtain ⟨hlt, r, hlive, hwaits⟩ := c₀.asked_beginConnect transport
  have hget := get?_run (f := .live r) hsorted hlt hlive between
  have houtcome := outcome?_run (f := .live r) hsorted hlt hlive hwaits hforget
  rw [← hrun] at hget houtcome
  rw [hdead] at hget
  rw [houtcome]
  cases hfate : fate c₀.requests.nextId (.live r) between begun with
  | live r' =>
    rw [hfate] at hget
    cases hget
  | settled outcome => exact ⟨outcome, rfl⟩

theorem line?_eq_none_iff {c : Client} (h : c.attachment.Sole) :
    c.line? = none ↔ c.attached = none := by
  rw [line?, Option.bind_eq_none_iff]
  constructor
  · intro hnone
    refine Option.eq_none_iff_forall_not_mem.mpr fun g hg => ?_
    have hseated : ((Table.get? g c.lines).map fun l => (l.transport, l.subscription)).isSome :=
      h.seated g hg
    rw [hnone g hg] at hseated
    cases hseated
  · intro hnone g hg
    cases hnone.symm.trans hg

theorem exists_line {c : Client} {g : Nat} (h : c.attachment.Sole) (hg : c.attached = some g) :
    ∃ l, Table.get? g c.lines = some l := by
  have hseated : ((Table.get? g c.lines).map fun l => (l.transport, l.subscription)).isSome :=
    h.seated g hg
  rw [Option.isSome_map] at hseated
  exact Option.isSome_iff_exists.mp hseated

theorem expected_attachment (c : Client) (t : Nat) :
    c.attachment.expected t =
      (c.line?.filter (·.transport = t)).toList.map Line.subscription := by
  have hseat : c.attachment.seat? = c.line?.map fun l => (l.transport, l.subscription) := by
    rw [line?, Option.map_bind]
    rfl
  rw [Attachment.expected, hseat]
  cases c.line? with
  | none => rfl
  | some l => by_cases ht : l.transport = t <;> simp [Option.filter, ht]

/-- The state machine of a connection, in every run in which each transport that is added is a new one.
The phase says whether there is a connection and whether its handshake was completed; at every
transport there is the subscription of the attached line, if that is its transport, and no other; and
whoever asked for a connection that has been replaced or let go goes on, fails, and changes nothing but
what is known of the server. -/
theorem connection_states (settings : Settings) (policy : HolderPolicy) (processId : Nat) (hashing : Hashing)
    (acts : List Act) (hnew : addsNewIn acts (new settings policy processId hashing) = true) :
    let start := new settings policy processId hashing
    let c := start.run acts
    (c.phase = .disconnected ↔ c.line? = none) ∧
      (c.phase = .connecting ↔
        ∃ g l, c.attached = some g ∧ Table.get? g c.lines = some l ∧ ¬Greeted g start acts) ∧
      (c.phase = .initialized ↔
        ∃ g l, c.attached = some g ∧ Table.get? g c.lines = some l ∧ Greeted g start acts) ∧
      (∀ t, c.subscriptions t =
        (c.line?.filter (·.transport = t)).toList.map Line.subscription) ∧
      ∀ before transport between, acts = before ++ .beginConnect transport :: between →
        let (g, id, _) := (start.run before).beginConnect transport
        c.attached ≠ some g →
          (.forget id ∉ between → ∃ outcome, c.outcome? id = some outcome) ∧
          ∀ outcome, ∃ e gate, c.finishConnect g outcome = (.error e, { c with gate }) := by
  intro start c
  have halign : c.bond.Aligned := aligned_run (aligned_new settings policy processId hashing) acts
  have hsole : c.attachment.Sole := sole_run (sole_new settings policy processId hashing) hnew
  have hready : ∀ g, c.attached = some g → (c.ready = true ↔ Greeted g start acts) := fun g hg =>
    ready_iff_greeted (tied_new settings policy processId hashing) rfl hg
  have hfree : c.phase = .disconnected ↔ c.attached = none := halign.free
  have hdone : c.phase = .initialized ↔
      ∃ g l, c.attached = some g ∧ Table.get? g c.lines = some l ∧ Greeted g start acts := by
    refine halign.phase.trans ?_
    change c.isReady = true ↔ _
    rw [isReady, Bool.and_eq_true, Option.isSome_iff_exists]
    constructor
    · rintro ⟨⟨g, hg⟩, htrue⟩
      obtain ⟨l, hl⟩ := exists_line hsole hg
      exact ⟨g, l, hg, hl, (hready g hg).mp htrue⟩
    · rintro ⟨g, l, hg, -, hgreeted⟩
      exact ⟨⟨g, hg⟩, (hready g hg).mpr hgreeted⟩
  refine ⟨hfree.trans (line?_eq_none_iff hsole).symm, ?_, hdone, fun t => ?_, ?_⟩
  · constructor
    · intro hphase
      obtain ⟨g, hg⟩ : ∃ g, c.attached = some g := by
        refine Option.ne_none_iff_exists'.mp fun hnone => ?_
        cases hphase.symm.trans (hfree.mpr hnone)
      obtain ⟨l, hl⟩ := exists_line hsole hg
      refine ⟨g, l, hg, hl, fun hgreeted => ?_⟩
      cases hphase.symm.trans (hdone.mpr ⟨g, l, hg, hl, hgreeted⟩)
    · rintro ⟨g, l, hg, -, hnot⟩
      cases hphase : c.phase with
      | disconnected => cases hg.symm.trans (hfree.mp hphase)
      | connecting => rfl
      | initialized =>
        obtain ⟨g', -, hg', -, hgreeted⟩ := hdone.mp hphase
        cases hg.symm.trans hg'
        exact absurd hgreeted hnot
  · exact (hsole.subscribed t).trans (c.expected_attachment t)
  · rintro before transport between rfl
    intro hlost
    refine ⟨exists_outcome_of_lost settings policy processId hashing before transport hlost, ?_⟩
    have hrun : c = ((start.run before).act (.beginConnect transport)).run between :=
      start.run_append before (.beginConnect transport :: between)
    have hpassed : c.bond.Passed _ :=
      hrun ▸ passed_run ((start.run before).passed_beginConnect transport) between
    exact finishConnect_of_ne fun heq => hlost (hpassed.2 heq)

theorem connection_states_of_replaced :
    let start := new .standard .exclusive 1 .rising
    let answer : Outcome := .ok (.object [("capabilities", .object [])])
    let first : List Act := [.addTransport 0, .addTransport 1, .beginConnect 1]
    let rest : List Act := [.beginConnect 0, .finishConnect 3 answer]
    let acts := first ++ .beginConnect 0 :: rest
    let c := start.run acts
    addsNewIn acts start = true ∧ c.phase = .initialized ∧ Greeted 3 start acts ∧
      c.subscriptions 0 = [1] ∧ c.subscriptions 1 = [] ∧
      (∃ outcome, c.outcome? 2 = some outcome) ∧
      ∃ e gate, c.finishConnect 2 answer = (.error e, { c with gate }) := by
  intro start answer first rest acts c
  have hnew : addsNewIn acts start = true := by decide
  have hattached : c.attached = some 3 := by decide
  obtain ⟨-, -, hdone, hsubscriptions, hlost⟩ :=
    connection_states .standard .exclusive 1 .rising acts hnew
  have hphase : c.phase = .initialized := by decide
  obtain ⟨g, l, hg, -, hgreeted⟩ := hdone.mp hphase
  cases hattached.symm.trans hg
  have hmade : ((start.run first).beginConnect 0).1 = 2 := by decide
  have hasked : ((start.run first).beginConnect 0).2.1 = 2 := by decide
  have hother : c.attached ≠ some ((start.run first).beginConnect 0).1 := by
    rw [hattached, hmade]
    decide
  obtain ⟨hgoes, hfails⟩ := hlost first 0 rest rfl hother
  refine ⟨hnew, hphase, hgreeted, (hsubscriptions 0).trans (by decide),
    (hsubscriptions 1).trans (by decide), ?_, hmade ▸ hfails answer⟩
  exact hasked ▸ hgoes (by simp [rest])

end Client

end LanguageClient
