import LanguageClient.Proofs.Capability.Registered
import LanguageClient.Proofs.Client.Stream
import LanguageClient.Proofs.Json.Reading

namespace LanguageClient

def RegistrationParams.requested (method : String) (params : Json) : List Registration :=
  if method = "client/registerCapability" then
    (read? params).elim [] RegistrationParams.registrations
  else []

def UnregistrationParams.requested (method : String) (params : Json) : List Unregistration :=
  if method = "client/unregisterCapability" then
    (read? params).elim [] UnregistrationParams.unregistrations
  else []

theorem Bond.Step.known {b b' : Bond} {answer : Option (Nat × InitializeResult)}
    (hstep : Step b answer b') (h : b.phase = .initialized → b.capabilities.isSome) :
    b'.phase = .initialized → b'.capabilities.isSome := by
  cases hstep with
  | keep => exact h
  | cut | renew | lost => exact fun hphase => by cases hphase
  | complete | late => exact fun _ => rfl

namespace Client

def builtIn? (c : Client) : Act → Option Request
  | .receive raw =>
    match Message.ofText? raw with
    | some (.request r) => if (Table.get? r.method c.handlers.requests).isSome then none else some r
    | _ => none
  | _ => none

def registers (c : Client) (a : Act) : List Registration :=
  (c.builtIn? a).elim [] fun r => RegistrationParams.requested r.method (r.params.getD .null)

def unregisters (c : Client) (a : Act) : List Unregistration :=
  (c.builtIn? a).elim [] fun r => UnregistrationParams.requested r.method (r.params.getD .null)

section Gate

variable {c : Client} {g : Nat}

theorem gate_answerRequest (method : String) (params : Json) :
    (c.answerRequest method params).2.gate =
      (c.gate.register (RegistrationParams.requested method params)).unregister
        (UnregistrationParams.requested method params) := by
  unfold answerRequest
  split
  · rw [RegistrationParams.requested, if_pos rfl]
    cases RegistrationParams.read? params <;> rfl
  · rw [UnregistrationParams.requested, if_pos rfl]
    cases UnregistrationParams.read? params <;> rfl
  · rfl
  · rfl
  next hregister hunregister _ _ =>
    rw [RegistrationParams.requested, if_neg hregister, UnregistrationParams.requested,
      if_neg hunregister]
    rfl

theorem gate_receive (raw : String) :
    (c.act (.receive raw)).gate =
      (c.gate.register (c.registers (.receive raw))).unregister (c.unregisters (.receive raw)) := by
  rw [act, registers, unregisters, builtIn?]
  cases c.receiveCourse raw with
  | unread hraw hreceive | stray hraw _ hreceive | settles hraw _ hreceive
  | notified hraw hreceive =>
    rw [hreceive, hraw]
    rfl
  | handled hraw hhandler hreceive =>
    rw [hreceive, hraw]
    dsimp only
    rw [hhandler]
    rfl
  | @answers r hraw hhandler hreceive =>
    obtain ⟨lines, hpush⟩ := exists_push (c.answerRequest r.method (r.params.getD .null)).2
      (.response (.answering r.id (c.answerRequest r.method (r.params.getD .null)).1))
    rw [hreceive, hraw]
    dsimp only
    rw [hhandler]
    exact (congrArg gate hpush :).trans (gate_answerRequest ..)

theorem gate_detach {generation : Nat} (hafter : (c.detach generation).attached = some g) :
    (c.detach generation).gate = c.gate := by
  rw [detach] at hafter ⊢
  split at hafter
  · cases hafter.symm.trans (congrArg Wire.attached c.wire_disconnect)
  next hother => rw [if_neg hother]

theorem gate_finishConnect {generation : Nat} {outcome : Outcome}
    (hafter : (c.act (.finishConnect generation outcome)).attached = some g) :
    (c.act (.finishConnect generation outcome)).gate =
      match (Act.finishConnect generation outcome).answer? with
      | some (_, result) => c.gate.set result.capabilities
      | none => c.gate := by
  have hheard : c.gate.heard outcome = match (Act.finishConnect generation outcome).answer? with
      | some (_, result) => c.gate.set result.capabilities
      | none => c.gate := by
    cases outcome with
    | error e => rfl
    | ok v =>
      rw [Gate.heard, Act.answer?]
      cases InitializeResult.read? v <;> rfl
  rw [← hheard]
  rw [act] at hafter ⊢
  cases c.finishCourse generation outcome with
  | @fails _ gate hgate _ hfinish =>
    rw [hfinish] at hafter ⊢
    exact (gate_detach (c := { c with gate }) hafter).trans hgate
  | completes hgate _ hdone hfinish =>
    obtain ⟨documents, lines, rfl⟩ := exists_of_completeHandshake hdone
    rw [hfinish]
    exact hgate

theorem gate_beginShutdown (hafter : (c.act .beginShutdown).attached = some g) :
    (c.act .beginShutdown).gate = c.gate := by
  have hgone : c.disconnect.attached = none := congrArg Wire.attached c.wire_disconnect
  rw [act] at hafter ⊢
  cases c.shutdownCourse with
  | asks _ hstart hshutdown =>
    obtain ⟨lines, queue, hr⟩ := exists_of_startRequest hstart
    rw [hshutdown]
    exact (congrArg gate hr :)
  | letsGo _ hshutdown =>
    rw [hshutdown] at hafter
    cases hgone.symm.trans hafter

theorem gate_act (htied : c.bond.Tied) (hbefore : c.attached = some g) {a : Act}
    (hafter : (c.act a).attached = some g) :
    (c.act a).gate = match a.answer? with
      | some (_, result) => c.gate.set result.capabilities
      | none => (c.gate.register (c.registers a)).unregister (c.unregisters a) := by
  by_cases hsteady : a.isSteady = true
  · obtain ⟨_, _, _, _, _, _, _, hact⟩ := c.exists_of_isSteady hsteady
    refine (congrArg gate hact :).trans ?_
    cases a with
    | finishConnect | receive => cases hsteady
    | _ => rfl
  · cases a with
    | beginConnect transport =>
      obtain ⟨s, p, hwire⟩ := (does_act (c := c) (.beginConnect transport)).wire
      have hnew : some (c.generation + 1) = some g := (congrArg Wire.attached hwire).symm.trans hafter
      have hlatest : c.generation = g := htied.latest g hbefore
      exact absurd (Option.some.inj hnew) (hlatest ▸ Nat.succ_ne_self _)
    | finishConnect generation outcome => exact gate_finishConnect hafter
    | disconnect => cases hafter.symm.trans (congrArg Wire.attached c.wire_disconnect)
    | beginShutdown => exact gate_beginShutdown hafter
    | receive raw => exact gate_receive raw
    | _ => exact absurd rfl hsteady

end Gate

section Run

variable {c : Client} {g : Nat} {rest : List Act} {r : Registration} {id : String}

theorem attached_of_run (hg : g ≤ c.generation) (hend : (c.run rest).attached = some g) :
    c.attached = some g := by
  induction rest generalizing c with
  | nil => exact hend
  | cons a rest ih =>
    exact (of_attached_act hg (ih (Nat.le_trans hg generation_act_le) hend)).1

theorem mem_registered_run (htied : c.bond.Tied) (hg : g ≤ c.generation)
    (hend : (c.run rest).attached = some g) (hquiet : ∀ a ∈ rest, a.answer? = none)
    (hnew : ∀ r' ∈ gather registers rest c, r'.id ≠ r.id)
    (hgone : ∀ u ∈ gather unregisters rest c, u.id ≠ r.id) (hr : r ∈ c.gate.registered) :
    r ∈ (c.run rest).gate.registered := by
  induction rest generalizing c with
  | nil => exact hr
  | cons a rest ih =>
    have hg' : g ≤ (c.act a).generation := Nat.le_trans hg generation_act_le
    have hgate := gate_act htied (attached_of_run hg hend) (attached_of_run hg' hend)
    rw [hquiet a List.mem_cons_self] at hgate
    refine ih (htied.step (bond_step _ a)) hg' hend (fun a' ha' => hquiet a' (List.mem_cons_of_mem _ ha'))
      (fun r' hr' => hnew r' (List.mem_append_right _ hr'))
      (fun u hu => hgone u (List.mem_append_right _ hu)) ?_
    rw [hgate]
    refine Gate.mem_unregister.mpr ⟨Gate.mem_register_of_mem hr fun r' hr' => ?_, fun u hu => ?_⟩
    · exact hnew r' (List.mem_append_left _ hr')
    · exact hgone u (List.mem_append_left _ hu)

theorem lacks_run (htied : c.bond.Tied) (hg : g ≤ c.generation)
    (hend : (c.run rest).attached = some g) (hnew : ∀ r' ∈ gather registers rest c, r'.id ≠ id)
    (h : c.gate.Lacks id ∨ ∃ a ∈ rest, a.answer? ≠ none) : (c.run rest).gate.Lacks id := by
  induction rest generalizing c with
  | nil => exact h.resolve_right fun ⟨a, ha, _⟩ => by cases ha
  | cons a rest ih =>
    have hg' : g ≤ (c.act a).generation := Nat.le_trans hg generation_act_le
    have hgate := gate_act htied (attached_of_run hg hend) (attached_of_run hg' hend)
    refine ih (htied.step (bond_step _ a)) hg' hend
      (fun r' hr' => hnew r' (List.mem_append_right _ hr')) ?_
    rw [hgate]
    cases hanswer : a.answer? with
    | some answer =>
      refine .inl fun r' hr' => ?_
      cases hr'
    | none =>
      refine h.imp (fun hlacks => ?_) fun ⟨a', ha', hsome⟩ => ?_
      · exact (hlacks.register fun r' hr' => hnew r' (List.mem_append_left _ hr')).unregister _
      · obtain rfl | ha' := List.mem_cons.mp ha'
        · exact absurd hanswer hsome
        · exact ⟨a', ha', hsome⟩

theorem ready_iff (htied : c.bond.Tied) (hattached : c.attached = some g) :
    c.ready = true ↔ c.phase = .initialized := by
  refine (htied.phase.trans ?_).symm
  rw [Bond.isReady, show c.bond.attached = some g from hattached]
  exact Iff.rfl

theorem exists_answer_of_ready (hg : g ≤ c.generation) (hend : (c.run rest).attached = some g)
    (hbefore : c.ready = false) (hready : (c.run rest).ready = true) :
    ∃ a ∈ rest, a.answer? ≠ none := by
  induction rest generalizing c with
  | nil => cases hbefore.symm.trans hready
  | cons a rest ih =>
    have hg' : g ≤ (c.act a).generation := Nat.le_trans hg generation_act_le
    have hkept := (of_attached_act hg (attached_of_run hg' hend)).2
    cases hcompletes : (c.deed a).completes with
    | true =>
      obtain ⟨generation, outcome, rfl, hdone⟩ := exists_of_completes hcompletes
      refine ⟨_, List.mem_cons_self, fun hnone => ?_⟩
      cases outcome with
      | error e => cases hdone
      | ok v =>
        rw [Act.answer?, Option.map_eq_none_iff] at hnone
        rw [completes, hnone] at hdone
        cases hdone
    | false =>
      rw [hbefore, hcompletes] at hkept
      obtain ⟨a', ha', hsome⟩ := ih hg' hend hkept hready
      exact ⟨a', List.mem_cons_of_mem _ ha', hsome⟩

theorem known_run (h : c.bond.phase = .initialized → c.bond.capabilities.isSome) (acts : List Act) :
    (c.run acts).phase = .initialized → (c.run acts).gate.isKnown = true := by
  induction acts generalizing c with
  | nil => exact h
  | cons a rest ih => exact ih ((c.bond_step a).known h)

end Run

theorem act_receive_request {c : Client} {raw : String} {q : Request}
    (h : Message.ofText? raw = some (.request q)) :
    c.act (.receive raw) = (c.receiveRequest q).2.2 := by
  rw [act, receive, h]

theorem act_receive_response {c : Client} {raw : String} {r : Response}
    (h : Message.ofText? raw = some (.response r)) : c.act (.receive raw) = c.receiveResponse r := by
  rw [act, receive, h]

theorem registers_of_null {c : Client} {raw : String} {q : Request}
    (hraw : Message.ofText? raw = some (.request q)) (hmethod : q.method = "client/registerCapability")
    (hnull : c.replies raw = [.response (.success q.id .null)]) :
    ∃ p, RegistrationParams.read? (q.params.getD .null) = some p ∧
      c.registers (.receive raw) = p.registrations ∧ c.unregisters (.receive raw) = [] := by
  rw [replies, hraw] at hnull
  dsimp only at hnull
  rw [registers, unregisters, builtIn?, hraw]
  dsimp only
  cases hhandler : Table.get? q.method c.handlers.requests with
  | some h =>
    rw [hhandler] at hnull
    cases hnull
  | none =>
    rw [hhandler, hmethod, answerRequest] at hnull
    cases hread : RegistrationParams.read? (q.params.getD .null) with
    | none =>
      rw [hread] at hnull
      cases hnull
    | some p =>
      refine ⟨p, rfl, ?_, ?_⟩
      · simp [RegistrationParams.requested, hmethod, hread]
      · simp [UnregistrationParams.requested, hmethod]

/-- A registration that the client acknowledged on a connection is live, while that is initialized and
until the server takes it back or its id is used again, if and only if nobody has gone on with the answer
to a handshake since; so never if it came before the handshake was complete. As long as it is live the
gate honors it. -/
theorem registration_live_iff (settings : Settings) (policy : HolderPolicy) (processId : Nat) (hashing : Hashing)
    (past : List Act) (raw : String) (rest : List Act) (q : Request) (g : Nat) :
    let c := (new settings policy processId hashing).run past
    let taken := c.act (.receive raw)
    let final := taken.run rest
    Message.ofText? raw = some (.request q) → q.method = "client/registerCapability" →
    c.replies raw = [.response (.success q.id .null)] → c.attached = some g →
    final.attached = some g → final.phase = .initialized →
    ∃ p, RegistrationParams.read? (q.params.getD .null) = some p ∧
      ∀ earlier r later, p.registrations = earlier ++ r :: later →
        (∀ r' ∈ later ++ gather registers rest taken, r'.id ≠ r.id) →
        (∀ u ∈ gather unregisters rest taken, u.id ≠ r.id) →
        (r ∈ final.gate.registered ↔ ∀ a ∈ rest, a.answer? = none) ∧
        (c.phase ≠ .initialized → r ∉ final.gate.registered) ∧
        (r ∈ final.gate.registered → final.gate.Honors r) := by
  intro c taken final hraw hmethod hnull hbefore hend hphase
  obtain ⟨p, hread, hregisters, hunregisters⟩ := registers_of_null hraw hmethod hnull
  refine ⟨p, hread, fun earlier r later hp hnew hgone => ?_⟩
  have htied : c.bond.Tied := tied_run (tied_new settings policy processId hashing) past
  have htied' : taken.bond.Tied := htied.step (bond_step _ _)
  have hg₀ : g ≤ c.generation := Nat.le_of_eq (htied.latest g hbefore).symm
  have hg : g ≤ taken.generation := Nat.le_trans hg₀ generation_act_le
  have hafter : taken.attached = some g := attached_of_run hg hend
  have htaken : r ∈ taken.gate.registered := by
    have hgate : taken.gate = (c.gate.register (c.registers (.receive raw))).unregister
        (c.unregisters (.receive raw)) := gate_receive raw
    rw [hgate, hregisters, hunregisters, hp]
    exact Gate.mem_register fun r' hr' => hnew r' (List.mem_append_left _ hr')
  have hnew' : ∀ r' ∈ gather registers rest taken, r'.id ≠ r.id :=
    fun r' hr' => hnew r' (List.mem_append_right _ hr')
  have hlost : (∃ a ∈ rest, a.answer? ≠ none) → r ∉ final.gate.registered := fun hsome hr =>
    lacks_run htied' hg hend hnew' (.inr hsome) r hr rfl
  refine ⟨⟨fun hr a ha => ?_, fun hquiet => ?_⟩, fun hnot => hlost ?_, fun hr => ?_⟩
  · exact Decidable.byContradiction fun hsome => hlost ⟨a, ha, hsome⟩ hr
  · exact mem_registered_run htied' hg hend hquiet hnew' hgone htaken
  · have hready : taken.ready = c.ready := (of_attached_act hg₀ hafter).2.trans (Bool.or_false _)
    refine exists_answer_of_ready hg hend ?_ ((ready_iff ?_ hend).mpr hphase)
    · rw [hready]
      exact Bool.eq_false_iff.mpr fun h => hnot ((ready_iff htied hbefore).mp h)
    · exact tied_run htied' rest
  · refine Gate.honors_of_mem ?_ hr
    have hfinal : final = (new settings policy processId hashing).run (past ++ .receive raw :: rest) :=
      (run_append _ past (.receive raw :: rest)).symm
    rw [hfinal] at hphase ⊢
    exact known_run (fun h => by cases h) _ hphase

theorem registration_live_of_handshake :
    let start := new .standard .exclusive 1 .rising
    let past : List Act := [.beginConnect 0, .finishConnect 1 (.ok (.object [("capabilities", .object [])]))]
    let rename : Registration := ⟨"r", "textDocument/rename", none⟩
    let q : Request := ⟨formatVersion, .number 7, "client/registerCapability",
      some (RegistrationParams.toJson ⟨[rename]⟩)⟩
    let rest : List Act := [.openFile "a" "text" "x", .sync, .notify "custom/note" none, .write 1]
    let c := start.run past
    let final := (c.act (.receive q.toJson.compact)).run rest
    c.replies q.toJson.compact = [.response (.success q.id .null)] ∧ final.phase = .initialized ∧
      rename ∈ final.gate.registered ∧ final.gate.supports .rename = some true := by
  intro start past rename q rest c final
  have hlaw := registration_live_iff .standard .exclusive 1 .rising past q.toJson.compact rest q 1
  dsimp only at hlaw
  rw [show (new .standard .exclusive 1 .rising).run past = c from rfl,
    show (c.act (.receive q.toJson.compact)).run rest = final from rfl] at hlaw
  have hraw : Message.ofText? q.toJson.compact = some (.request q) := by
    rw [Message.ofText?_compact (by decide)]
    decide
  have hfinal : final = (c.receiveRequest q).2.2.run rest :=
    congrArg (run · rest) (act_receive_request hraw)
  have hnull : c.replies q.toJson.compact = [.response (.success q.id .null)] := by
    rw [replies, hraw]
    decide
  have hend : final.attached = some 1 := by rw [hfinal]; decide
  have hphase : final.phase = .initialized := by rw [hfinal]; decide
  obtain ⟨p, hread, hlive⟩ := hlaw hraw rfl hnull (by decide) hend hphase
  have hp : RegistrationParams.read? (q.params.getD .null) = some ⟨[rename]⟩ := by decide
  have hregistrations : p.registrations = [rename] :=
    congrArg RegistrationParams.registrations (Option.some.inj (hread.symm.trans hp))
  have hregisters : gather registers rest (c.act (.receive q.toJson.compact)) = [] := rfl
  have hunregisters : gather unregisters rest (c.act (.receive q.toJson.compact)) = [] := rfl
  rw [hregisters, hunregisters] at hlive
  obtain ⟨hrename, -, hhonors⟩ := hlive [] rename [] hregistrations (by decide) (by decide)
  have hmem : rename ∈ final.gate.registered := hrename.mpr (by simp [rest, Act.answer?])
  exact ⟨hnull, hphase, hmem, ((hhonors hmem).feature .rename rfl).1⟩

/-- The server answers the handshake and registers a feature, and is answered null. Then the caller of
the handshake has his turn, and the feature is not supported. -/
theorem registration_of_pending_handshake :
    let answer : Json := .object [("capabilities", .object [])]
    let rename : Registration := ⟨"r", "textDocument/rename", none⟩
    let q : Request := ⟨formatVersion, .number 7, "client/registerCapability",
      some (RegistrationParams.toJson ⟨[rename]⟩)⟩
    let c := ((new .standard .exclusive 1 .rising).act (.beginConnect 0)).act
      (.receive (Response.success (.number 1) answer).toJson.compact)
    let taken := c.act (.receive q.toJson.compact)
    let final := taken.act (.finishConnect 1 (.ok answer))
    (c.outcome? 1).bind Except.toOption = some answer ∧
      c.replies q.toJson.compact = [.response (.success q.id .null)] ∧ c.attached = some 1 ∧
      rename ∈ taken.gate.registered ∧ final.attached = some 1 ∧ final.phase = .initialized ∧
      final.gate.supports .rename = some false := by
  intro answer rename q c taken final
  have hanswer : Message.ofText? (Response.success (.number 1) answer).toJson.compact =
      some (.response (.success (.number 1) answer)) := by
    rw [Message.ofText?_compact (by decide)]
    decide
  have hraw : Message.ofText? q.toJson.compact = some (.request q) := by
    rw [Message.ofText?_compact (by decide)]
    decide
  have hc : c = ((new .standard .exclusive 1 .rising).act (.beginConnect 0)).receiveResponse
      (.success (.number 1) answer) := act_receive_response hanswer
  have htaken : taken = (c.receiveRequest q).2.2 := act_receive_request hraw
  have hfinal : final = ((((new .standard .exclusive 1 .rising).act (.beginConnect 0)).receiveResponse
      (.success (.number 1) answer)).receiveRequest q).2.2.act (.finishConnect 1 (.ok answer)) := by
    rw [show final = taken.act (.finishConnect 1 (.ok answer)) from rfl, htaken, hc]
  have hgate : final.gate = ⟨some ⟨[]⟩, []⟩ := by
    rw [hfinal]
    decide
  refine ⟨?_, ?_, ?_, ?_, ?_, ?_, ?_⟩
  · rw [hc]
    decide
  · rw [replies, hraw, hc]
    decide
  · rw [hc]
    decide
  · rw [htaken, hc]
    decide
  · rw [hfinal]
    decide
  · rw [hfinal]
    decide
  · rw [hgate, Gate.supports, Option.map_some, Gate.advertises_nothing]
    rfl

end Client

end LanguageClient
