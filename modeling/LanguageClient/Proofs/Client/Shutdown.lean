import LanguageClient.Client.Turn
import LanguageClient.Proofs.Client.Bond
import LanguageClient.Proofs.Client.Whereabouts

namespace LanguageClient

theorem Bond.Step.ready {b b' : Bond} {answer : Option (Nat × InitializeResult)}
    (hstep : Step b answer b') {g : Nat} (hle : g ≤ b.generation)
    (hready : b.attached = some g → b.ready = true) :
    g ≤ b'.generation ∧ (b'.attached = some g → b'.ready = true) := by
  cases hstep with
  | keep | late => exact ⟨hle, hready⟩
  | cut | lost => exact ⟨Nat.le_succ_of_le hle, fun hg => by cases hg⟩
  | renew =>
    refine ⟨Nat.le_succ_of_le hle, fun hg => ?_⟩
    cases hg
    exact absurd hle (Nat.not_succ_le_self _)
  | complete => exact ⟨hle, fun _ => rfl⟩

namespace Client

/-- Everybody but the connection of a generation is left alone: nothing is handed to another line or
kept for a later one, and another connection is not let go. -/
structure Spares (g : Nat) (c c' : Client) : Prop where
  lines : ∀ g', g' ≠ g → Table.get? g' c'.lines = Table.get? g' c.lines
  queue : c'.queue = c.queue
  attached : ∀ g', g' ≠ g → c.attached = some g' → c'.attached = some g'

variable {c : Client} {g : Nat}

theorem spares_forget_iff (request : Nat) {c' : Client} :
    Spares g (c.forget request) c' ↔ Spares g c c' :=
  ⟨fun h => ⟨h.lines, h.queue, h.attached⟩, fun h => ⟨h.lines, h.queue, h.attached⟩⟩

theorem lines_disconnect (c : Client) : c.disconnect.lines = c.lines := by
  change c.teardown.lines = c.lines
  rw [teardown]
  dsimp only
  split <;> rfl

theorem attached_disconnect (c : Client) : c.disconnect.attached = none :=
  congrArg Wire.attached c.wire_disconnect

theorem queue_disconnect (c : Client) : c.disconnect.queue = c.queue :=
  congrArg Wire.queue c.wire_disconnect

theorem spares_disconnect_iff :
    Spares g c c.disconnect ↔ c.attached = some g ∨ c.attached = none := by
  constructor
  · intro h
    cases hattached : c.attached with
    | none => exact .inr rfl
    | some g' =>
      refine .inl (congrArg some (Decidable.byContradiction fun hne => ?_))
      cases c.attached_disconnect.symm.trans (h.attached g' hne hattached)
  · intro h
    refine ⟨fun g' _ => by rw [c.lines_disconnect], c.queue_disconnect, fun g' hne hg' => ?_⟩
    obtain hg | hnone := h
    · cases hg.symm.trans hg'
      exact absurd rfl hne
    · cases hnone.symm.trans hg'

theorem Spares.trans {c c' c'' : Client} (h : Spares g c c') (h' : Spares g c' c'') :
    Spares g c c'' where
  lines g' hne := (h'.lines g' hne).trans (h.lines g' hne)
  queue := h'.queue.trans h.queue
  attached g' hne hg' := h'.attached g' hne (h.attached g' hne hg')

theorem attached_enqueue (c : Client) (f : Frame) : (c.enqueue f).attached = c.attached := by
  exact (congrArg Wire.attached (c.wire_enqueue f)).trans (c.wire.attached_enqueue f)

theorem spares_enqueue (hattached : c.attached = some g) (hready : c.ready = true) (f : Frame) :
    Spares g c (c.enqueue f) := by
  have hpush : c.enqueue f = { c with lines := Table.adjust g (·.push f) c.lines } := by
    rw [enqueue, isReady, push, hattached, hready]
    rfl
  rw [hpush]
  exact ⟨fun g' hne => Table.get?_adjust_of_ne (Ne.symm hne) _ _, rfl, fun g' _ hg' => hg'⟩

theorem not_spares_enqueue (hline : ∀ g', c.attached = some g' → ∃ l, Table.get? g' c.lines = some l)
    (hattached : c.attached ≠ some g) (f : Frame) {c' : Client}
    (hlines : c'.lines = (c.enqueue f).lines) (hqueue : c'.queue = (c.enqueue f).queue) :
    ¬Spares g c c' := by
  intro h
  rw [enqueue] at hlines hqueue
  split at hqueue
  next hready =>
    obtain ⟨hsome, -⟩ := Bool.and_eq_true_iff.mp hready
    obtain ⟨g', hg'⟩ := Option.isSome_iff_exists.mp hsome
    obtain ⟨l, hl⟩ := hline g' hg'
    have hkept := h.lines g' fun heq => hattached (heq ▸ hg')
    rw [hlines, if_pos hready, push, hg', Table.get?_adjust_self, hl] at hkept
    have hpushed : l.pushed ++ [f] = l.pushed := congrArg Line.pushed (Option.some.inj hkept)
    exact List.cons_ne_nil f [] (List.append_right_eq_self.mp hpushed)
  next =>
    have hkept : c.queue ++ [f] = c.queue := hqueue.symm.trans h.queue
    exact List.cons_ne_nil f [] (List.append_right_eq_self.mp hkept)

theorem ready_run {acts : List Act} (hle : g ≤ c.generation)
    (hready : c.attached = some g → c.ready = true) (hattached : (c.run acts).attached = some g) :
    (c.run acts).ready = true := by
  induction acts generalizing c with
  | nil => exact hready hattached
  | cons a rest ih =>
    have hstep := c.bond_step a
    have hkept : g ≤ (c.act a).generation ∧ ((c.act a).attached = some g → (c.act a).ready = true) :=
      Bond.Step.ready hstep hle hready
    exact ih hkept.1 hkept.2 hattached

theorem exists_line_run (settings : Settings) (policy : HolderPolicy) (processId : Nat) (hashing : Hashing)
    (acts : List Act) {g : Nat}
    (hg : ((new settings policy processId hashing).run acts).attached = some g) :
    ∃ l, Table.get? g ((new settings policy processId hashing).run acts).lines = some l := by
  obtain ⟨fs, hfs, -⟩ := (placed_run settings policy processId hashing acts).1.line g hg
  obtain ⟨l, hl, -⟩ := Option.map_eq_some_iff.mp hfs
  exact ⟨l, hl⟩

theorem spares_notify_iff (hline : ∀ g', c.attached = some g' → ∃ l, Table.get? g' c.lines = some l)
    (hready : c.attached = some g → c.ready = true) (method : String) (params : Option Json)
    {c' : Client} (h : c' = c.notify method params ∨ c' = (c.notify method params).disconnect) :
    Spares g c c' ↔ c.attached = some g := by
  constructor
  · intro hspares
    refine Decidable.byContradiction fun hattached => ?_
    obtain rfl | rfl := h
    · exact not_spares_enqueue hline hattached _ rfl rfl hspares
    · exact not_spares_enqueue hline hattached _ (lines_disconnect _) (queue_disconnect _) hspares
  · intro hattached
    have hnotify : Spares g c (c.notify method params) :=
      spares_enqueue hattached (hready hattached) _
    obtain rfl | rfl := h
    · exact hnotify
    · refine hnotify.trans (spares_disconnect_iff.mpr (.inl ?_))
      exact (c.attached_enqueue _).trans hattached

end Client

namespace Agenda

variable {a : Agenda}

theorem dropIfUnused_of_held (hheld : a.held = true) : a.dropIfUnused = a := by
  rw [dropIfUnused, hheld, if_neg]
  simp

theorem client_finish (hheld : a.held = true) (id : Nat) (report : Option Report) :
    (a.finish id report).client = a.client := by
  have hkept : ∀ b : Agenda, b.held = true → b.client = a.client →
      b.wake.dropIfUnused.client = a.client := by
    intro b hb hclient
    rw [dropIfUnused_of_held (a := b.wake) hb]
    exact hclient
  unfold finish
  exact hkept _ (by dsimp only; split <;> exact hheld) (by dsimp only; split <;> rfl)

theorem client_leaveTurn (hheld : a.held = true) (id : Nat) (result : Except ClientError Unit) :
    (a.leaveTurn id result).client = a.client.disconnect :=
  client_finish (a := a.update a.client.disconnect) hheld id _

theorem client_finishShutdownTurn (hheld : a.held = true) (id : Nat) (outcome : Outcome) :
    (∃ e, AnswerShape.nothing.ofOutcome outcome = .error e ∧
        (a.finishShutdownTurn id outcome).client = a.client.disconnect) ∨
      ∃ v, AnswerShape.nothing.ofOutcome outcome = .ok v ∧
        ((a.finishShutdownTurn id outcome).client = a.client.notify "exit" none ∨
          (a.finishShutdownTurn id outcome).client = (a.client.notify "exit" none).disconnect) := by
  rw [finishShutdownTurn, Client.afterShutdown]
  cases AnswerShape.nothing.ofOutcome outcome with
  | error e => exact .inl ⟨e, rfl, client_leaveTurn (a := a.update a.client) hheld id _⟩
  | ok v =>
    refine .inr ⟨v, rfl, ?_⟩
    have hleave := client_leaveTurn (a := a.update (a.client.notify "exit" none)) hheld id (.ok ())
    dsimp only
    split
    · split
      · exact .inr hleave
      · exact .inl rfl
    · exact .inr hleave

/-- The rest of a shutdown spares everybody else if and only if it finds the connection that it was
called on, or none, and then has no goodbye to say. What happens between its steps does not matter
otherwise. -/
theorem shutdown_spares_others_iff (settings : Settings) (policy : HolderPolicy) (processId : Nat) (hashing : Hashing)
    (before mid : List Client.Act) (g : Nat)
    (hphase : ((Client.new settings policy processId hashing).run before).phase = .initialized)
    (hattached : ((Client.new settings policy processId hashing).run before).attached = some g)
    (a : Agenda) (hheld : a.held = true)
    (hclient : a.client =
      (Client.new settings policy processId hashing).run (before ++ .beginShutdown :: mid)) (id : Nat) :
    (∀ request outcome, a.client.outcome? request = some outcome →
      (Client.Spares g a.client (a.turn id (.finishShutdown request)).client ↔
        a.client.attached = some g ∨
          a.client.attached = none ∧ ∃ e, AnswerShape.nothing.ofOutcome outcome = .error e)) ∧
    ∀ mark result, Client.Spares g a.client (a.turn id (.leave mark result)).client ↔
      a.client.attached = some g ∨ a.client.attached = none := by
  have htied := Client.tied_run (Client.tied_new settings policy processId hashing) before
  have hready : a.client.attached = some g → a.client.ready = true := by
    rw [hclient, Client.run_append]
    refine Client.ready_run (Nat.le_of_eq (htied.latest g hattached).symm) fun _ => ?_
    exact (Bool.and_eq_true_iff.mp (htied.phase.mp hphase)).2
  have hline : ∀ g', a.client.attached = some g' → ∃ l, Table.get? g' a.client.lines = some l := by
    rw [hclient]
    exact fun g' => Client.exists_line_run settings policy processId hashing _
  constructor
  · intro request outcome houtcome
    have hturn : a.turn id (.finishShutdown request) =
        { a with client := a.client.forget request }.finishShutdownTurn id outcome := by
      rw [turn, withOutcome, houtcome]
    rw [hturn, ← Client.spares_forget_iff request]
    obtain ⟨e, he, hdone⟩ | ⟨v, hv, hdone⟩ := client_finishShutdownTurn
      (a := { a with client := a.client.forget request }) hheld id outcome
    · rw [hdone, Client.spares_disconnect_iff]
      exact or_congr_right ⟨fun hnone => ⟨hnone, e, he⟩, And.left⟩
    · refine (Client.spares_notify_iff (c := a.client.forget request) hline hready _ _ hdone).trans
        ⟨Or.inl, ?_⟩
      rintro (hg | ⟨-, e, he⟩)
      · exact hg
      · cases hv.symm.trans he
  · intro mark result
    rw [turn, client_leaveTurn hheld, Client.spares_disconnect_iff]

theorem shutdown_spares_others_of_answer :
    let answer : Json := .object [("capabilities", .object [])]
    let before : List Client.Act := [.beginConnect 0, .finishConnect 1 (.ok answer)]
    let mid : List Client.Act := [.receive (Response.success (.number 2) .null).toJson.compact]
    let c := Client.new .standard .exclusive 1 .rising
    let acts := before ++ Client.Act.beginShutdown :: mid
    let a := { new .standard .exclusive 1 .rising with client := c.run acts }
    (c.run before).phase = .initialized ∧ (c.run before).attached = some 1 ∧
      (a.client.outcome? 2).bind Except.toOption = some .null ∧
      Client.Spares 1 a.client (a.turn 0 (.finishShutdown 2)).client ∧
      (a.turn 0 (.finishShutdown 2)).client.line?.bind (fun l => l.pushed.getLast?) =
        some (.notification "exit" none) := by
  intro answer before mid c acts a
  have hphase : (c.run before).phase = .initialized := by decide +kernel
  have hattached : (c.run before).attached = some 1 := by decide +kernel
  have hanswer : (a.client.outcome? 2).bind Except.toOption = some .null := by decide +kernel
  obtain ⟨outcome, houtcome, -⟩ := Option.bind_eq_some_iff.mp hanswer
  refine ⟨hphase, hattached, hanswer, ?_, by decide +kernel⟩
  have hspares := shutdown_spares_others_iff .standard .exclusive 1 .rising before mid 1 hphase hattached a rfl
    rfl 0
  exact (hspares.1 2 outcome houtcome).mpr (.inl (by decide +kernel))

/-- Two shutdowns that go on when their connection is gone: the one finds another connection, and
lets that go; the other finds none, and its goodbye is told to the next one. -/
theorem shutdown_of_lost_connection :
    let answer : Json := .object [("capabilities", .object [])]
    let c := (Client.new .standard .exclusive 1 .rising).run
      [.beginConnect 0, .finishConnect 1 (.ok answer), .beginShutdown]
    let text := (Response.success (.number 2) .null).toJson.compact
    let a := { new .standard .exclusive 1 .rising with client := c.run [.beginConnect 1] }
    let b := { new .standard .exclusive 1 .rising with client := c.run [.receive text, .disconnect] }
    ((a.client.outcome? 2).isSome ∧ a.client.attached = some 2 ∧
      (a.turn 0 (.finishShutdown 2)).client.attached = none ∧
      ¬Client.Spares 1 a.client (a.turn 0 (.finishShutdown 2)).client) ∧
    ((b.client.outcome? 2).isSome ∧
      ((b.turn 0 (.finishShutdown 2)).client.run
        [.beginConnect 1, .finishConnect 4 (.ok answer)]).line?.bind (fun l => l.pushed.getLast?) =
          some (.notification "exit" none) ∧
      ¬Client.Spares 1 b.client (b.turn 0 (.finishShutdown 2)).client) := by
  intro answer c text a b
  have hother : a.client.attached = some 2 := by decide +kernel
  have hgone : (a.turn 0 (.finishShutdown 2)).client.attached = none := by decide +kernel
  have hkept : (b.turn 0 (.finishShutdown 2)).client.queue ≠ b.client.queue := by decide +kernel
  refine ⟨⟨by decide +kernel, hother, hgone, fun h => ?_⟩, by decide +kernel, by decide +kernel,
    fun h => hkept h.queue⟩
  cases hgone.symm.trans (h.attached 2 (by decide) hother)

end Agenda

end LanguageClient
