import LanguageClient.Proofs.Client.Sweeping

namespace LanguageClient

namespace Agenda

open RequestTable (Watch Move)

namespace Kept

variable {a : Agenda} (h : a.Kept)
include h

section Turn

omit h in
theorem writeAll (n : Nat) {a : Agenda} (h : a.Kept) : (Agenda.writeAll n a).Kept := by
  induction n generalizing a with
  | zero => exact h
  | succ n ih =>
    rw [Agenda.writeAll]
    cases hwrite : a.client.write? (nanoseconds a.now) with
    | none => exact h
    | some client => exact ih (h.of_act (Client.act_write hwrite) fun _ => Client.Act.noConfusion)

theorem withOutcome (request : Nat) {go : Agenda → Outcome → Agenda}
    (hgo : ∀ {a : Agenda} (outcome : Outcome), a.Kept → (go a outcome).Kept) :
    (a.withOutcome request go).Kept := by
  rw [Agenda.withOutcome]
  cases a.client.outcome? request with
  | none => exact h
  | some outcome => exact hgo outcome (h.forget request)

variable {id : Nat} (hid : id ≠ sweeper)
include hid

theorem writeTurn (generation : Nat) : (a.writeTurn id generation).Kept := by
  rw [Agenda.writeTurn]
  split
  next =>
    split
    next => exact writeAll _ h
    next => exact h
  next => exact h.finish hid none

theorem respondTurn (question : RequestId) (answer : Except ResponseError Json) :
    (a.respondTurn id question answer).Kept := by
  rw [Agenda.respondTurn]
  split
  next => exact (h.act (x := .respond question answer) nofun).finish hid none
  next => exact h.finish hid none

theorem ponderTurn (q : Question) : (a.ponderTurn id q).Kept := by
  rw [Agenda.ponderTurn]
  split
  next => exact h.respondTurn hid q.id q.answer
  next => exact (h.setJob hid (.respond q.id q.answer) nofun).setAlarm hid _

theorem connectTurn (transport : Nat) : (a.connectTurn id transport).Kept := by
  have hset (generation request : Nat) := h.setJob hid (.finishConnect generation request) nofun
  exact ((hset _ _).act (x := .beginConnect transport) nofun).spawn none nofun

theorem finishConnectTurn (generation : Nat) (outcome : Outcome) :
    ((a.update (a.client.finishConnect generation outcome).2).finish id
      (some (.connected (a.client.finishConnect generation outcome).1))).Kept :=
  (h.act (x := .finishConnect generation outcome) nofun).finish hid _

theorem leaveTurn (result : Except ClientError Unit) : (a.leaveTurn id result).Kept :=
  (h.act (x := .disconnect) nofun).finish hid _

theorem finishShutdownTurn (outcome : Outcome) : (a.finishShutdownTurn id outcome).Kept := by
  have hact := h.act (x := .afterShutdown outcome) nofun
  rw [Client.act] at hact
  rw [Agenda.finishShutdownTurn]
  generalize a.client.afterShutdown outcome = after at hact
  obtain ⟨result, client⟩ := after
  cases result with
  | error e => exact hact.leaveTurn hid (.error e)
  | ok =>
    dsimp only
    split
    next =>
      split
      next => exact hact.leaveTurn hid (.ok ())
      next => exact hact.setJob hid _ Job.noConfusion
    next => exact hact.leaveTurn hid (.ok ())

theorem shutDownTurn : (a.shutDownTurn id).Kept := by
  rw [Agenda.shutDownTurn]
  cases hbegin : a.client.beginShutdown with
  | error refused =>
    have hact := Client.act_beginShutdown_of_error hbegin
    exact (h.of_act hact fun _ => Client.Act.noConfusion).finish hid _
  | ok started =>
    have hact := Client.act_beginShutdown_of_ok hbegin
    exact h.setJob_of_act hid hact (fun _ => Client.Act.noConfusion) _ Job.noConfusion

theorem requestTurn (call : Call) (attempt : Nat) : (a.requestTurn id call attempt).Kept := by
  rw [Agenda.requestTurn]
  cases hattempt : a.client.attempt call with
  | error e => exact h.finish hid _
  | ok started =>
    have hact := Client.act_request_of_attempt hattempt
    exact h.setJob_of_act hid hact (fun _ => Client.Act.noConfusion) _ Job.noConfusion

theorem finishRequestTurn (call : Call) (attempt : Nat) (outcome : Outcome) :
    (a.finishRequestTurn id call attempt outcome).Kept := by
  rw [Agenda.finishRequestTurn]
  split
  next => exact h.finish hid _
  next =>
    split
    next => exact h.finish hid _
    next => exact h.requestTurn hid call _
    next => exact (h.setJob hid (.request call (attempt + 1)) nofun).setAlarm hid _

theorem mappedTurn (call : Call) : (a.mappedTurn id call).Kept := by
  rw [Agenda.mappedTurn]
  split
  next =>
    split
    next => exact h.finish hid _
    next =>
      cases hstart : a.client.startMapped call.method call.params call.key with
      | none => exact h
      | some started =>
        obtain ⟨result, client⟩ := started
        have hact := Client.act_startMapped hstart
        cases result with
        | error e => exact (h.of_act hact fun _ => Client.Act.noConfusion).finish hid _
        | ok asked =>
          exact h.setJob_of_act hid hact (fun _ => Client.Act.noConfusion) _ Job.noConfusion
  next => exact h

omit hid in
theorem keep (name : String) (m : Mapping) : (a.keep name m).Kept := by
  refine h.of_eq (fun halive => halive) rfl rfl rfl rfl rfl fun _ => ?_
  rw [Agenda.keep]
  cases Table.get? name a.mappings <;> rfl

theorem finishMappedTurn (call : Call) (m : Mapping) (outcome : Outcome) :
    (a.finishMappedTurn id call m outcome).Kept := by
  have hact := h.act (x := .finishMapped call m outcome) nofun
  rw [Client.act] at hact
  unfold Agenda.finishMappedTurn
  dsimp only
  split
  next => exact (hact.keep _ m).finish hid _
  next => exact hact.finish hid _

theorem turn {job : Job} (hjob : job ≠ .sweep) : (a.turn id job).Kept := by
  cases job with
  | sweep => exact absurd rfl hjob
  | write generation => exact h.writeTurn hid generation
  | ponder q => exact h.ponderTurn hid q
  | respond question answer => exact h.respondTurn hid question answer
  | connect transport => exact h.connectTurn hid transport
  | finishConnect generation request =>
    exact h.withOutcome request fun outcome h => h.finishConnectTurn hid generation outcome
  | shutDown => exact h.shutDownTurn hid
  | finishShutdown request =>
    exact h.withOutcome request fun outcome h => h.finishShutdownTurn hid outcome
  | leave mark result => exact h.leaveTurn hid result
  | awaitHandshake =>
    rw [Agenda.turn]
    split
    next => exact h.finish hid _
    next => exact h
  | awaitOutcome request =>
    exact h.withOutcome request fun outcome h => h.finish hid (some (.answered outcome))
  | request call attempt => exact h.requestTurn hid call attempt
  | finishRequest call attempt request =>
    exact h.withOutcome request fun outcome h => h.finishRequestTurn hid call attempt outcome
  | mapped call => exact h.mappedTurn hid call
  | finishMapped call m request =>
    exact h.withOutcome request fun outcome h => h.finishMappedTurn hid call m outcome

end Turn

theorem outOfLine {id : Nat} (hid : id ≠ sweeper) : Kept { a with line := a.line.erase id } where
  toStaffed := h.toStaffed.of_eq rfl rfl
  watched halive := by
    have hwatched := h.watched halive
    refine hwatched.of_still hwatched.present rfl rfl (List.mem_erase_of_ne (Ne.symm hid)) ?_ rfl
    rw [List.count_erase_of_ne (Ne.symm hid)]
    exact hwatched.once

theorem next? {a' : Agenda} (hnext : a.next? = some a') : a'.Kept := by
  obtain ⟨id, hhead, rfl⟩ := Option.map_eq_some_iff.mp hnext
  have hline : id ∈ a.line := List.mem_of_head? hhead
  by_cases hid : id = sweeper
  · subst hid
    cases herrand : Table.get? sweeper a.errands with
    | some e =>
      dsimp only
      rw [(h.posted sweeper e herrand).mpr rfl]
      exact h.sweepTurn hline
    | none =>
      exact {
        toStaffed := h.toStaffed.of_eq rfl rfl
        watched := fun halive => by
          obtain ⟨e, he⟩ := (h.watched halive).present
          cases herrand.symm.trans he }
  · cases herrand : Table.get? id a.errands with
    | some e => exact (h.turn hid fun hjob => hid ((h.posted id e herrand).mp hjob)).outOfLine hid
    | none => exact h.outOfLine hid

theorem run {acts : List Client.Act} (hacts : ∀ x ∈ acts, ∀ now, x ≠ .sweep now) :
    (a.update (a.client.run acts)).Kept := by
  obtain ⟨moves, hmoves, hplain⟩ := Client.exists_moves_of_run a.client hacts
  exact h.calls hmoves hplain

theorem release : a.release.Kept := by
  have hreleased : Kept { a with held := false } :=
    h.of_eq (fun halive => halive) rfl rfl rfl rfl rfl fun _ => rfl
  exact hreleased.dropIfUnused

theorem receive (raw : String) : (a.receive raw).2.Kept := by
  have hact := h.act (x := .receive raw) nofun
  rw [Agenda.receive]
  dsimp only
  split
  next => exact hact.spawn none nofun
  next => exact hact

theorem deliver (transport : Nat) (raw : String) : (a.deliver transport raw).2.Kept := by
  rw [Agenda.deliver]
  split
  next =>
    split
    next => exact h
    next => exact h.receive raw
  next => exact h

end Kept

/-- What a client and its user can come to, if time passes only when nobody can go on. -/
inductive Reachable : Agenda → Prop
  | new (settings : Settings) (policy : HolderPolicy) (processId : Nat) (hashing : Hashing) :
      Reachable (.new settings policy processId hashing)
  | acts {a : Agenda} (h : Reachable a) {acts : List Client.Act}
      (hacts : ∀ x ∈ acts, ∀ now, x ≠ .sweep now) : Reachable (a.update (a.client.run acts))
  | spawn {a : Agenda} (h : Reachable a) (name : Option String) {job : Job} (hjob : job ≠ .sweep) :
      Reachable (a.spawn name job)
  | receive {a : Agenda} (h : Reachable a) (raw : String) : Reachable (a.receive raw).2
  | deliver {a : Agenda} (h : Reachable a) (transport : Nat) (raw : String) :
      Reachable (a.deliver transport raw).2
  | addTransport {a : Agenda} (h : Reachable a) (channel : Channel Unit) :
      Reachable (a.addTransport channel).2
  | takeSent {a : Agenda} (h : Reachable a) : Reachable a.takeSent.2
  | takeReports {a : Agenda} (h : Reachable a) : Reachable a.takeReports.2
  | keep {a : Agenda} (h : Reachable a) (name : String) (m : Mapping) : Reachable (a.keep name m)
  | discard {a : Agenda} (h : Reachable a) (name : String) (m : Mapping) :
      Reachable (a.discard name m)
  | release {a : Agenda} (h : Reachable a) : Reachable a.release
  | next {a a' : Agenda} (h : Reachable a) (hnext : a.next? = some a') : Reachable a'
  | pass {a : Agenda} (h : Reachable a) {later : Nat} (hlater : a.now ≤ later)
      (hline : a.now < later → a.line = []) : Reachable ({ a with now := later } : Agenda).ring

theorem kept_new (settings : Settings) (policy : HolderPolicy) (processId : Nat) (hashing : Hashing) :
    (Agenda.new settings policy processId hashing).Kept where
  sorted := List.pairwise_singleton ..
  posted id e he := by
    rw [Agenda.new, Agenda.spawn, Table.put, Table.get?] at he
    split at he
    next heq =>
      cases he
      exact iff_of_true rfl heq.symm
    next => cases he
  fresh := Nat.zero_lt_one
  watched _ := {
    present := ⟨_, rfl⟩
    watch := ⟨[], _, .start hashing 0, by simp, {
      table := rfl
      now := (Nat.zero_mul _).symm
      ready := iff_of_true List.mem_cons_self rfl
      once := Nat.le_refl 1
      alarm := fun alarm hstand => by cases hstand }⟩ }

theorem Reachable.kept {a : Agenda} (h : a.Reachable) : a.Kept := by
  induction h with
  | new settings policy processId hashing => exact kept_new settings policy processId hashing
  | acts _ hacts ih => exact ih.run hacts
  | spawn _ name hjob ih => exact ih.spawn name hjob
  | receive _ raw ih => exact ih.receive raw
  | deliver _ transport raw ih => exact ih.deliver transport raw
  | addTransport | takeSent | takeReports | discard =>
    rename_i ih
    exact ih.of_eq (fun halive => halive) rfl rfl rfl rfl rfl fun _ => rfl
  | keep _ name m ih => exact ih.keep name m
  | release _ ih => exact ih.release
  | next _ hnext ih => exact ih.next? hnext
  | pass _ hlater hline ih =>
    refine ih.ring hlater fun hready => ?_
    refine Nat.le_antisymm (Nat.le_of_not_lt fun hlt => ?_) hlater
    rw [hline hlt] at hready
    cases hready

section Alone

variable {a : Agenda}

theorem line_wake_of_alone (herrands : a.errands = [(sweeper, ⟨none, .sweep⟩)])
    (hline : a.line = [sweeper]) : a.wake.line = [sweeper] := by
  cases hgo : a.canGo .sweep <;>
    simp [wake, enqueue, due, herrands, hline, hgo, Table.keys, Job.outcomeId?, Job.isService]

theorem Reachable.exists_of_alone (h : a.Reachable) (halive : a.alive = true)
    (herrands : a.errands = [(sweeper, ⟨none, .sweep⟩)]) (hline : a.line = [sweeper]) :
    ∃ a', Reachable a' ∧ a'.alive = true ∧ a'.line = [] ∧
      a'.client = (a.client.sweep (nanoseconds a.now)).2 := by
  obtain ⟨alarms, hturn, -⟩ := a.exists_sweepTurn sweeper halive
  have hnext : a.next? = some { a.sweepTurn sweeper with
      line := (a.sweepTurn sweeper).line.erase sweeper } := by
    rw [next?, hline, herrands]
    rfl
  refine ⟨_, h.next hnext, ?_, ?_, ?_⟩
  · rw [hturn]
    exact halive
  · let swept : Agenda := { a with client := (a.client.sweep (nanoseconds a.now)).2 }
    have hwoken : swept.wake.line = [sweeper] := line_wake_of_alone herrands hline
    rw [hturn]
    exact (congrArg (List.erase · sweeper) hwoken).trans rfl
  · rw [hturn]
    rfl

end Alone

/-- No request outlives its deadline or falls short of it. While the sweeper sleeps and is not called,
its alarm is no later than any deadline, and time passes before all of them. Unless somebody else says
so, a request runs out of time no sooner than its timeout after it was handed over, and a queued one
never. A sweep ends just those whose time has run out. This holds of a table and its sweeper, whoever
calls the table and when, and what a client does with its table comes of such calls. -/
theorem deadlines_kept :
    (∀ es w, Watch.Run es w →
      (∀ alarm, w.stand = .sleeps alarm → w.table.called = false →
        (∀ m, alarm = some m →
          ∀ id r d, w.table.get? id = some r → r.deadline = some d → m ≤ d) ∧
        (alarm = none → ∀ id r, w.table.get? id = some r → r.deadline = none)) ∧
      (∀ later w', w.Step (.pass later) w' →
        ∀ id r d, w.table.get? id = some r → r.deadline = some d → w.now < d) ∧
      (∀ e w' id method timeout, w.Step e w' →
        (id, .error (.timeout method timeout)) ∈ w.settles e →
          e = .call (.reject id (.timeout method timeout)) ∨
          e = .expire ∧ ∃ start, Watch.dispatched? id es = some start ∧ start + timeout ≤ w.now) ∧
      (∀ id r, w.table.get? id = some r → r.state = .queued → r.deadline = none) ∧
      ∀ now, w.table.Sweeps now (w.table.sweep now).1 (w.table.sweep now).2) ∧
    ∀ a, Reachable a → a.alive = true →
      ∃ es w, Watch.Run es w ∧ (∀ e ∈ es, e.isPlain = true) ∧
        w.table = a.client.requests ∧ w.now = nanoseconds a.now ∧
        (sweeper ∉ a.line → ∃ alarm, w.stand = .sleeps alarm ∧ w.table.called = false ∧
          a.alarmsOf sweeper = alarm.toList.map tick) ∧
        (a.line = [] → ∀ id r d, a.client.requests.get? id = some r → r.deadline = some d →
          nanoseconds a.now < d) := by
  refine ⟨fun es w hrun => ?_, fun a hreachable halive => ?_⟩
  · have hsound := Watch.Sound.of_run hrun
    refine ⟨fun alarm hstand hcalled => ?_, fun later w' hstep => ?_,
      fun e w' id method timeout hstep => hsound.of_timeout hstep, hsound.queued,
      RequestTable.sweeps_sweep hsound.sorted⟩
    · have hcovers := hsound.covered alarm hstand hcalled
      have hcovered : ∀ id r d, w.table.get? id = some r → r.deadline = some d →
          ∃ m, alarm = some m ∧ m ≤ d := fun id r d hr hd =>
        hcovers d ((RequestTable.mem_deadlines_iff hsound.sorted).mpr ⟨id, r, hr, hd⟩)
      refine ⟨fun m hm id r d hr hd => ?_, fun hnone id r hr => ?_⟩
      · obtain ⟨m', hm', hle⟩ := hcovered id r d hr hd
        cases hm.symm.trans hm'
        exact hle
      · refine Option.eq_none_iff_forall_ne_some.mpr fun d hd => ?_
        obtain ⟨m, hm, -⟩ := hcovered id r d hr hd
        cases hnone.symm.trans hm
    · cases hstep with
      | pass later hidle hlater => exact fun id r d => hsound.lt_of_isIdle hidle
  · obtain ⟨es, w, hrun, hplain, htracks⟩ := (hreachable.kept.watched halive).watch
    have hidle : sweeper ∉ a.line → w.isIdle = true := fun hout => by
      rw [← Bool.not_eq_false]
      exact fun hready => hout (htracks.ready.mpr hready)
    refine ⟨es, w, hrun, hplain, htracks.table, htracks.now, fun hout => ?_,
      fun hline id r d hr hd => ?_⟩
    · obtain ⟨alarm, hstand, hcalled, -⟩ := Watch.exists_alarm_of_isIdle (hidle hout)
      exact ⟨alarm, hstand, hcalled, htracks.alarm alarm hstand (hidle hout)⟩
    · have hout : sweeper ∉ a.line := by
        rw [hline]
        exact List.not_mem_nil
      rw [← htracks.now]
      rw [← htracks.table] at hr
      exact (Watch.Sound.of_run hrun).lt_of_isIdle (hidle hout) hr hd

theorem deadlines_kept_of_rearm :
    (∃ es w w', Watch.Run es w ∧ w.Step (.pass 4) w' ∧ w.stand = .sleeps (some 4) ∧
      w.table.deadlines = [6, 4] ∧
      (∀ id r d, w.table.get? id = some r → r.deadline = some d → 4 ≤ d ∧ w.now < d) ∧
      (∃ start, Watch.dispatched? 2 (es ++ [.pass 4]) = some start ∧ start + 3 ≤ 4) ∧
      w'.table.Sweeps 4 [2] (w'.table.sweep 4).2) ∧
    ∃ a r d, Reachable a ∧ a.alive = true ∧ a.line = [] ∧
      a.client.requests.get? 1 = some r ∧ r.deadline = some d ∧ nanoseconds a.now < d := by
  let start := Agenda.new .standard .exclusive 1 .rising
  let asking : List Client.Act := [.addTransport 0, .beginConnect 0, .write 1]
  let w : Watch := ⟨⟨.rising, 3, [(1, ⟨"long", none, 6, some 6, .inFlight⟩),
    (2, ⟨"short", none, 3, some 4, .inFlight⟩)], [], [(1, none), (2, none)], false⟩,
    .sleeps (some 4), 1⟩
  have hrun : Watch.Run _ w := ((((((((((Watch.Run.start .rising 0).step
    (.call (.create "long" 6 none) nofun)).step
    (.call (.dispatch 1 0) nofun)).step
    (.look rfl)).step
    (.rise rfl rfl)).step
    (.look rfl)).step
    (.pass 1 rfl (Nat.zero_le 1))).step
    (.call (.create "short" 3 none) nofun)).step
    (.call (.dispatch 2 1) nofun)).step
    (.rise rfl rfl)).step
    (.look rfl)
  have hpass : w.Step (.pass 4) _ := .pass 4 rfl (by decide)
  have hexpire : Watch.Step _ .expire _ := .expire (w := { w with now := 4 }) (d := 4) rfl (by decide)
  obtain ⟨hsleeps, htime, -⟩ := deadlines_kept.1 _ w hrun
  obtain ⟨-, -, hends, -, hsweeps⟩ := deadlines_kept.1 _ _ (hrun.step hpass)
  have hearly := (hsleeps _ rfl rfl).1 4 rfl
  have hstart := hends _ _ 2 "short" 3 hexpire List.mem_cons_self
  refine ⟨⟨_, w, _, hrun, hpass, rfl, rfl, fun id r d hr hd => ?_, ?_, hsweeps 4⟩, ?_⟩
  · exact ⟨hearly id r d hr hd, htime 4 _ hpass id r d hr hd⟩
  · obtain hsaid | ⟨-, hstart⟩ := hstart
    · cases hsaid
    · exact hstart
  have hasked : Reachable (start.update (start.client.run asking)) :=
    .acts (.new .standard .exclusive 1 .rising) (by simp [asking])
  obtain ⟨a, ha, halive, hline, hclient⟩ :=
    hasked.exists_of_alone rfl rfl (line_wake_of_alone rfl rfl)
  obtain ⟨_, _, -, -, -, -, -, htime⟩ := deadlines_kept.2 a ha halive
  have hdeadline : ((a.client.requests.get? 1).bind LiveRequest.deadline).isSome := by
    rw [hclient]
    decide +kernel
  obtain ⟨d, hd⟩ := Option.isSome_iff_exists.mp hdeadline
  obtain ⟨r, hr, hd⟩ := Option.bind_eq_some_iff.mp hd
  exact ⟨a, r, d, ha, halive, hline, hr, hd, htime hline 1 r d hr hd⟩

end Agenda

end LanguageClient
