import LanguageClient.Client.Turn
import LanguageClient.Proofs.Client.Dealings
import LanguageClient.Proofs.Request.Sweeper

namespace LanguageClient

namespace Client

open RequestTable (Watch)

theorem isPlain_of_mem_dealings {c : Client} {a : Act} (ha : ∀ now, a ≠ .sweep now)
    {mv : RequestTable.Move} (h : mv ∈ c.dealings a) : (Watch.Event.call mv).isPlain = true := by
  cases dealing_of_mem h with
  | sweep => exact absurd rfl (ha _)
  | fail hraw hid =>
    rw [ClientError.ofResponse]
    split <;> rfl
  | _ => rfl

theorem exists_moves_of_run (c : Client) {acts : List Act}
    (hacts : ∀ x ∈ acts, ∀ now, x ≠ .sweep now) :
    ∃ moves, (c.run acts).requests = c.requests.run moves ∧
      ∀ mv ∈ moves, (Watch.Event.call mv).isPlain = true := by
  induction acts generalizing c with
  | nil => exact ⟨[], rfl, by simp⟩
  | cons x rest ih =>
    have hx := hacts x List.mem_cons_self
    obtain ⟨moves, hmoves, hplain⟩ := ih (c.act x) fun y hy => hacts y (List.mem_cons_of_mem _ hy)
    refine ⟨c.dealings x ++ moves, ?_, fun mv hmv => ?_⟩
    · rw [RequestTable.run_append, ← deals_of_not_sweep hx]
      exact hmoves
    · exact (List.mem_append.mp hmv).elim (isPlain_of_mem_dealings hx) (hplain mv)

end Client

namespace Agenda

open RequestTable (Watch Move)

def sweeper : Nat := 0

def alarmsOf (a : Agenda) (id : Nat) : List Nat :=
  (a.alarms.filter (·.2 == id)).map Prod.fst

structure Staffed (a : Agenda) : Prop where
  sorted : Table.Sorted a.errands
  posted : ∀ id e, Table.get? id a.errands = some e → (e.job = .sweep ↔ id = sweeper)
  fresh : sweeper < a.nextErrand

structure Tracks (a : Agenda) (w : Watch) : Prop where
  table : w.table = a.client.requests
  now : w.now = nanoseconds a.now
  ready : sweeper ∈ a.line ↔ w.isIdle = false
  once : a.line.count sweeper ≤ 1
  alarm : ∀ alarm, w.stand = .sleeps alarm → w.isIdle = true →
    a.alarmsOf sweeper = alarm.toList.map tick

structure Watched (a : Agenda) : Prop where
  present : ∃ e, Table.get? sweeper a.errands = some e
  watch : ∃ es w, Watch.Run es w ∧ (∀ e ∈ es, e.isPlain = true) ∧ a.Tracks w

structure Kept (a : Agenda) : Prop extends a.Staffed where
  watched : a.alive = true → a.Watched

theorem tick_le_iff {ns ms : Nat} : tick ns ≤ ms ↔ ns ≤ nanoseconds ms := by
  rw [tick, nanoseconds]
  omega

theorem exists_tick_le_iff {ms now : Nat} (hnow : ∀ ns, tick ns ≤ ms ↔ ns ≤ now)
    (alarm : Option Nat) : (∃ m ∈ alarm.toList.map tick, m ≤ ms) ↔ alarm.all (now < ·) = false := by
  cases alarm <;> simp [hnow]

theorem nanoseconds_le {ms ms' : Nat} (h : ms ≤ ms') :
    nanoseconds ms ≤ nanoseconds ms' :=
  Nat.mul_le_mul_right _ h

section Alarm

variable {id other : Nat}

theorem alarmsOf_clearAlarm_self (a : Agenda) (id : Nat) : (a.clearAlarm id).alarmsOf id = [] := by
  have hnone : (a.alarms.filter (·.2 != id)).filter (·.2 == id) = [] := by
    simp [List.filter_eq_nil_iff]
  rw [alarmsOf, clearAlarm, hnone, List.map_nil]

theorem alarmsOf_clearAlarm_of_ne (a : Agenda) (h : other ≠ id) :
    (a.clearAlarm other).alarmsOf id = a.alarmsOf id := by
  have hsame : (a.alarms.filter (·.2 != other)).filter (·.2 == id) = a.alarms.filter (·.2 == id) := by
    rw [List.filter_filter]
    refine List.filter_congr fun e _ => ?_
    by_cases he : e.2 = id <;> simp [he, Ne.symm h]
  rw [alarmsOf, clearAlarm, hsame, alarmsOf]

theorem alarmsOf_setAlarm_self (a : Agenda) (id moment : Nat) :
    (a.setAlarm id moment).alarmsOf id = [moment] := by
  have hnone := a.alarmsOf_clearAlarm_self id
  rw [alarmsOf] at hnone ⊢
  rw [setAlarm, List.filter_append, List.map_append, hnone]
  simp

theorem alarmsOf_setAlarm_of_ne (a : Agenda) (h : other ≠ id) (moment : Nat) :
    (a.setAlarm other moment).alarmsOf id = a.alarmsOf id := by
  have hsame := a.alarmsOf_clearAlarm_of_ne h
  rw [alarmsOf] at hsame ⊢
  rw [setAlarm, List.filter_append, List.map_append, hsame]
  simp [h]

end Alarm

section Line

variable {a : Agenda} {ids : List Nat} {id : Nat}

theorem mem_enqueue_iff : id ∈ (a.enqueue ids).line ↔ id ∈ a.line ∨ id ∈ ids := by
  rw [enqueue, List.mem_append, List.mem_filter]
  by_cases h : id ∈ a.line <;> simp [h]

theorem count_enqueue_of_mem (h : id ∈ a.line) :
    (a.enqueue ids).line.count id = a.line.count id := by
  have hnone : (ids.filter (!a.line.contains ·)).count id = 0 := by
    refine List.count_eq_zero.mpr fun hmem => ?_
    simp [h] at hmem
  rw [enqueue, List.count_append, hnone, Nat.add_zero]

theorem count_enqueue_le (h : a.line.count id ≤ 1) (hids : ids.count id ≤ 1) :
    (a.enqueue ids).line.count id ≤ 1 := by
  by_cases hid : id ∈ a.line
  · rwa [count_enqueue_of_mem hid]
  · rw [enqueue, List.count_append]
    have hle := (List.filter_sublist (p := (!a.line.contains ·)) (l := ids)).count_le id
    have hnone := List.count_eq_zero.mpr hid
    omega

variable (h : a.Staffed)
include h

/-- The sweeper goes on as one of the client's own jobs, before all others. -/
theorem exists_due : ∃ others, a.due = Table.keys ((a.errands.filter fun e =>
    a.canGo e.2.job).filter (·.2.job.isService)) ++ others ∧ sweeper ∉ others := by
  refine ⟨_, List.append_assoc .., fun hmem => ?_⟩
  have hsweep : ∀ e, (sweeper, e) ∈ a.errands → e.job = .sweep := fun e he =>
    (h.posted sweeper e (h.sorted.get?_of_mem he)).mpr rfl
  obtain hanswered | hother := List.mem_append.mp hmem
  · obtain ⟨⟨request, id⟩, hx, rfl⟩ := List.mem_map.mp hanswered
    obtain ⟨⟨id', e⟩, he, heq⟩ := List.mem_filterMap.mp (List.mem_mergeSort.mp hx)
    obtain ⟨request', hrequest, heq⟩ := Option.map_eq_some_iff.mp heq
    cases heq
    rw [hsweep e (List.mem_filter.mp he).1] at hrequest
    cases hrequest
  · obtain ⟨⟨id, e⟩, he, rfl⟩ := List.mem_map.mp hother
    obtain ⟨hable, hidle⟩ := List.mem_filter.mp he
    rw [hsweep e (List.mem_filter.mp hable).1] at hidle
    cases hidle

theorem mem_due_iff (halive : a.alive = true) {e : Errand}
    (hpresent : Table.get? sweeper a.errands = some e) :
    sweeper ∈ a.due ↔ a.client.requests.called = true := by
  obtain ⟨others, hdue, hothers⟩ := exists_due h
  have hjob := (h.posted sweeper e hpresent).mpr rfl
  have hgo : a.canGo e.job = a.client.requests.called := by
    rw [hjob, canGo, halive]
    rfl
  rw [hdue, List.mem_append, or_iff_left hothers, Table.keys, List.mem_map]
  constructor
  · rintro ⟨⟨id, e'⟩, he, rfl⟩
    obtain ⟨hmem, hable⟩ := List.mem_filter.mp (List.mem_filter.mp he).1
    cases hpresent.symm.trans (h.sorted.get?_of_mem hmem)
    exact hgo ▸ hable
  · intro hcalled
    refine ⟨(sweeper, e), List.mem_filter.mpr ⟨?_, by rw [hjob]; rfl⟩, rfl⟩
    exact List.mem_filter.mpr ⟨Table.mem_of_get? hpresent, hgo.trans hcalled⟩

theorem count_due_le : a.due.count sweeper ≤ 1 := by
  obtain ⟨others, hdue, hothers⟩ := exists_due h
  rw [hdue, List.count_append, List.count_eq_zero.mpr hothers]
  have hsorted := (h.sorted.filter fun e => a.canGo e.2.job).filter (·.2.job.isService)
  exact List.nodup_iff_count.mp (List.pairwise_map.mpr (hsorted.imp Nat.ne_of_lt)) sweeper

end Line

section Ring

variable (a : Agenda) {id : Nat}

theorem ring_eq : a.ring = enqueue { a with alarms := a.alarms.filter fun e => !decide (e.1 ≤ a.now) }
    ((a.alarms.filter fun e => e.1 ≤ a.now).map Prod.snd) := by
  rw [ring, List.partition_eq_filter_filter]
  rfl

theorem alarmsOf_ring : a.ring.alarmsOf id = (a.alarmsOf id).filter fun m => !decide (m ≤ a.now) := by
  rw [ring_eq, alarmsOf, alarmsOf, enqueue, List.filter_filter, List.filter_map, List.filter_filter]
  simp only [Function.comp_def, Bool.and_comm]

theorem mem_ring_iff : id ∈ a.ring.line ↔ id ∈ a.line ∨ ∃ moment ∈ a.alarmsOf id, moment ≤ a.now := by
  rw [ring_eq, alarmsOf]
  refine mem_enqueue_iff.trans (or_congr_right ?_)
  simp [and_comm]

theorem count_ring_of_mem (hid : id ∈ a.line) : a.ring.line.count id = a.line.count id := by
  rw [ring_eq]
  exact count_enqueue_of_mem hid

theorem count_ring_le (hid : id ∉ a.line) :
    a.ring.line.count id ≤ (a.alarmsOf id).length := by
  have hdue : (a.alarms.filter fun e => e.1 ≤ a.now).Sublist a.alarms := List.filter_sublist
  have hout := (List.filter_sublist (p := fun id => !a.line.contains id)
    (l := (a.alarms.filter fun e => e.1 ≤ a.now).map Prod.snd)).count_le id
  have hrung : ((a.alarms.filter fun e => e.1 ≤ a.now).map Prod.snd).count id ≤
      (a.alarmsOf id).length := by
    rw [List.count, List.countP_map, alarmsOf, List.length_map, ← List.countP_eq_length_filter]
    exact hdue.countP_le
  rw [ring_eq, enqueue, List.count_append, List.count_eq_zero.mpr hid, Nat.zero_add]
  exact Nat.le_trans hout hrung

end Ring

section Watched

variable {a a' : Agenda}

theorem Watched.mem_of_called (h : a.Watched) (hcalled : a.client.requests.called = true) :
    sweeper ∈ a.line := by
  obtain ⟨es, w, -, -, htracks⟩ := h.watch
  refine htracks.ready.mpr ?_
  rw [Watch.isIdle]
  split
  next => rfl
  next => rw [htracks.table, hcalled]; rfl

theorem Watched.once (h : a.Watched) : a.line.count sweeper ≤ 1 := by
  obtain ⟨es, w, -, -, htracks⟩ := h.watch
  exact htracks.once

theorem Watched.of_moves (h : a.Watched) (hpresent : ∃ e, Table.get? sweeper a'.errands = some e)
    (hnow : a'.now = a.now) (halarms : a'.alarmsOf sweeper = a.alarmsOf sweeper)
    (hline : sweeper ∈ a'.line ↔ sweeper ∈ a.line ∨ a'.client.requests.called = true)
    (honce : a'.line.count sweeper ≤ 1) (moves : List Move)
    (hmoves : a'.client.requests = a.client.requests.run moves)
    (hplain : ∀ mv ∈ moves, (Watch.Event.call mv).isPlain = true) : a'.Watched where
  present := hpresent
  watch := by
    obtain ⟨es, w, hrun, hes, htracks⟩ := h.watch
    obtain ⟨more, hmore, hrun⟩ := w.leads_calls hplain es hrun
    have hcalled : w.table.called = true → (w.table.run moves).called = true := fun hcalled => by
      rw [← Bool.not_eq_false]
      exact fun hquiet => by cases (Watch.called_of_run hquiet).symm.trans hcalled
    have hidle := Watch.isIdle_calls hcalled
    refine ⟨es ++ more, _, hrun, fun e he => ?_, ?_⟩
    · exact (List.mem_append.mp he).elim (hes e) (hmore e)
    · exact {
        table := by rw [hmoves, ← htracks.table]
        now := by rw [hnow, ← htracks.now]
        ready := by
          rw [hidle, hline, htracks.ready, hmoves, ← htracks.table]
          cases w.isIdle <;> simp
        once := honce
        alarm := fun alarm hstand hidle' => by
          rw [hidle] at hidle'
          rw [halarms]
          exact htracks.alarm alarm hstand (Bool.and_eq_true_iff.mp hidle').1 }

theorem Watched.of_still (h : a.Watched) (hpresent : ∃ e, Table.get? sweeper a'.errands = some e)
    (hnow : a'.now = a.now) (halarms : a'.alarmsOf sweeper = a.alarmsOf sweeper)
    (hline : sweeper ∈ a'.line ↔ sweeper ∈ a.line) (honce : a'.line.count sweeper ≤ 1)
    (hrequests : a'.client.requests = a.client.requests) : a'.Watched := by
  refine h.of_moves hpresent hnow halarms (hline.trans ?_) honce [] hrequests (by simp)
  rw [hrequests]
  exact ⟨Or.inl, fun hready => hready.elim id h.mem_of_called⟩

theorem Staffed.of_eq (h : a.Staffed) (herrands : a'.errands = a.errands)
    (hnext : a'.nextErrand = a.nextErrand) : a'.Staffed where
  sorted := herrands ▸ h.sorted
  posted := herrands ▸ h.posted
  fresh := hnext ▸ h.fresh

theorem Staffed.erase (h : a.Staffed) (id : Nat) :
    Staffed { a with errands := Table.erase id a.errands } where
  sorted := h.sorted.erase id
  posted id' e he := by
    by_cases heq : id = id'
    · subst heq
      cases (Table.get?_erase_self _ _).symm.trans he
    · exact h.posted id' e ((Table.get?_erase_of_ne heq _).symm.trans he)
  fresh := h.fresh

end Watched

theorem exists_finish_of_dead (a : Agenda) (id : Nat) (report : Option Report)
    (hdead : a.alive = false) :
    ∃ line reports, a.finish id report =
      { a.clearAlarm id with errands := Table.erase id a.errands, line, reports } := by
  have hunused (line reports) : Agenda.dropIfUnused { a.clearAlarm id with
      errands := Table.erase id a.errands, line, reports } =
      { a.clearAlarm id with errands := Table.erase id a.errands, line, reports } :=
    if_neg (by simp [Agenda.clearAlarm, hdead])
  unfold Agenda.finish
  dsimp only
  split
  all_goals exact ⟨_, _, hunused _ _⟩

theorem exists_sweepTurn (a : Agenda) (id : Nat) (halive : a.alive = true) :
    ∃ alarms, a.sweepTurn id =
        { a.update (a.client.sweep (nanoseconds a.now)).2 with alarms } ∧
      (a.sweepTurn id).alarmsOf id =
        (a.client.requests.look (nanoseconds a.now)).1.toList.map tick := by
  rw [Agenda.sweepTurn, if_pos halive, Client.sweep]
  dsimp only
  cases (a.client.requests.look (nanoseconds a.now)).1 with
  | some d => exact ⟨_, rfl, alarmsOf_setAlarm_self _ id (tick d)⟩
  | none => exact ⟨_, rfl, alarmsOf_clearAlarm_self _ id⟩

namespace Kept

variable {a : Agenda} (h : a.Kept)
include h

theorem calls {client : Client} {moves : List Move}
    (hmoves : client.requests = a.client.requests.run moves)
    (hplain : ∀ mv ∈ moves, (Watch.Event.call mv).isPlain = true) : (a.update client).Kept where
  toStaffed := h.toStaffed.of_eq rfl rfl
  watched halive := by
    have hwatched := h.watched halive
    have hstaffed : ({ a with client } : Agenda).Staffed := h.toStaffed.of_eq rfl rfl
    obtain ⟨e, he⟩ := hwatched.present
    refine hwatched.of_moves ⟨e, he⟩ rfl rfl ?_ ?_ moves hmoves hplain
    · exact mem_enqueue_iff.trans (or_congr_right (mem_due_iff hstaffed halive he))
    · exact count_enqueue_le hwatched.once (count_due_le hstaffed)

theorem act {x : Client.Act} (hx : ∀ now, x ≠ .sweep now) : (a.update (a.client.act x)).Kept :=
  h.calls (Client.deals_of_not_sweep hx) fun _ => Client.isPlain_of_mem_dealings hx

theorem of_act {x : Client.Act} {client : Client} (hact : a.client.act x = client)
    (hx : ∀ now, x ≠ .sweep now) : (a.update client).Kept :=
  hact ▸ h.act hx

theorem wake : a.wake.Kept :=
  have hnone : a.client.requests = a.client.requests.run [] := rfl
  h.calls hnone (by simp)

theorem forget (request : Nat) : Kept { a with client := a.client.forget request } where
  toStaffed := h.toStaffed.of_eq rfl rfl
  watched halive := by
    have hwatched := h.watched halive
    refine hwatched.of_moves hwatched.present rfl rfl ?_ hwatched.once [.dropHandle request] rfl
      (by simp [Watch.Event.isPlain])
    exact ⟨Or.inl, fun hready => hready.elim id hwatched.mem_of_called⟩

theorem of_eq {a' : Agenda} (halive : a'.alive = true → a.alive = true) (hnow : a'.now = a.now)
    (herrands : a'.errands = a.errands) (hnext : a'.nextErrand = a.nextErrand)
    (hline : a'.line = a.line) (halarms : a'.alarms = a.alarms)
    (hrequests : a'.alive = true → a'.client.requests = a.client.requests) : a'.Kept where
  toStaffed := h.toStaffed.of_eq herrands hnext
  watched halive' := by
    have hwatched := h.watched (halive halive')
    refine hwatched.of_still (herrands ▸ hwatched.present) hnow ?_ ?_ ?_ (hrequests halive')
    · rw [alarmsOf, halarms]; rfl
    · rw [hline]
    · exact hline ▸ hwatched.once

theorem dropIfUnused : a.dropIfUnused.Kept := by
  rw [Agenda.dropIfUnused]
  split
  next =>
    have hdropped : Kept { a with alive := false, client := a.client.drop } :=
      h.of_eq (fun halive => by cases halive) rfl rfl rfl rfl rfl (fun halive => by cases halive)
    exact hdropped.wake
  next => exact h

theorem spawn (name : Option String) {job : Job} (hjob : job ≠ .sweep) : (a.spawn name job).Kept where
  sorted := h.sorted.put a.nextErrand ⟨name, job⟩
  posted id e he := by
    by_cases heq : a.nextErrand = id
    · subst heq
      cases (Table.get?_put_self _ _ _).symm.trans he
      exact iff_of_false hjob (Nat.ne_of_gt h.fresh)
    · exact h.posted id e ((Table.get?_put_of_ne heq _ _).symm.trans he)
  fresh := Nat.lt_succ_of_lt h.fresh
  watched halive := by
    have hwatched := h.watched halive
    have hne : a.nextErrand ≠ sweeper := Nat.ne_of_gt h.fresh
    obtain ⟨e, he⟩ := hwatched.present
    refine hwatched.of_still ⟨e, (Table.get?_put_of_ne hne _ _).trans he⟩ rfl rfl ?_ ?_ rfl
    · simp [Agenda.spawn, Ne.symm hne]
    · simpa [Agenda.spawn, List.count_append, hne] using hwatched.once

section Job

variable {id : Nat} (hid : id ≠ sweeper)
include hid

theorem setJob (job : Job) (hjob : job ≠ .sweep) : (a.setJob id job).Kept where
  sorted := by
    rw [Agenda.setJob, Table.adjust_eq_map]
    exact h.sorted.map _
  posted id' e he := by
    by_cases heq : id = id'
    · subst heq
      rw [Agenda.setJob, Table.get?_adjust_self] at he
      obtain ⟨e', -, rfl⟩ := Option.map_eq_some_iff.mp he
      exact iff_of_false hjob hid
    · rw [Agenda.setJob, Table.get?_adjust_of_ne heq] at he
      exact h.posted id' e he
  fresh := h.fresh
  watched halive := by
    have hwatched := h.watched halive
    obtain ⟨e, he⟩ := hwatched.present
    have hpresent : Table.get? sweeper (a.setJob id job).errands = some e :=
      (Table.get?_adjust_of_ne hid _ _).trans he
    exact hwatched.of_still ⟨e, hpresent⟩ rfl rfl Iff.rfl hwatched.once rfl

theorem setJob_of_act {x : Client.Act} {client : Client} (hact : a.client.act x = client)
    (hx : ∀ now, x ≠ .sweep now) (job : Job) (hjob : job ≠ .sweep) :
    ((a.setJob id job).update client).Kept :=
  (h.setJob hid job hjob).of_act hact hx

theorem clearAlarm : (a.clearAlarm id).Kept where
  toStaffed := h.toStaffed.of_eq rfl rfl
  watched halive :=
    have hwatched := h.watched halive
    hwatched.of_still hwatched.present rfl (alarmsOf_clearAlarm_of_ne a hid) Iff.rfl hwatched.once rfl

theorem setAlarm (moment : Nat) : (a.setAlarm id moment).Kept where
  toStaffed := h.toStaffed.of_eq rfl rfl
  watched halive :=
    have hwatched := h.watched halive
    have halarms := alarmsOf_setAlarm_of_ne a hid moment
    hwatched.of_still hwatched.present rfl halarms Iff.rfl hwatched.once rfl

theorem erase : Kept { a with errands := Table.erase id a.errands } where
  toStaffed := h.toStaffed.erase id
  watched halive := by
    have hwatched := h.watched halive
    obtain ⟨e, he⟩ := hwatched.present
    have hpresent := (Table.get?_erase_of_ne hid a.errands).trans he
    exact hwatched.of_still ⟨e, hpresent⟩ rfl rfl Iff.rfl hwatched.once rfl

theorem finish (report : Option Report) : (a.finish id report).Kept := by
  have herased := (h.clearAlarm hid).erase hid
  have hreported : ∀ reports, Kept
      { a.clearAlarm id with errands := Table.erase id a.errands, reports } := fun _ =>
    herased.of_eq (fun halive => halive) rfl rfl rfl rfl rfl fun _ => rfl
  unfold Agenda.finish
  dsimp only
  split
  next => exact (hreported _).wake.dropIfUnused
  next => exact herased.wake.dropIfUnused

end Job

theorem sweepTurn (hline : sweeper ∈ a.line) :
    Kept { a.sweepTurn sweeper with line := (a.sweepTurn sweeper).line.erase sweeper } := by
  cases halive : a.alive with
  | false =>
    obtain ⟨line, reports, hfinish⟩ := a.exists_finish_of_dead sweeper none halive
    rw [Agenda.sweepTurn, if_neg (by simp [halive]), hfinish]
    exact {
      toStaffed := (h.toStaffed.erase sweeper).of_eq rfl rfl
      watched := fun halive' => by cases halive.symm.trans halive' }
  | true =>
    obtain ⟨alarms, hturn, halarms⟩ := a.exists_sweepTurn sweeper halive
    have hwatched := h.watched halive
    obtain ⟨es, w, hrun, hes, htracks⟩ := hwatched.watch
    have hready : w.isIdle = false := htracks.ready.mp hline
    have hsorted := (Watch.Sound.of_run hrun).sorted
    obtain ⟨more, hmore, hrun⟩ := Watch.leads_look hsorted hready es hrun
    have hidle := Watch.isIdle_look hsorted w.now
    have hcount : (a.sweepTurn sweeper).line.count sweeper = a.line.count sweeper := by
      rw [hturn]
      exact count_enqueue_of_mem hline
    have hout : ((a.sweepTurn sweeper).line.erase sweeper).count sweeper = 0 := by
      have hone := hwatched.once
      rw [List.count_erase_self]
      omega
    exact {
      toStaffed := by
        rw [hturn]
        exact h.toStaffed.of_eq rfl rfl
      watched := fun _ => {
        present := by
          rw [hturn]
          exact hwatched.present
        watch := ⟨es ++ more, _, hrun,
          fun e he => (List.mem_append.mp he).elim (hes e) (hmore e), {
            table := by
              rw [hturn, htracks.table, htracks.now]
              rfl
            now := by
              rw [hturn]
              exact htracks.now
            ready := iff_of_false (List.count_eq_zero.mp hout) (by rw [hidle]; simp)
            once := by
              rw [hout]
              exact Nat.zero_le 1
            alarm := fun alarm hstand _ => by
              rw [htracks.table, htracks.now] at hstand
              cases hstand
              exact halarms }⟩ } }

theorem ring {later : Nat} (hlater : a.now ≤ later) (hline : sweeper ∈ a.line → later = a.now) :
    ({ a with now := later } : Agenda).ring.Kept where
  toStaffed := h.toStaffed.of_eq rfl rfl
  watched halive := by
    have hwatched := h.watched halive
    refine ⟨hwatched.present, ?_⟩
    obtain ⟨es, w, hrun, hes, htracks⟩ := hwatched.watch
    by_cases hready : sweeper ∈ a.line
    · cases hline hready
      have hidle := htracks.ready.mp hready
      refine ⟨es, w, hrun, hes, htracks.table, htracks.now, ?_, ?_, fun alarm _ hquiet => ?_⟩
      · exact iff_of_true ((mem_ring_iff _).mpr (.inl hready)) hidle
      · exact Nat.le_trans (Nat.le_of_eq (count_ring_of_mem _ hready)) htracks.once
      · cases hidle.symm.trans hquiet
    · have hidle : w.isIdle = true := by
        rw [← Bool.not_eq_false]
        exact fun hwakes => hready (htracks.ready.mpr hwakes)
      have hnow : w.now ≤ nanoseconds later := by
        rw [htracks.now]
        exact nanoseconds_le hlater
      have hmoment : ∀ ns, tick ns ≤ later ↔ ns ≤ nanoseconds later := fun _ => tick_le_iff
      have hplain : ∀ e ∈ es ++ [.pass (nanoseconds later)], e.isPlain = true := fun e he =>
        (List.mem_append.mp he).elim (hes e) fun he => by cases List.mem_singleton.mp he; rfl
      obtain ⟨alarm, hstand, -, hidle'⟩ := Watch.exists_alarm_of_isIdle hidle
      have halarms : ({ a with now := later } : Agenda).alarmsOf sweeper = alarm.toList.map tick :=
        htracks.alarm alarm hstand hidle
      refine ⟨_, { w with now := nanoseconds later }, hrun.step (.pass _ hidle hnow), hplain,
        htracks.table, rfl, ?_, ?_, fun alarm' hstand' hquiet => ?_⟩
      · rw [mem_ring_iff, halarms, hidle', or_iff_right hready]
        exact exists_tick_le_iff hmoment alarm
      · refine Nat.le_trans (count_ring_le { a with now := later } hready) ?_
        rw [halarms]
        cases alarm <;> simp
      · cases hstand.symm.trans hstand'
        rw [hidle'] at hquiet
        rw [alarmsOf_ring, halarms]
        refine List.filter_eq_self.mpr fun m hm => ?_
        have hlate : ¬m ≤ later := fun hle => by
          cases hquiet.symm.trans ((exists_tick_le_iff hmoment alarm).mp ⟨m, hm, hle⟩)
        simp [hlate]

end Kept

end Agenda

end LanguageClient
