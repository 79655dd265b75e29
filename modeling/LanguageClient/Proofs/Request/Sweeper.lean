import LanguageClient.Proofs.Request.Passage

/-!
The sweeper of a request table.

It looks for the soonest deadline, and then it sleeps until that moment or until it is called; without
a deadline it sleeps until it is called. Others call the table meanwhile, at any time. A call that sets
a deadline calls the sweeper too, and any other takes deadlines away at most, so what the sweeper sleeps
for is never later than a deadline unless it is about to look again. Time passes while it sleeps and has
no reason to wake.
-/

namespace LanguageClient

namespace RequestTable

variable {t : RequestTable} {id now : Nat} {r : LiveRequest} {mv : Move}

section Sweep

theorem keys_settles_sweep (t : RequestTable) (now : Nat) :
    (t.settles (.sweep now)).map Prod.fst = (t.sweep now).1 := by
  rw [settles, List.map_map]
  rfl

theorem sweep_eq_settleAll (t : RequestTable) (now : Nat) :
    (t.sweep now).2 = t.settleAll (t.settles (.sweep now)) :=
  t.move_of_ends (rfl : Move.ends (.sweep now) = true)

theorem isOverdue_iff : isOverdue now r = true ↔ ∃ d, r.deadline = some d ∧ d ≤ now := by
  simp [isOverdue, Option.any_eq_true]

theorem get?_sweep_of_mem (h : id ∈ (t.sweep now).1) : (t.sweep now).2.get? id = none := by
  rw [← keys_settles_sweep] at h
  exact get?_move_of_mem_settles h

theorem sweep_of_not_mem (h : id ∉ (t.sweep now).1) :
    (t.sweep now).2.get? id = t.get? id ∧ (t.sweep now).2.peek? id = t.peek? id := by
  rw [← keys_settles_sweep] at h
  rw [sweep_eq_settleAll]
  exact ⟨get?_settleAll h, peek?_settleAll h⟩

theorem sweep_of_current (h : t.overdue now = []) : (t.sweep now).2 = t := by
  rw [sweep, h]
  rfl

variable (ht : t.live.Sorted)
include ht

theorem mem_sweep_iff :
    id ∈ (t.sweep now).1 ↔ ∃ r d, t.get? id = some r ∧ r.deadline = some d ∧ d ≤ now := by
  rw [sweep, Table.keys, List.mem_map]
  constructor
  · rintro ⟨⟨id, r⟩, hmem, rfl⟩
    obtain ⟨hlive, hoverdue⟩ := List.mem_filter.mp hmem
    obtain ⟨d, hd⟩ := isOverdue_iff.mp hoverdue
    exact ⟨r, d, ht.get?_of_mem hlive, hd⟩
  · rintro ⟨r, d, hr, hd⟩
    exact ⟨(id, r), List.mem_filter.mpr ⟨Table.mem_of_get? hr, isOverdue_iff.mpr ⟨d, hd⟩⟩, rfl⟩

theorem pairwise_sweep (now : Nat) : (t.sweep now).1.Pairwise (· < ·) :=
  List.pairwise_map.mpr (ht.filter _)

theorem peek?_sweep_of_mem (hr : t.get? id = some r) (h : id ∈ (t.sweep now).1) :
    (t.sweep now).2.peek? id =
      (t.peek? id).map fun _ => some (.error (.timeout r.method r.timeout)) := by
  obtain ⟨r', d, hr', hd⟩ := (mem_sweep_iff ht).mp h
  cases hr.symm.trans hr'
  rw [sweep_eq_settleAll]
  refine peek?_settleAll_of_mem (opens_settles ht) ((mem_settles_iff ht).mpr ⟨r, hr, ?_⟩)
  exact if_pos (isOverdue_iff.mpr ⟨d, hd⟩)

theorem overdue_sweep (now : Nat) : (t.sweep now).2.overdue now = [] := by
  refine List.filter_eq_nil_iff.mpr fun ⟨id, r⟩ hmem hdue => ?_
  have hr : (t.sweep now).2.get? id = some r := (sorted_move ht (.sweep now)).get?_of_mem hmem
  have hnot : id ∉ (t.sweep now).1 := fun hid => by
    cases (get?_sweep_of_mem hid).symm.trans hr
  obtain ⟨d, hd⟩ := isOverdue_iff.mp hdue
  exact hnot ((mem_sweep_iff ht).mpr ⟨r, d, (sweep_of_not_mem hnot).1.symm.trans hr, hd⟩)

end Sweep

/-- What a sweep is to do: of all requests it ends those whose time has run out, and it names them. -/
structure Sweeps (t : RequestTable) (now : Nat) (ids : List Nat) (t' : RequestTable) : Prop where
  rising : ids.Pairwise (· < ·)
  overdue : ∀ id, id ∈ ids ↔ ∃ r d, t.get? id = some r ∧ r.deadline = some d ∧ d ≤ now
  ended : ∀ id r, t.get? id = some r → id ∈ ids → t'.get? id = none ∧
    t'.peek? id = (t.peek? id).map fun _ => some (.error (.timeout r.method r.timeout))
  spared : ∀ id, id ∉ ids → t'.get? id = t.get? id ∧ t'.peek? id = t.peek? id

theorem sweeps_sweep (ht : t.live.Sorted) (now : Nat) :
    t.Sweeps now (t.sweep now).1 (t.sweep now).2 where
  rising := pairwise_sweep ht now
  overdue _ := mem_sweep_iff ht
  ended _ _ hr hid := ⟨get?_sweep_of_mem hid, peek?_sweep_of_mem ht hr hid⟩
  spared _ hid := sweep_of_not_mem hid

/-- What the sweeper has to know: there is an alarm no later than any deadline. -/
def Covers (t : RequestTable) (alarm : Option Nat) : Prop :=
  ∀ d ∈ t.deadlines, ∃ m, alarm = some m ∧ m ≤ d

theorem covers_nextDeadline? (t : RequestTable) : t.Covers t.nextDeadline? := by
  intro d hd
  cases hnext : t.nextDeadline? with
  | none =>
    rw [List.min?_eq_none_iff.mp hnext] at hd
    cases hd
  | some m => exact ⟨m, rfl, (List.min?_eq_some_iff.mp hnext).2 d hd⟩

theorem mem_deadlines_iff (ht : t.live.Sorted) {d : Nat} :
    d ∈ t.deadlines ↔ ∃ id r, t.get? id = some r ∧ r.deadline = some d := by
  rw [deadlines, List.mem_filterMap]
  constructor
  · rintro ⟨⟨id, r⟩, hmem, hd⟩
    exact ⟨id, r, ht.get?_of_mem hmem, hd⟩
  · rintro ⟨id, r, hr, hd⟩
    exact ⟨(id, r), Table.mem_of_get? hr, hd⟩

section Called

variable (t : RequestTable) (called : Bool)

theorem settle_called (id : Nat) (outcome : Outcome) :
    { t with called }.settle id outcome = { t.settle id outcome with called } := by
  rw [settle, settle]
  dsimp only
  split <;> rfl

theorem settleAll_called (es : List (Nat × Outcome)) :
    { t with called }.settleAll es = { t.settleAll es with called } := by
  induction es generalizing t with
  | nil => rfl
  | cons e rest ih =>
    rw [settleAll, List.foldl_cons, settle_called]
    exact ih (t.settle e.1 e.2)

theorem sweep_called (now : Nat) :
    ({ t with called }.sweep now).2 = { (t.sweep now).2 with called } := by
  rw [sweep_eq_settleAll, sweep_eq_settleAll]
  exact t.settleAll_called called _

theorem called_settleAll (es : List (Nat × Outcome)) : (t.settleAll es).called = t.called := by
  have h := congrArg RequestTable.called (t.settleAll_called t.called es)
  exact h

end Called

def Move.dispatched? (id : Nat) : Move → Option Nat
  | .dispatch id' now => if id' = id then some now else none
  | _ => none

section Move

theorem timeout_touched (mv : Move) : (touched id r mv).timeout = r.timeout := by
  cases mv with
  | dispatch id' now | requestCancel id' =>
    rw [touched]
    split <;> rfl
  | _ => rfl

theorem deadline_touched (mv : Move) : (touched id r mv).deadline =
    ((mv.dispatched? id).map (· + r.timeout)).or r.deadline := by
  cases mv with
  | dispatch id' now =>
    rw [touched, Move.dispatched?]
    split <;> rfl
  | requestCancel id' =>
    rw [touched]
    split <;> rfl
  | _ => rfl

theorem of_touched_queued (h : (touched id r mv).state = .queued) :
    r.state = .queued ∧ mv.dispatched? id = none := by
  cases mv with
  | dispatch id' now =>
    rw [touched] at h
    split at h
    next =>
      by_cases hqueued : r.state = .queued <;> simp [LiveRequest.dispatched, hqueued] at h
    next hne => exact ⟨h, if_neg hne⟩
  | requestCancel id' =>
    rw [touched] at h
    split at h
    next => cases h
    next => exact ⟨h, rfl⟩
  | _ => exact ⟨h, rfl⟩

theorem called_of_move (hquiet : (t.move mv).called = false) :
    t.called = false ∧ ∀ id, t.contains id = true → mv.dispatched? id = none := by
  cases hends : mv.ends with
  | true =>
    rw [t.move_of_ends hends, called_settleAll] at hquiet
    refine ⟨hquiet, fun id _ => ?_⟩
    cases mv with
    | dispatch => cases hends
    | _ => rfl
  | false =>
    cases mv with
    | dispatch id now =>
      obtain ⟨hcalled, hdead⟩ := Bool.or_eq_false_iff.mp hquiet
      refine ⟨hcalled, fun id' hlive => if_neg fun heq => ?_⟩
      cases hdead.symm.trans (heq ▸ hlive)
    | create | requestCancel | dropHandle => exact ⟨hquiet, fun _ _ => rfl⟩
    | _ => cases hends

variable (ht : t.live.Sorted) (hfresh : ∀ id, t.contains id = true → id < t.nextId)
include ht hfresh

theorem of_get?_move {r' : LiveRequest} (h : (t.move mv).get? id = some r') :
    (∃ r, t.get? id = some r ∧ r' = touched id r mv) ∨ t.get? id = none ∧ r'.deadline = none := by
  cases hr : t.get? id with
  | some r =>
    have hnew : t.created? mv ≠ some id :=
      created?_ne_of_lt (hfresh id (t.contains_iff.mpr ⟨r, hr⟩))
    have hmove : (t.move mv).get? id = (Fate.move id (.live r) mv).live? := get?_move ht hr hnew
    rw [h, Fate.move] at hmove
    split at hmove
    next => cases hmove
    next => exact .inl ⟨r, rfl, Option.some.inj hmove⟩
  | none =>
    have hrun : (t.run [mv]).get? id = some r' := h
    obtain ⟨before, method, timeout, key, after, hmoves, -, hlive⟩ :=
      exists_create_of_get?_run ht hr hrun
    cases before with
    | nil =>
      cases hmoves
      cases hlive
      exact .inr ⟨rfl, rfl⟩
    | cons mv' before => simp at hmoves

theorem deadlines_move (hquiet : (t.move mv).called = false) :
    ∀ d ∈ (t.move mv).deadlines, d ∈ t.deadlines := by
  intro d hd
  obtain ⟨id, r', hr', hd⟩ := (mem_deadlines_iff (sorted_move ht mv)).mp hd
  obtain ⟨r, hr, rfl⟩ | ⟨-, hnone⟩ := of_get?_move ht hfresh hr'
  · have hnone := (called_of_move hquiet).2 id (t.contains_iff.mpr ⟨r, hr⟩)
    rw [deadline_touched, hnone] at hd
    exact (mem_deadlines_iff ht).mpr ⟨id, r, hr, hd⟩
  · cases hnone.symm.trans hd

end Move

inductive Stand
  | looks
  | sleeps (alarm : Option Nat)

structure Watch where
  table : RequestTable
  stand : Stand
  now : Nat

namespace Watch

def isIdle (w : Watch) : Bool :=
  match w.stand with
  | .looks => false
  | .sleeps alarm => !w.table.called && alarm.all (w.now < ·)

inductive Event
  | call (mv : Move)
  | look
  | rise
  | expire
  | pass (later : Nat)

inductive Step (w : Watch) : Event → Watch → Prop
  | call (mv : Move) (hmv : ∀ now, mv ≠ .sweep now) :
      Step w (.call mv) { w with table := w.table.move mv }
  | look (hstand : w.stand = .looks) :
      Step w .look { w with stand := .sleeps w.table.nextDeadline? }
  | rise {alarm : Option Nat} (hstand : w.stand = .sleeps alarm) (hcalled : w.table.called = true) :
      Step w .rise { w with table := { w.table with called := false }, stand := .looks }
  | expire {d : Nat} (hstand : w.stand = .sleeps (some d)) (hdue : d ≤ w.now) :
      Step w .expire { w with table := (w.table.sweep w.now).2, stand := .looks }
  | pass (later : Nat) (hidle : w.isIdle = true) (hlater : w.now ≤ later) :
      Step w (.pass later) { w with now := later }

inductive Run : List Event → Watch → Prop
  | start (hashing : Hashing) (now : Nat) : Run [] ⟨.empty hashing, .looks, now⟩
  | step {es : List Event} {w w' : Watch} {e : Event} (h : Run es w) (hstep : w.Step e w') :
      Run (es ++ [e]) w'

def Event.dispatched? (id : Nat) : Event → Option Nat
  | .call mv => mv.dispatched? id
  | _ => none

def dispatched? (id : Nat) (es : List Event) : Option Nat :=
  es.reverse.findSome? (Event.dispatched? id)

theorem dispatched?_concat (id : Nat) (es : List Event) (e : Event) :
    dispatched? id (es ++ [e]) = (e.dispatched? id).or (dispatched? id es) := by
  rw [dispatched?, List.reverse_concat, List.findSome?_cons]
  cases e.dispatched? id <;> rfl

def settles (w : Watch) : Event → List (Nat × Outcome)
  | .call mv => w.table.settles mv
  | .expire => w.table.settles (.sweep w.now)
  | _ => []

structure Sound (es : List Event) (w : Watch) : Prop where
  sorted : w.table.live.Sorted
  fresh : ∀ id, w.table.contains id = true → id < w.table.nextId
  covered : ∀ alarm, w.stand = .sleeps alarm → w.table.called = false → w.table.Covers alarm
  dated : ∀ id r d, w.table.get? id = some r → r.deadline = some d →
    ∃ start, dispatched? id es = some start ∧ d = start + r.timeout
  queued : ∀ id r, w.table.get? id = some r → r.state = .queued → r.deadline = none

namespace Sound

variable {es : List Event} {w w' : Watch} {e : Event}

theorem start (hashing : Hashing) (now : Nat) : Sound [] ⟨.empty hashing, .looks, now⟩ where
  sorted := sorted_empty
  fresh id h := by cases h
  covered alarm hstand := by cases hstand
  dated id r d hr := by cases hr
  queued id r hr := by cases hr

variable (h : Sound es w)
include h

theorem dated_move {mv : Move} {id : Nat} {r' : LiveRequest} {d : Nat}
    (hr' : (w.table.move mv).get? id = some r') (hd : r'.deadline = some d) :
    ∃ start, (mv.dispatched? id).or (dispatched? id es) = some start ∧ d = start + r'.timeout := by
  obtain ⟨r, hr, rfl⟩ | ⟨-, hnone⟩ := of_get?_move h.sorted h.fresh hr'
  · rw [deadline_touched] at hd
    rw [timeout_touched]
    cases hdispatched : mv.dispatched? id with
    | some start =>
      rw [hdispatched] at hd
      exact ⟨start, rfl, (Option.some.inj hd).symm⟩
    | none =>
      rw [hdispatched] at hd
      exact h.dated id r d hr hd
  · cases hnone.symm.trans hd

theorem queued_move {mv : Move} {id : Nat} {r' : LiveRequest}
    (hr' : (w.table.move mv).get? id = some r') (hqueued : r'.state = .queued) :
    r'.deadline = none := by
  obtain ⟨r, hr, rfl⟩ | ⟨-, hnone⟩ := of_get?_move h.sorted h.fresh hr'
  · obtain ⟨hstate, hkept⟩ := of_touched_queued hqueued
    rw [deadline_touched, hkept]
    exact h.queued id r hr hstate
  · exact hnone

theorem step (hstep : w.Step e w') : Sound (es ++ [e]) w' := by
  have hquiet : (∀ id, e.dispatched? id = none) →
      ∀ id, dispatched? id (es ++ [e]) = dispatched? id es := fun hnone id =>
    by rw [dispatched?_concat, hnone, Option.none_or]
  cases hstep with
  | call mv hmv =>
    exact {
      sorted := sorted_move h.sorted mv
      fresh := live_lt_move h.sorted h.fresh
      covered := fun alarm hstand hcalled d hd =>
        h.covered alarm hstand (called_of_move hcalled).1 d
          (deadlines_move h.sorted h.fresh hcalled d hd)
      dated := fun id r d hr hd => by
        rw [dispatched?_concat]
        exact h.dated_move hr hd
      queued := fun id r hr => h.queued_move hr }
  | look hstand =>
    exact {
      sorted := h.sorted
      fresh := h.fresh
      covered := fun alarm hstand _ => Stand.sleeps.inj hstand ▸ covers_nextDeadline? _
      dated := fun id r d hr hd => hquiet (fun _ => rfl) id ▸ h.dated id r d hr hd
      queued := h.queued }
  | rise hstand hcalled =>
    exact {
      sorted := h.sorted
      fresh := h.fresh
      covered := fun alarm hstand => by cases hstand
      dated := fun id r d hr hd => hquiet (fun _ => rfl) id ▸ h.dated id r d hr hd
      queued := h.queued }
  | expire hstand hdue =>
    exact {
      sorted := sorted_move h.sorted (.sweep w.now)
      fresh := show ∀ id, (w.table.move (.sweep w.now)).contains id = true → _ from
        live_lt_move h.sorted h.fresh
      covered := fun alarm hstand => by cases hstand
      dated := fun id r d hr hd => by
        rw [hquiet fun _ => rfl]
        exact h.dated_move (show (w.table.move (.sweep w.now)).get? id = some r from hr) hd
      queued := fun id r hr =>
        h.queued_move (show (w.table.move (.sweep w.now)).get? id = some r from hr) }
  | pass later hidle hlater =>
    exact {
      sorted := h.sorted
      fresh := h.fresh
      covered := h.covered
      dated := fun id r d hr hd => hquiet (fun _ => rfl) id ▸ h.dated id r d hr hd
      queued := h.queued }

omit h in
theorem of_run (hrun : Run es w) : Sound es w := by
  induction hrun with
  | start hashing now => exact .start hashing now
  | step hrun hstep ih => exact ih.step hstep

theorem lt_of_isIdle (hidle : w.isIdle = true) {id : Nat} {r : LiveRequest} {d : Nat}
    (hr : w.table.get? id = some r) (hd : r.deadline = some d) : w.now < d := by
  rw [isIdle] at hidle
  split at hidle
  next => cases hidle
  next alarm hstand =>
    obtain ⟨hcalled, halarm⟩ := Bool.and_eq_true_iff.mp hidle
    obtain ⟨m, rfl, hle⟩ := h.covered alarm hstand (Bool.not_eq_true' _ ▸ hcalled) d
      ((mem_deadlines_iff h.sorted).mpr ⟨id, r, hr, hd⟩)
    exact Nat.lt_of_lt_of_le (of_decide_eq_true halarm) hle

theorem of_timeout (hstep : w.Step e w') {id timeout : Nat} {method : String}
    (hmem : (id, .error (.timeout method timeout)) ∈ w.settles e) :
    e = .call (.reject id (.timeout method timeout)) ∨
      e = .expire ∧ ∃ start, dispatched? id es = some start ∧ start + timeout ≤ w.now := by
  cases hstep with
  | call mv hmv =>
    obtain ⟨r, hr, houtcome⟩ := (mem_settles_iff h.sorted).mp hmem
    cases mv with
    | resolve id' value | rejectExcept kept =>
      rw [RequestTable.outcome?] at houtcome
      split at houtcome <;> cases houtcome
    | reject id' e =>
      rw [RequestTable.outcome?] at houtcome
      split at houtcome
      next heq =>
        cases houtcome
        exact .inl (heq ▸ rfl)
      next => cases houtcome
    | sweep now => exact absurd rfl (hmv now)
    | _ => cases houtcome
  | expire hstand hdue =>
    change (id, _) ∈ w.table.settles (.sweep w.now) at hmem
    obtain ⟨r, hr, houtcome⟩ := (mem_settles_iff h.sorted).mp hmem
    rw [RequestTable.outcome?] at houtcome
    split at houtcome
    next hoverdue =>
      cases houtcome
      obtain ⟨d, hd, hle⟩ := isOverdue_iff.mp hoverdue
      obtain ⟨start, hstart, rfl⟩ := h.dated id r d hr hd
      exact .inr ⟨rfl, start, hstart, hle⟩
    next => cases houtcome
  | look | rise | pass => cases hmem

end Sound

def Event.isPlain : Event → Bool
  | .call (.sweep _) | .call (.reject _ (.timeout _ _)) => false
  | _ => true

def Leads (w w' : Watch) : Prop :=
  ∀ es, Run es w → ∃ more, (∀ e ∈ more, e.isPlain = true) ∧ Run (es ++ more) w'

theorem Leads.refl (w : Watch) : w.Leads w :=
  fun es h => ⟨[], by simp, by rwa [List.append_nil]⟩

theorem Leads.trans {w w' w'' : Watch} (h : w.Leads w') (h' : w'.Leads w'') : w.Leads w'' := by
  intro es hrun
  obtain ⟨more, hplain, hrun⟩ := h es hrun
  obtain ⟨more', hplain', hrun⟩ := h' _ hrun
  refine ⟨more ++ more', fun e he => ?_, List.append_assoc es more more' ▸ hrun⟩
  exact (List.mem_append.mp he).elim (hplain e) (hplain' e)

theorem Step.leads {w w' : Watch} {e : Event} (h : w.Step e w') (he : e.isPlain = true) : w.Leads w' :=
  fun _ hrun => ⟨[e], by simpa using he, hrun.step h⟩

section Call

variable {t : RequestTable} {moves : List Move}

theorem called_of_run (h : (t.run moves).called = false) : t.called = false := by
  induction moves generalizing t with
  | nil => exact h
  | cons mv rest ih => exact (called_of_move (ih h)).1

theorem leads_calls (w : Watch) (h : ∀ mv ∈ moves, (Event.call mv).isPlain = true) :
    w.Leads { w with table := w.table.run moves } := by
  induction moves generalizing w with
  | nil => exact .refl w
  | cons mv rest ih =>
    have hplain := h mv List.mem_cons_self
    have hcall : w.Step (.call mv) { w with table := w.table.move mv } :=
      .call mv fun now heq => by rw [heq] at hplain; cases hplain
    exact (hcall.leads hplain).trans (ih _ fun mv' hmv' => h mv' (List.mem_cons_of_mem _ hmv'))

theorem exists_alarm_of_isIdle {w : Watch} (h : w.isIdle = true) :
    ∃ alarm, w.stand = .sleeps alarm ∧ w.table.called = false ∧
      ∀ now, isIdle { w with now } = alarm.all (now < ·) := by
  obtain ⟨table, stand, now⟩ := w
  cases stand with
  | looks => cases h
  | sleeps alarm =>
    have hcalled : table.called = false :=
      (Bool.not_eq_true' _).mp (Bool.and_eq_true_iff.mp h).1
    exact ⟨alarm, rfl, hcalled, fun now => by simp [isIdle, hcalled]⟩

theorem isIdle_calls {w : Watch} (h : w.table.called = true → t.called = true) :
    isIdle { w with table := t } = (w.isIdle && !t.called) := by
  obtain ⟨table, stand, now⟩ := w
  cases stand with
  | looks => rfl
  | sleeps alarm =>
    cases hcalled : t.called <;> cases htable : table.called <;> simp_all [isIdle]

end Call

section Look

variable {t : RequestTable} {now : Nat}

theorem look_called (t : RequestTable) (called : Bool) (now : Nat) :
    { t with called }.look now = t.look now := by
  rw [RequestTable.look, RequestTable.look, sweep_called]
  rfl

theorem exists_nextDeadline?_of_overdue (h : t.overdue now ≠ []) :
    ∃ d, t.nextDeadline? = some d ∧ d ≤ now := by
  obtain ⟨⟨id, r⟩, hmem⟩ := List.exists_mem_of_ne_nil _ h
  obtain ⟨hlive, hdue⟩ := List.mem_filter.mp hmem
  obtain ⟨d, hd, hle⟩ := isOverdue_iff.mp hdue
  obtain ⟨m, hm, hle'⟩ := t.covers_nextDeadline? d (List.mem_filterMap.mpr ⟨(id, r), hlive, hd⟩)
  exact ⟨m, hm, Nat.le_trans hle' hle⟩

theorem leads_of_current (t : RequestTable) (now : Nat) :
    Leads ⟨t, .looks, now⟩ ⟨{ t with called := false }, .sleeps t.nextDeadline?, now⟩ := by
  have hlook : Leads ⟨t, .looks, now⟩ ⟨t, .sleeps t.nextDeadline?, now⟩ := (Step.look rfl).leads rfl
  cases hcalled : t.called with
  | false => rwa [show { t with called := false } = t by rw [← hcalled]]
  | true => exact hlook.trans (((Step.rise rfl hcalled).leads rfl).trans ((Step.look rfl).leads rfl))

theorem leads_of_looks (t : RequestTable) (now : Nat) :
    Leads ⟨t, .looks, now⟩ ⟨(t.look now).2, .sleeps (t.look now).1, now⟩ := by
  by_cases hcurrent : t.overdue now = []
  · rw [RequestTable.look, sweep_of_current hcurrent]
    exact leads_of_current t now
  · obtain ⟨d, hd, hle⟩ := exists_nextDeadline?_of_overdue hcurrent
    have hlook : Leads ⟨t, .looks, now⟩ ⟨t, .sleeps (some d), now⟩ := hd ▸ (Step.look rfl).leads rfl
    exact hlook.trans (((Step.expire rfl hle).leads rfl).trans (leads_of_current _ now))

theorem leads_look {w : Watch} (ht : w.table.live.Sorted) (hready : w.isIdle = false) :
    w.Leads ⟨(w.table.look w.now).2, .sleeps (w.table.look w.now).1, w.now⟩ := by
  obtain ⟨t, stand, now⟩ := w
  cases stand with
  | looks => exact leads_of_looks t now
  | sleeps alarm =>
    by_cases hcalled : t.called = true
    · refine ((Step.rise rfl hcalled).leads rfl).trans ?_
      have hlooks := leads_of_looks { t with called := false } now
      rwa [look_called] at hlooks
    · obtain ⟨d, rfl, hle⟩ : ∃ d, alarm = some d ∧ d ≤ now := by
        cases alarm <;> simp_all [isIdle]
      refine ((Step.expire rfl hle).leads rfl).trans ?_
      have hlooks := leads_of_looks (t.sweep now).2 now
      have hlook : (t.sweep now).2.look now = t.look now := by
        rw [RequestTable.look, sweep_of_current (overdue_sweep ht now)]
        rfl
      rwa [hlook] at hlooks

theorem isIdle_look (ht : t.live.Sorted) (now : Nat) :
    isIdle ⟨(t.look now).2, .sleeps (t.look now).1, now⟩ = true := by
  cases hnext : (t.look now).1 with
  | none => rfl
  | some d =>
    have hd : d ∈ (t.sweep now).2.deadlines := (List.min?_eq_some_iff.mp hnext).1
    obtain ⟨⟨id, r⟩, hlive, hd⟩ := List.mem_filterMap.mp hd
    have hlt : now < d := by
      refine Nat.lt_of_not_le fun hle => ?_
      have hmem : (id, r) ∈ (t.sweep now).2.overdue now :=
        List.mem_filter.mpr ⟨hlive, isOverdue_iff.mpr ⟨d, hd, hle⟩⟩
      rw [overdue_sweep ht now] at hmem
      cases hmem
    simpa [isIdle, RequestTable.look] using hlt

end Look

end Watch

end RequestTable

end LanguageClient
