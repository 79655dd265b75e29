import LanguageClient.Proofs.Client.Cancelling

namespace LanguageClient

namespace Traffic

variable {t t' : Traffic} {m : Option Milestone} {id : Nat}

structure Absent (id : Nat) (t : Traffic) : Prop where
  made : id < t.nextId
  gone : ∀ s, id ∉ Frame.ids (t.slot s)

namespace Absent

variable (h : t.Absent id)
include h

theorem of_put (waits fs : List Frame) (hqueue : t'.queue.Sublist (t.queue ++ waits))
    (hpushed : t'.pushed = (t.toWire.send fs).pushed) (hwaits : id ∉ Frame.ids waits)
    (hfs : id ∉ Frame.ids fs) (hnext : t.nextId ≤ t'.nextId) : t'.Absent id where
  made := Nat.lt_of_lt_of_le h.made hnext
  gone s hid := by
    cases s with
    | none =>
      have hid := (ids_sublist hqueue).subset hid
      rw [Frame.ids_append, List.mem_append] at hid
      exact hid.elim (h.gone none) hwaits
    | some g =>
      have hid := (ids_sublist (slot_send_sublist hpushed g)).subset hid
      rw [Frame.ids_append, List.mem_append] at hid
      exact hid.elim (h.gone (some g)) hfs

theorem of_kept (hqueue : t'.queue.Sublist t.queue) (hpushed : t'.pushed = t.pushed)
    (hnext : t'.nextId = t.nextId) : t'.Absent id :=
  h.of_put [] [] (by rwa [List.append_nil]) (by rwa [Wire.send_nil])
    List.not_mem_nil List.not_mem_nil (Nat.le_of_eq hnext.symm)

theorem tell (s : Documents) {fs : List Frame} (hfs : Frame.ids fs = []) : (t.tell s fs).Absent id :=
  h.of_put [] _ (by simp [Traffic.tell, Wire.send]) rfl List.not_mem_nil
    (by rw [hfs]; exact List.not_mem_nil) (Nat.le_refl _)

theorem not_mem_of_new {f : Frame} (hf : f.requestId? = some t.nextId) : id ∉ Frame.ids [f] := by
  rw [Frame.ids_cons, hf]
  simpa using Nat.ne_of_lt h.made

theorem start {f : Frame} (hf : f.requestId? = some t.nextId) : (t.start f).Absent id := by
  have hnew := h.not_mem_of_new hf
  have hwire : (t.start f).toWire = t.toWire.enqueue f := rfl
  rw [Wire.enqueue] at hwire
  split at hwire
  next =>
    have hqueue : (t.start f).queue = (t.toWire.send [f]).queue := congrArg Wire.queue hwire
    exact h.of_put [] _ (by simp [hqueue, Wire.send]) (congrArg Wire.pushed hwire) List.not_mem_nil hnew
      (Nat.le_succ _)
  next =>
    have hqueue : (t.start f).queue = t.queue ++ [f] := congrArg Wire.queue hwire
    exact h.of_put _ [] (by simp [hqueue])
      (by rw [hwire, Wire.send_nil]) hnew List.not_mem_nil (Nat.le_succ _)

theorem connect {f : Frame} (hf : f.requestId? = some t.nextId) : (t.connect f).Absent id where
  made := Nat.lt_succ_of_lt h.made
  gone s hid := by
    cases s with
    | none => exact h.gone none hid
    | some g =>
      rw [slot, Traffic.connect] at hid
      by_cases hg : t.generation + 1 = g
      · subst hg
        rw [show (t.toWire.attach.send [f]).pushed (t.generation + 1) = some [f] from
          Wire.pushed_attach f] at hid
        exact h.not_mem_of_new hf hid
      · have hne : t.toWire.attach.attached ≠ some g := fun heq => hg (Option.some.inj heq)
        rw [Wire.pushed_send_of_ne hne, show t.toWire.attach.pushed g = t.pushed g from if_neg hg] at hid
        exact h.gone (some g) hid

theorem step (hstep : Step t m t') : t'.Absent id := by
  cases hstep with
  | tell s hfs => exact h.tell s hfs
  | hold hf =>
    refine h.of_put _ [] (List.Sublist.refl _) (by rw [Wire.send_nil]) ?_ List.not_mem_nil
      (Nat.le_refl _)
    rw [Frame.ids_cons, hf]
    exact List.not_mem_nil
  | withdraw id' => exact h.of_kept List.filter_sublist rfl rfl
  | start s hfs f hf => exact (h.tell s hfs).start hf
  | connect f hf => exact h.connect hf
  | complete s hgeneration hattached hfs =>
    refine h.of_put [] _ (List.nil_sublist _) rfl List.not_mem_nil ?_ (Nat.le_refl _)
    rw [Frame.ids_append, hfs]
    exact h.gone none
  | settle | pass | handOver | disconnect | late | lost =>
    exact h.of_kept (List.Sublist.refl _) rfl rfl

end Absent

end Traffic

namespace Client

open RequestTable (Move Fate)

theorem absent_run {c : Client} {id : Nat} (h : c.traffic.Absent id) (acts : List Act) :
    (c.run acts).traffic.Absent id := by
  induction acts generalizing c with
  | nil => exact h
  | cons a rest ih => exact ih (h.step (step_act a))

/-- What ends the wait for a request whose cancellation was asked for: an answer, its deadline, or the
loss of its connection. -/
inductive Ends (c : Client) (id : Nat) : Act → Prop
  | answered {raw : String} {r : Response} (hraw : Message.ofText? raw = some (.response r))
      (hid : r.id.bind RequestId.number? = some id) : Ends c id (.receive raw)
  | timedOut {now deadline : Nat} {r : LiveRequest} (hr : c.requests.get? id = some r)
      (hdeadline : r.deadline = some deadline) (hdue : deadline ≤ now) : Ends c id (.sweep now)
  | lost {a : Act} (hattached : c.attached.isSome) (hlost : (c.act a).attached ≠ c.attached) :
      Ends c id a

def Refuses (c : Client) (id : Nat) : Act → Prop
  | .write _ => ∃ g l f, c.nextFrame? = some (g, l, f) ∧ f.requestId? = some id ∧ c.takes l = false
  | _ => False

/-- A request waits, its cancellation asked for, until one of these ends that; and then it is over. -/
def Lasts (ends : Client → Nat → Act → Prop) (id : Nat) (c : Client) : Prop :=
  ∀ more, (∃ r, (c.run more).requests.get? id = some r ∧ r.state = .cancelRequested) ∨
    (c.run more).requests.get? id = none ∧ ∃ mid a post r, more = mid ++ a :: post ∧
      (c.run mid).requests.get? id = some r ∧ r.state = .cancelRequested ∧
      ((c.run mid).act a).requests.get? id = none ∧ ends (c.run mid) id a

structure TouchesOnly (id : Nat) (c c' : Client) : Prop where
  requests : ∀ other, other ≠ id → c'.requests.get? other = c.requests.get? other ∧
    c'.requests.peek? other = c.requests.peek? other
  queue : c'.queue = c.queue.filter fun f => f.requestId? != some id
  lines : ∀ g, c.attached ≠ some g → Table.get? g c'.lines = Table.get? g c.lines
  rest : ∃ cancelledKeys requests queue lines,
    c' = { c with cancelledKeys, requests, queue, lines }

/-- A request is taken out of the queue: whoever waits for it is told so, and whatever happens, its
frame is handed to no line. -/
structure Withdrawn (id : Nat) (c c' : Client) : Prop where
  unqueued : id ∉ c'.queuedIds
  settled : c'.requests.get? id = none
  state : c'.requests.state? id = some .cancelled
  outcome : (c.requests.peek? id).isSome → c'.outcome? id = some (.error .cancelled)
  unsent : ∀ more g l, Table.get? g (c'.run more).lines = some l → id ∉ Frame.ids l.pushed

structure Asked (id : Nat) (r : LiveRequest) (c c' : Client) : Prop where
  live : c'.requests.get? id = some { r with state := .cancelRequested }
  told : ∃ g l l' before after, c.attached = some g ∧ c'.attached = some g ∧
    Table.get? g c.lines = some l ∧ Table.get? g c'.lines = some l' ∧
    l'.pushed = l.pushed ++ (if r.state = .cancelRequested then [] else [.cancelRequest id]) ∧
    l'.pushed = before ++ .cancelRequest id :: after ∧ id ∈ Frame.ids before
  lasts : c'.Lasts (fun c id a => c.Ends id a ∨ c.Refuses id a) id

section Ends

variable {c : Client} {id : Nat}

theorem attached_ne_of_deed (htied : c.bond.Tied) {a : Act} (hline : c.line?.isSome)
    (hdeed : c.deed a = .letGo ∨ c.deed a = .attach c.initializeFrame) :
    c.attached.isSome ∧ (c.act a).attached ≠ c.attached := by
  obtain ⟨l, hline⟩ := Option.isSome_iff_exists.mp hline
  obtain ⟨g, hg, -⟩ := Option.bind_eq_some_iff.mp hline
  obtain ⟨s, p, hwire⟩ := (does_act (c := c) a).wire
  have hattached : (c.act a).attached = (c.wire.after (c.deed a)).attached :=
    congrArg Wire.attached hwire
  refine ⟨by rw [hg]; rfl, ?_⟩
  rw [hattached, hg]
  obtain hdeed | hdeed := hdeed
  · rw [hdeed]
    exact Option.some_ne_none g ∘ Eq.symm
  · rw [hdeed]
    intro heq
    have hgeneration : c.generation + 1 = g := Option.some.inj heq
    have hlatest : c.generation = g := htied.latest g hg
    omega

variable (h : c.Orderly) (hagrees : c.Agrees) {r : LiveRequest}
  (hr : c.requests.get? id = some r) (hstate : r.state = .cancelRequested)
include h hagrees hr hstate

theorem of_cancelRequested (a : Act) :
    (∃ r', (c.act a).requests.get? id = some r' ∧ r'.state = .cancelRequested) ∨
      (c.act a).requests.get? id = none ∧ (c.Ends id a ∨ c.Refuses id a) := by
  have hget := get?_act (f := .live r) h.sorted (h.lt_nextId hr) hr a
  rw [hget]
  cases hfate : ((c.dealings a).foldl (Fate.move id) (.live r)).live? with
  | some r' =>
    exact .inl ⟨r', rfl, (Fate.cancelRequested_iff_of_live?_foldl hfate).mpr (.inl hstate)⟩
  | none =>
    refine .inr ⟨rfl, ?_⟩
    obtain ⟨before, mv, after, r', hmoves, -, hends⟩ := Fate.exists_of_settled hfate
    have hmem : mv ∈ c.dealings a := hmoves ▸ List.mem_append_right _ List.mem_cons_self
    cases dealing_of_mem hmem with
    | make | greet | ask | forget | write => cases hends
    | letGo hline hdeed =>
      obtain ⟨hattached, hlost⟩ := attached_ne_of_deed h.tied hline hdeed
      exact .inl (.lost hattached hlost)
    | withdraw hfind hqueued =>
      obtain rfl := RequestTable.eq_of_outcome?_reject hends
      cases hstate.symm.trans (hagrees.queued hr hqueued)
    | refuse hnext hid hrefusal =>
      obtain rfl := RequestTable.eq_of_outcome?_reject hends
      exact .inr ⟨_, _, _, hnext, hid, c.takes_of_refusal hrefusal⟩
    | @sweep now =>
      cases hdue : RequestTable.isOverdue now r with
      | false => simp [dealings, Fate.move, RequestTable.outcome?, hdue, Fate.live?] at hfate
      | true =>
        obtain ⟨deadline, hdeadline, hle⟩ : ∃ deadline, r.deadline = some deadline ∧ deadline ≤ now := by
          simpa [RequestTable.isOverdue, Option.any_eq_true] using hdue
        exact .inl (.timedOut hr hdeadline hle)
    | answer hraw hid =>
      obtain rfl := RequestTable.eq_of_outcome?_resolve hends
      exact .inl (.answered hraw hid)
    | fail hraw hid =>
      obtain rfl := RequestTable.eq_of_outcome?_reject hends
      exact .inl (.answered hraw hid)

theorem lasts_of_cancelRequested : c.Lasts (fun c id a => c.Ends id a ∨ c.Refuses id a) id := by
  intro more
  induction more generalizing c r with
  | nil => exact .inl ⟨r, hr, hstate⟩
  | cons a rest ih =>
    obtain ⟨r', hr', hstate'⟩ | ⟨hnone, hends⟩ := of_cancelRequested h hagrees hr hstate a
    · obtain hlive | ⟨hnone, mid, b, post, r'', rfl, hmid⟩ := ih (h.act a) (hagrees.act h a) hr' hstate'
      · exact .inl hlive
      · exact .inr ⟨hnone, a :: mid, b, post, r'', rfl, hmid⟩
    · refine .inr ⟨?_, [], a, rest, r, rfl, hr, hstate, hnone, hends⟩
      exact get?_run_of_none (h.act a) (lt_nextId_act (h.lt_nextId hr) a) hnone rest

end Ends

section Cancel

variable {c : Client} {key : String} {id : Nat}

theorem isCancelled_marked (key' : String) :
    (c.marked key).isCancelled key' = (key' == key || c.isCancelled key') := by
  rw [isCancelled, marked]
  dsimp only
  split
  next hkey =>
    by_cases heq : key' = key
    · rw [heq, beq_self_eq_true, Bool.true_or]
      exact hkey
    · rw [beq_false_of_ne heq, Bool.false_or]
      rfl
  next => exact List.contains_cons

theorem isCancelled_cancel (key' : String) :
    (c.cancel key).2.isCancelled key' = (key' == key || c.isCancelled key') := by
  rw [← isCancelled_marked]
  refine congrArg (List.contains · key') ?_
  cases c.cancelCourse key with
  | unused _ hcancel | asked _ hcancel => rw [hcancel]
  | withdrawn _ _ hcancel =>
    rw [hcancel]
    rfl
  | @new id _ _ _ _ hcancel =>
    obtain ⟨lines, queue, henqueue⟩ := exists_enqueue
      { c.marked key with requests := c.requests.requestCancel id } (.cancelRequest id)
    rw [hcancel]
    exact (congrArg Client.cancelledKeys henqueue :)

theorem cancel_of_sent {state : RequestState} (hfind : c.requests.findKey? key = some (id, state))
    (hsent : id ∉ c.queuedIds) (hnew : state ≠ .cancelRequested) (hready : c.isReady = true) :
    c.cancel key = (true,
      { c.marked key with requests := c.requests.requestCancel id }.push (.cancelRequest id)) := by
  have hnot : ¬(state = .queued ∧ c.isQueued id = true) := fun h =>
    hsent (List.contains_iff_mem.mp h.2)
  rw [cancel_of_new hfind hnot hnew]
  exact congrArg (Prod.mk true) (if_pos hready)

theorem touchesOnly_of_withdraw :
    c.TouchesOnly id (((c.marked key).unqueue id).reject id .cancelled) where
  requests _ hother := ⟨RequestTable.get?_settle_of_ne _ hother _,
    RequestTable.peek?_settle_of_ne hother⟩
  queue := rfl
  lines _ _ := rfl
  rest := ⟨_, _, _, _, rfl⟩

theorem filter_queue_of_sent (hsent : id ∉ c.queuedIds) :
    c.queue = c.queue.filter fun f => f.requestId? != some id := by
  refine (List.filter_eq_self.mpr fun f hf => bne_iff_ne.mpr fun hid => hsent ?_).symm
  exact List.mem_filterMap.mpr ⟨f, hf, hid⟩

theorem touchesOnly_of_marked (hsent : id ∉ c.queuedIds) : c.TouchesOnly id (c.marked key) where
  requests _ _ := ⟨rfl, rfl⟩
  queue := filter_queue_of_sent hsent
  lines _ _ := rfl
  rest := ⟨_, _, _, _, rfl⟩

theorem touchesOnly_of_ask (hsent : id ∉ c.queuedIds) :
    c.TouchesOnly id
      ({ c.marked key with requests := c.requests.requestCancel id }.push (.cancelRequest id)) := by
  obtain ⟨lines, hpush⟩ := exists_push
    { c.marked key with requests := c.requests.requestCancel id } (.cancelRequest id)
  have hlines : ∀ g, c.attached ≠ some g → Table.get? g lines = Table.get? g c.lines := by
    intro g hg
    have hlines := congrArg Client.lines hpush
    rw [push] at hlines
    split at hlines
    next g₀ hattached =>
      have hne : g₀ ≠ g := fun heq => hg (heq ▸ hattached)
      rw [← show _ = lines from hlines]
      exact Table.get?_adjust_of_ne hne _ _
    next => rw [← show _ = lines from hlines]; rfl
  rw [hpush]
  exact {
    requests := fun other hother => ⟨RequestTable.get?_adjust_of_ne _ hother _, rfl⟩
    queue := filter_queue_of_sent hsent
    lines := hlines
    rest := ⟨_, _, _, _, rfl⟩ }

theorem withdrawn_of_queued (h : c.Orderly) {r : LiveRequest} (hr : c.requests.get? id = some r)
    (hqueued : id ∈ c.queuedIds) :
    c.Withdrawn id (((c.marked key).unqueue id).reject id .cancelled) := by
  have hlive : c.requests.contains id = true := c.requests.contains_iff.mpr ⟨r, hr⟩
  have habsent : (((c.marked key).unqueue id).reject id .cancelled).traffic.Absent id := by
    refine ⟨?_, fun s hid => ?_⟩
    · exact Nat.lt_of_lt_of_le (h.lt_nextId hr) (Nat.le_of_eq (c.requests.nextId_settle _ _).symm)
    · cases s with
      | none =>
        obtain ⟨f, hf, hid⟩ := List.mem_filterMap.mp hid
        exact bne_iff_ne.mp (List.mem_filter.mp hf).2 hid
      | some g => cases h.single.apart none (some g) id hqueued hid
  exact {
    unqueued := habsent.gone none
    settled := RequestTable.get?_settle_self hlive
    state := RequestTable.state?_settle_self hlive
    outcome := fun hwaits => by
      obtain ⟨o, ho⟩ := Option.isSome_iff_exists.mp hwaits
      have hpeek : (c.requests.settle id (.error .cancelled)).peek? id =
          some (some (.error .cancelled)) := by rw [RequestTable.peek?_settle_self hlive, ho]; rfl
      exact congrArg (Option.bind · fun o => o) hpeek
    unsent := fun more g l hl => by
      rw [← slot_of_line hl]
      exact (absent_run habsent more).gone (some g) }

theorem live_of_cancel (hagrees : c.Agrees) {r : LiveRequest}
    (hr : c.requests.get? id = some r) (hfind : c.requests.findKey? key = some (id, r.state))
    (hkey : r.key = some key) (hsent : id ∉ c.queuedIds) :
    (c.cancel key).1 = true ∧ c.TouchesOnly id (c.act (.cancel key)) ∧
      (c.act (.cancel key)).requests.get? id = some { r with state := .cancelRequested } ∧
      c.tells (.cancel key) = if r.state = .cancelRequested then [] else [.cancelRequest id] := by
  have hnot : ¬(r.state = .queued ∧ c.isQueued id = true) := fun h =>
    hsent (List.contains_iff_mem.mp h.2)
  rw [act]
  by_cases hasked : r.state = .cancelRequested
  · have hdeed : c.deed (.cancel key) = .quiet := by
      rw [deed, hfind]
      exact (if_neg hnot).trans (if_pos hasked)
    rw [cancel_of_asked (hasked ▸ hfind), if_pos hasked, tells, hdeed]
    refine ⟨rfl, touchesOnly_of_marked hsent, hr.trans ?_, ite_self _⟩
    rw [← hasked]
  · have hready : c.isReady = true := hagrees.ready hr hsent (by rw [hkey]; rfl)
    have hdealings : c.dealings (.cancel key) = [.requestCancel id] := by
      rw [dealings, cancelling, hfind]
      exact (if_neg hnot).trans (if_neg hasked)
    rw [cancel_of_sent hfind hsent hasked hready, if_neg hasked]
    refine ⟨rfl, touchesOnly_of_ask hsent, ?_,
      (hagrees.tells_of_asked hr (hdealings ▸ List.mem_singleton_self _)).2⟩
    obtain ⟨lines, hpush⟩ := exists_push
      { c.marked key with requests := c.requests.requestCancel id } (.cancelRequest id)
    rw [hpush]
    exact (Table.get?_adjust_self id _ c.requests.live).trans (congrArg (Option.map _) hr)

theorem asked_of_cancel (h : c.Orderly) (hagrees : c.Agrees) {r : LiveRequest}
    (hr : c.requests.get? id = some r) (hfind : c.requests.findKey? key = some (id, r.state))
    (hkey : r.key = some key) (hsent : id ∉ c.queuedIds) : c.Asked id r (c.act (.cancel key)) := by
  obtain ⟨-, -, hlive, htells⟩ := live_of_cancel hagrees hr hfind hkey hsent
  refine ⟨hlive, ?_, lasts_of_cancelRequested (h.act _) (hagrees.act h _) hlive rfl⟩
  obtain ⟨g, l, l', hg, hg', hl, hl', -, hpushed⟩ := h.exists_line_act hr hsent hlive
  obtain ⟨g₀, l₀, before, after, hg₀, hl₀, hsplit, hbefore⟩ := (hagrees.act h _).asked hlive rfl
  cases hg'.symm.trans hg₀
  cases hl'.symm.trans hl₀
  exact ⟨g, l, l', before, after, hg, hg', hl, hl', htells ▸ hpushed, hsplit, hbefore⟩

theorem not_mem_asksFor_of_queued (h : c.Orderly) {r : LiveRequest}
    (hr : c.requests.get? id = some r) (hstate : r.state = .queued)
    (hfind : c.requests.findKey? key = some (id, .queued)) (hqueued : id ∈ c.queuedIds)
    {start : Client} (hstart : start.Orderly) {acts : List Act} (hrun : start.run acts = c)
    (more : List Act) : id ∉ gather asksFor (acts ++ .cancel key :: more) start := by
  have hdealings : c.dealings (.cancel key) = [.reject id .cancelled] := by
    rw [dealings, cancelling, hfind]
    exact if_pos ⟨rfl, List.contains_iff_mem.mpr hqueued⟩
  have hdone : (c.act (.cancel key)).IsDone id := by
    refine ⟨lt_nextId_act (h.lt_nextId hr) _, fun r' hr' => ?_⟩
    rw [get?_act (f := .live r) h.sorted (h.lt_nextId hr) hr, hdealings] at hr'
    simp [Fate.move, RequestTable.outcome?, Fate.live?] at hr'
  rw [gather_append, gather, hrun, List.mem_append, List.mem_append, not_or, not_or]
  refine ⟨fun hasked => ?_, fun hasked => ?_, hdone.not_mem (h.act _) more⟩
  · cases ((isDone_run_of_mem hstart hasked).2 r (hrun ▸ hr)).symm.trans hstate
  · rw [mem_asksFor_iff, hdealings] at hasked
    cases List.mem_singleton.mp hasked

end Cancel

/-- Cancelling a request that is queued ends it, and neither it nor its cancellation is ever heard of.
Cancelling one that is on its line asks the server, once, and it stays live until it is answered, runs
out of time, loses its connection, or is refused by the transport when its turn comes. -/
theorem cancel_protocol (settings : Settings) (policy : HolderPolicy) (processId : Nat) (hashing : Hashing)
    (acts : List Act) (key : String) :
    let start := new settings policy processId hashing
    let c := start.run acts
    let c' := c.act (.cancel key)
    (∀ key', c'.isCancelled key' = (key' == key || c.isCancelled key')) ∧
      ((∀ id r, c.requests.get? id = some r → r.key ≠ some key) →
        (c.cancel key).1 = false ∧ c' = { c with cancelledKeys := c'.cancelledKeys }) ∧
      (∀ id r, c.requests.get? id = some r → r.key = some key →
        (∀ other r', c.requests.get? other = some r' → r'.key = some key → other = id) →
        (c.cancel key).1 = true ∧ c.TouchesOnly id c' ∧
          (id ∈ c.queuedIds → c.Withdrawn id c' ∧ ∀ more,
            (gather tells (acts ++ .cancel key :: more) start).count (.cancelRequest id) ≤
              (acts ++ .cancel key :: more).countP (Act.notifies (.cancelRequest id))) ∧
          (id ∉ c.queuedIds → c.Asked id r c')) ∧
      ∀ id, (gather tells acts start).count (.cancelRequest id) ≤
        1 + acts.countP (Act.notifies (.cancelRequest id)) := by
  intro start c c'
  have hstart : start.Orderly := orderly_new settings policy processId hashing
  have h : c.Orderly := hstart.run acts
  have hagrees : c.Agrees := (agrees_new settings policy processId hashing).run hstart acts
  have hcount : ∀ acts id, (gather tells acts start).count (.cancelRequest id) ≤
      (gather asksFor acts start).count id + acts.countP (Act.notifies (.cancelRequest id)) := by
    intro acts id
    have hle : _ ≤ start.queue.count (.cancelRequest id) + _ := count_gather_tells_le acts
    rw [List.count_append, show start.queue = [] from rfl, List.count_nil, Nat.zero_add] at hle
    exact Nat.le_trans (Nat.le_add_right _ _) hle
  refine ⟨isCancelled_cancel, fun hunused => ?_, fun id r hr hkey hunique => ?_, fun id => ?_⟩
  · have hcancel := cancel_of_unused (RequestTable.findKey?_of_unused hunused)
    have hc' : c' = c.marked key := congrArg Prod.snd hcancel
    exact ⟨congrArg Prod.fst hcancel, by rw [hc']; rfl⟩
  · have hfind := RequestTable.findKey?_of_unique hr hkey hunique
    by_cases hqueued : id ∈ c.queuedIds
    · have hstate : r.state = .queued := hagrees.queued hr hqueued
      rw [hstate] at hfind
      have hcancel := cancel_of_queued hfind hqueued
      have hc' : c' = ((c.marked key).unqueue id).reject id .cancelled := congrArg Prod.snd hcancel
      refine ⟨congrArg Prod.fst hcancel, hc' ▸ touchesOnly_of_withdraw, fun _ => ⟨?_, fun more => ?_⟩,
        fun hsent => absurd hqueued hsent⟩
      · exact hc' ▸ withdrawn_of_queued h hr hqueued
      · have hnever := not_mem_asksFor_of_queued h hr hstate hfind hqueued hstart rfl more
        refine Nat.le_trans (hcount _ id) (Nat.le_of_eq ?_)
        rw [List.count_eq_zero.mpr hnever, Nat.zero_add]
    · obtain ⟨hdone, htouches, -⟩ := live_of_cancel hagrees hr hfind hkey hqueued
      exact ⟨hdone, htouches, fun hid => absurd hid hqueued, fun _ =>
        asked_of_cancel h hagrees hr hfind hkey hqueued⟩
  · exact Nat.le_trans (hcount acts id) (Nat.add_le_add_right (count_asksFor_le hstart acts id) _)

theorem cancel_protocol_of_reconnect :
    let start := new .standard .exclusive 1 .rising
    let past : List Act := [.request "custom/slow" none (some "k")]
    let acts : List Act := past ++ [.cancel "k", .addTransport 0, .beginConnect 0, .write 1,
      .finishConnect 1 (.ok (.object [("capabilities", .object [])])), .write 2,
      .request "custom/slow" none (some "k"), .write 3]
    let c := start.run past
    let d := start.run acts
    c.Withdrawn 1 (c.act (.cancel "k")) ∧
      (d.requests.state? 3 = some .inFlight ∧
        ∃ r, d.requests.get? 3 = some r ∧ d.Asked 3 r (d.act (.cancel "k"))) ∧
      (d.cancel "j").1 = false ∧
      (gather tells (acts ++ [.cancel "k", .cancel "k"]) start).count (.cancelRequest 3) ≤ 1 := by
  intro start past acts c d
  have hc := (cancel_protocol .standard .exclusive 1 .rising past "k").2.2.1 1
  have hd := (cancel_protocol .standard .exclusive 1 .rising acts "k").2.2.1 3
  have hunused := (cancel_protocol .standard .exclusive 1 .rising acts "j").2.1
  have hcount :=
    (cancel_protocol .standard .exclusive 1 .rising (acts ++ [.cancel "k", .cancel "k"]) "k").2.2.2 3
  have hkeys : ∀ (t : RequestTable) keys, t.live.map (fun e => (e.1, e.2.key)) = keys →
      ∀ id r, t.get? id = some r → (id, r.key) ∈ keys :=
    fun t keys hkeys id r hr => hkeys ▸ List.mem_map.mpr ⟨_, Table.mem_of_get? hr, rfl⟩
  have hkeysc := hkeys c.requests [(1, some "k")] (by decide)
  have hkeysd := hkeys d.requests [(2, none), (3, some "k")] (by decide)
  have honlyc : ∀ other r, c.requests.get? other = some r → r.key = some "k" → other = 1 :=
    fun other r hr hkey => by simpa [hkey] using hkeysc other r hr
  have honlyd : ∀ other r, d.requests.get? other = some r → r.key = some "k" → other = 3 :=
    fun other r hr hkey => by simpa [hkey] using hkeysd other r hr
  obtain ⟨r, hr⟩ := Option.isSome_iff_exists.mp (by decide : (c.requests.get? 1).isSome)
  obtain ⟨q, hq⟩ := Option.isSome_iff_exists.mp (by decide : (d.requests.get? 3).isSome)
  have hrkey : r.key = some "k" := by simpa using hkeysc 1 r hr
  have hqkey : q.key = some "k" := by simpa using hkeysd 3 q hq
  refine ⟨((hc r hr hrkey honlyc).2.2.1 (by decide)).1, ⟨by decide, q, hq, ?_⟩, ?_, hcount⟩
  · exact (hd q hq hqkey honlyd).2.2.2 (by decide)
  · exact (hunused fun other r' hother hkey => by simpa [hkey] using hkeysd other r' hother).1

/-- A transport that refuses a request ends it too, though it is none of the three. And whoever sends a
cancellation of his own adds it to that of the client. -/
theorem not_lasts_of_refusal :
    let c := (new .standard .exclusive 1 .rising).run [.addTransport 0, .beginConnect 0, .write 1,
      .finishConnect 1 (.ok (.object [("capabilities", .object [])])), .write 2,
      .request "custom/slow" none (some "k"), .happen 0 (.refuse true)]
    let c' := c.act (.cancel "k")
    let own : Act := .notify "$/cancelRequest" (some (.object [("id", .ofNat 2)]))
    c.requests.live.map (fun e => (e.1, e.2.key, e.2.state)) =
        [(1, none, .inFlight), (2, some "k", .queued)] ∧
      2 ∉ c.queuedIds ∧ (c.cancel "k").1 = true ∧
      c'.requests.state? 2 = some .cancelRequested ∧
      (c'.act (.write 3)).outcome? 2 = some (.error (.transport "Transport refused message")) ∧
      ¬c'.Lasts Ends 2 ∧
      gather tells [.cancel "k", own] c = [.cancelRequest 2, .cancelRequest 2] := by
  intro c c' own
  have hdead : (c'.run [.write 3]).requests.get? 2 = none := by decide
  have hkept : (c'.act (.write 3)).attached = c'.attached := by decide
  have hcancels : gather tells [.cancel "k", own] c = [.cancelRequest 2, .cancelRequest 2] := by decide
  refine ⟨by decide, by decide, by decide, by decide, rfl, fun hlasts => ?_, hcancels⟩
  obtain ⟨r, hr, -⟩ | ⟨-, mid, a, post, r, hmore, -, -, -, hends⟩ := hlasts [.write 3]
  · cases hdead.symm.trans hr
  · cases mid with
    | nil =>
      cases (List.cons.inj hmore).1
      cases hends with
      | lost hattached hlost => exact hlost hkept
    | cons b mid => simp at hmore

end Client

end LanguageClient
