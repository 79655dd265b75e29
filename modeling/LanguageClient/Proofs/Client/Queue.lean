import LanguageClient.Proofs.Client.Once
import LanguageClient.Proofs.Client.Stream
import LanguageClient.Proofs.Client.Whereabouts
import LanguageClient.Proofs.Request.Update

namespace LanguageClient

namespace Deed

def calls : Deed → List Frame
  | .speak _ calls _ => calls
  | _ => []

def withdrawn : Deed → List Nat
  | .withdraw id => [id]
  | _ => []

end Deed

namespace Frame

def isSpared (ids : List Nat) (f : Frame) : Bool :=
  f.requestId?.all (!ids.contains ·)

theorem filter_isSpared_nil (fs : List Frame) : fs.filter (isSpared []) = fs := by
  refine List.filter_eq_self.mpr fun f _ => ?_
  cases h : f.requestId? <;> simp [isSpared, h]

theorem isSpared_singleton (id : Nat) : isSpared [id] = fun f => f.requestId? != some id := by
  funext f
  cases h : f.requestId? with
  | none => simp [isSpared, h]
  | some id' => by_cases heq : id' = id <;> simp [isSpared, h, heq]

theorem isSpared_append (ids more : List Nat) (f : Frame) :
    isSpared (ids ++ more) f = (isSpared ids f && isSpared more f) := by
  cases h : f.requestId? <;> simp [isSpared, h]

theorem filter_isSpared_of_not_mem {ids : List Nat} {fs : List Frame}
    (h : ∀ id ∈ Frame.ids fs, id ∉ ids) : fs.filter (isSpared ids) = fs := by
  refine List.filter_eq_self.mpr fun f hf => ?_
  cases hid : f.requestId? with
  | none => simp [isSpared, hid]
  | some id => simpa [isSpared, hid] using h id (List.mem_filterMap.mpr ⟨f, hf, hid⟩)

end Frame

theorem Wire.queue_after (w : Wire) (d : Deed) :
    (w.after d).queue = match d with
      | .speak _ calls _ => if w.isReady then w.queue else w.queue ++ calls
      | .withdraw id => w.queue.filter fun f => f.requestId? != some id
      | .complete _ => []
      | _ => w.queue := by
  cases d with
  | speak notices calls answers =>
    rw [after]
    split <;> rfl
  | _ => rfl

theorem Wire.send_pushed_of_none {w : Wire} {g : Nat} (h : w.pushed g = none) (fs : List Frame) :
    (w.send fs).pushed g = none := by
  rw [send]
  dsimp only
  rw [h, Option.map_none, ite_self]

theorem Wire.pushed_after_of_none {w : Wire} {d : Deed} {g : Nat} {told : List Frame}
    (h : w.pushed g = none) (htold : (w.after d).pushed g = some told) :
    ∃ first, d = .attach first ∧ told = [first] := by
  cases d with
  | attach first =>
    refine ⟨first, rfl, ?_⟩
    by_cases hg : w.generation + 1 = g
    · subst hg
      exact Option.some.inj (htold.symm.trans (pushed_attach first))
    · cases htold.symm.trans (send_pushed_of_none (w := w.attach) ((if_neg hg).trans h) [first])
  | speak notices calls answers =>
    rw [after] at htold
    split at htold
    · cases htold.symm.trans (send_pushed_of_none h _)
    · cases htold.symm.trans (send_pushed_of_none (w := { w with queue := _ }) h _)
  | complete greeting => cases htold.symm.trans (send_pushed_of_none h (greeting ++ w.queue))
  | withdraw _ | write _ | letGo => cases htold.symm.trans h

namespace Client

def held (c : Client) (a : Act) : List Frame :=
  if c.phase = .initialized then [] else (c.deed a).calls

def withdrawn (c : Client) (a : Act) : List Nat :=
  (c.deed a).withdrawn

def greets (c : Client) : Act → Bool
  | .finishConnect generation outcome => c.completes generation outcome
  | _ => false

def flushed (c : Client) (a : Act) : List (Nat × List Frame) :=
  if c.greets a then [(c.generation, c.queue)] else []

section Requests

/-- The requests that no act takes out of the table while they are queued, but for a cancellation and a
message of the server. -/
def kept (c : Client) : Act → List Nat
  | .cancel _ | .receive _ => []
  | _ => c.queuedIds

open RequestTable (Update)

variable {c c' : Client} {log : List Milestone} {kept : List Nat}

theorem update_of_eq (h : c'.requests = c.requests) : Update kept c.requests c'.requests :=
  .same (congrArg RequestTable.live h) (congrArg RequestTable.nextId h)

theorem update_teardown : Update c.queuedIds c.requests c.teardown.requests := by
  rw [teardown]
  dsimp only
  split
  · exact update_of_eq rfl
  · exact .rejectExcept c.requests

theorem update_detach (generation : Nat) :
    Update c.queuedIds c.requests (c.detach generation).requests := by
  rw [detach]
  split
  · exact update_teardown
  · exact update_of_eq rfl

theorem update_beginConnect (transport : Nat) :
    Update c.queuedIds c.requests (c.beginConnect transport).2.2.requests := by
  obtain ⟨lines, hbegin⟩ := c.exists_beginConnect transport
  rw [hbegin]
  exact .trans update_teardown (.create _ ..)

theorem update_finishConnect (generation : Nat) (outcome : Outcome) :
    Update c.queuedIds c.requests (c.finishConnect generation outcome).2.requests := by
  cases c.finishCourse generation outcome with
  | @fails _ gate _ _ hfinish =>
    rw [hfinish]
    exact update_detach (c := { c with gate }) generation
  | completes _ _ hdone hfinish =>
    obtain ⟨documents, lines, rfl⟩ := exists_of_completeHandshake hdone
    rw [hfinish]
    exact update_of_eq rfl

theorem update_of_startRequest {method : String} {params : Option Json} {key : Option String}
    {id : Nat} (h : c.startRequest method params key = .ok (id, c')) :
    Update kept c.requests c'.requests := by
  obtain ⟨lines, queue, rfl⟩ := exists_of_startRequest h
  exact .create c.requests ..

theorem update_startMapped (method : String) (params : Option Json) (key : Option String) :
    Update kept c.requests (c.act (.startMapped method params key)).requests := by
  obtain ⟨documents, lines, hsync⟩ := c.exists_sync
  have hmapping : Update kept c.requests c.sync.2.startMapping.2.requests :=
    update_of_eq (congrArg requests hsync :)
  rw [act]
  cases c.mappedCourse method params key with
  | unready _ hmapped =>
    rw [hmapped]
    exact update_of_eq rfl
  | refused _ _ hmapped =>
    rw [hmapped]
    exact hmapping
  | asks _ hstart hmapped =>
    rw [hmapped]
    exact .trans hmapping (update_of_startRequest hstart)

theorem update_beginShutdown : Update c.queuedIds c.requests (c.act .beginShutdown).requests := by
  rw [act]
  cases c.shutdownCourse with
  | asks _ hstart hshutdown =>
    rw [hshutdown]
    exact update_of_startRequest hstart
  | letsGo _ hshutdown =>
    rw [hshutdown]
    exact update_teardown

theorem update_cancel (key : String) : Update [] c.requests (c.cancel key).2.requests := by
  cases c.cancelCourse key with
  | unused _ hcancel | asked _ hcancel =>
    rw [hcancel]
    exact update_of_eq rfl
  | withdrawn _ _ hcancel =>
    rw [hcancel]
    exact .settle c.requests List.not_mem_nil _
  | @new id _ _ _ _ hcancel =>
    obtain ⟨lines, queue, h⟩ := exists_enqueue
      { c.marked key with requests := c.requests.requestCancel id } (.cancelRequest id)
    rw [hcancel, h]
    exact .requestCancel c.requests List.not_mem_nil

theorem update_writeFrame (now : Nat) (l : Line) {f : Frame}
    (hf : ∀ id, f.requestId? = some id → id ∉ kept) :
    Update kept c.requests (c.writeFrame now l f).requests := by
  cases c.writeCourse now l f with
  | passed _ _ hwrite | lost _ _ hwrite => exact update_of_eq (congrArg requests hwrite)
  | sent _ hsend hwrite =>
    obtain ⟨channel, -, -, rfl⟩ := of_transmit hsend
    exact update_of_eq (congrArg requests hwrite :)
  | refused hid _ _ hwrite =>
    rw [hwrite]
    exact .trans (.dispatch c.requests (hf _ hid) now) (.settle _ (hf _ hid) _)
  | handedOver hid _ hsend hwrite =>
    obtain ⟨channel, -, -, rfl⟩ := of_transmit hsend
    rw [hwrite]
    exact .dispatch c.requests (hf _ hid) now

theorem update_write (hplaced : c.traffic.Placed log) (now : Nat) :
    Update c.queuedIds c.requests (c.act (.write now)).requests := by
  rw [act, write?_eq]
  cases hnext : c.nextFrame? with
  | none => exact update_of_eq rfl
  | some next =>
    obtain ⟨g, l, f⟩ := next
    obtain ⟨hattached, hl, rest, hrest⟩ := nextFrame?_eq_some hnext
    refine update_writeFrame (c := c.take g l) now l fun id hid hqueued => ?_
    have hline : c.line? = some l := by rw [line?, hattached]; exact hl
    have hwaiting : id ∈ c.traffic.waiting := by
      rw [waiting_traffic hline, hrest, Frame.ids_cons, hid]
      exact List.mem_cons_self
    exact (List.nodup_append.mp hplaced.once).2.2 id hqueued id
      (List.mem_append_right _ hwaiting) rfl

theorem update_receive (raw : String) : Update [] c.requests (c.receive raw).2.2.requests := by
  cases c.receiveCourse raw with
  | unread _ hreceive | stray _ _ hreceive | notified _ hreceive | handled _ _ hreceive =>
    rw [hreceive]
    exact update_of_eq rfl
  | settles _ _ hreceive =>
    rw [hreceive]
    exact .settle c.requests List.not_mem_nil _
  | @answers r _ _ hreceive =>
    obtain ⟨gate, hanswer⟩ := c.exists_answerRequest r.method (r.params.getD .null)
    obtain ⟨lines, hpush⟩ := exists_push (c.answerRequest r.method (r.params.getD .null)).2
      (.response (.answering r.id (c.answerRequest r.method (r.params.getD .null)).1))
    rw [hreceive]
    exact update_of_eq ((congrArg requests hpush :).trans (congrArg requests hanswer :))

theorem update_act (hplaced : c.traffic.Placed log) (a : Act) :
    Update (c.kept a) c.requests (c.act a).requests := by
  by_cases hlocal : a.isLocal = true
  · obtain ⟨documents, lines, queue, handlers, hact⟩ := c.exists_of_isLocal hlocal
    exact update_of_eq (congrArg requests hact :)
  · cases a with
    | startMapped method params key => exact update_startMapped method params key
    | beginConnect transport => exact update_beginConnect transport
    | finishConnect generation outcome => exact update_finishConnect generation outcome
    | disconnect => exact update_teardown
    | beginShutdown => exact update_beginShutdown
    | request method params key =>
      rw [act]
      cases hstart : c.startRequest method params key with
      | error e => exact update_of_eq rfl
      | ok r => exact update_of_startRequest hstart
    | cancel key => exact update_cancel key
    | write now => exact update_write hplaced now
    | sweep now => exact .look c.requests now
    | receive raw => exact update_receive raw
    | forget id => exact .same rfl rfl
    | addTransport | happen => exact update_of_eq rfl
    | _ => exact absurd rfl hlocal

theorem untimed_of_queued (hplaced : c.traffic.Placed log) {id : Nat} {r : LiveRequest}
    (hid : id ∈ c.queuedIds) (hr : c.requests.get? id = some r) : r.deadline = none := by
  have hclock : c.traffic.clock id = some r.deadline := congrArg (Option.map LiveRequest.deadline) hr
  obtain ⟨w, hw⟩ := exists_isAt hplaced hclock
  cases hplaced.place_unique (w := .queue) hid (mem_of_isAt hw)
  exact hw.2

theorem get?_act_of_queued (hplaced : c.traffic.Placed log) (hsorted : c.requests.live.Sorted)
    {id : Nat} {r : LiveRequest} (hid : id ∈ c.queuedIds) (hr : c.requests.get? id = some r) {a : Act}
    (hkept : c.kept a = c.queuedIds) : (c.act a).requests.get? id = some r := by
  have hlt : id < c.requests.nextId := hplaced.fresh id (List.mem_append_left _ hid)
  exact (update_act hplaced a).get?_of_mem hsorted (hkept ▸ hid) hlt hr
    (untimed_of_queued hplaced hid hr)

theorem sorted_run (hplaced : c.traffic.Placed log) (hsorted : c.requests.live.Sorted)
    (acts : List Act) : (c.run acts).requests.live.Sorted := by
  induction acts generalizing c log with
  | nil => exact hsorted
  | cons a rest ih =>
    exact ih (hplaced.step (step_act a)) ((update_act hplaced a).sorted hsorted)

end Requests

section Queue

variable {c : Client} {a : Act}

theorem greets_eq : c.greets a = (c.deed a).completes := by
  refine Bool.eq_iff_iff.mpr ⟨fun h => ?_, fun h => ?_⟩
  · cases a with
    | finishConnect generation outcome => rw [deed_of_completes h]; rfl
    | _ => cases h
  · obtain ⟨generation, outcome, rfl, hcompletes⟩ := exists_of_completes h
    exact hcompletes

theorem queue_act (htied : c.bond.Tied) (a : Act) :
    (c.queue ++ c.held a).filter (Frame.isSpared (c.withdrawn a)) =
      (c.flushed a).flatMap Prod.snd ++ (c.act a).queue := by
  obtain ⟨s, p, hwire⟩ := (does_act (c := c) a).wire
  have hqueue : (c.act a).queue = (c.wire.after (c.deed a)).queue := congrArg Wire.queue hwire
  rw [hqueue, Wire.queue_after, held, withdrawn, flushed, greets_eq]
  cases c.deed a with
  | speak notices calls answers =>
    simp only [Deed.withdrawn, Deed.calls, Deed.completes, Frame.filter_isSpared_nil]
    by_cases hphase : c.phase = .initialized
    · have hready : c.wire.isReady = true := htied.phase.mp hphase
      rw [if_pos hphase, if_pos hready, List.append_nil]
      rfl
    · have hready : ¬c.wire.isReady = true := fun h => hphase (htied.phase.mpr h)
      rw [if_neg hphase, if_neg hready]
      rfl
  | withdraw id =>
    simp only [Deed.withdrawn, Deed.calls, ite_self, List.append_nil, Frame.isSpared_singleton]
    rfl
  | complete greeting =>
    simp only [Deed.withdrawn, Deed.calls, ite_self, List.append_nil, Frame.filter_isSpared_nil]
    exact (List.append_nil _).symm
  | write _ | attach _ | letGo =>
    simp only [Deed.withdrawn, Deed.calls, ite_self, List.append_nil, Frame.filter_isSpared_nil]
    rfl

theorem queue_act_of_greets (h : c.greets a = true) : (c.act a).queue = [] := by
  obtain ⟨s, p, hwire⟩ := (does_act (c := c) a).wire
  have hqueue : (c.act a).queue = (c.wire.after (c.deed a)).queue := congrArg Wire.queue hwire
  rw [greets_eq] at h
  obtain ⟨generation, outcome, rfl, hcompletes⟩ := exists_of_completes h
  rw [hqueue, Wire.queue_after, deed_of_completes hcompletes]

theorem of_mem_flushed (htied : c.bond.Tied) {g : Nat} {q : List Frame} (h : (g, q) ∈ c.flushed a) :
    c.greets a = true ∧ c.attached = some g ∧ q = c.queue ∧ (c.act a).queue = [] := by
  rw [flushed] at h
  split at h
  next hgreets =>
    cases List.mem_singleton.mp h
    have hcompletes := hgreets
    rw [greets_eq] at hcompletes
    obtain ⟨generation, outcome, rfl, hdone⟩ := exists_of_completes hcompletes
    have hattached := attached_of_completes htied hdone
    have hlatest : c.generation = generation := htied.latest generation hattached
    exact ⟨hgreets, hlatest ▸ hattached, rfl, queue_act_of_greets hgreets⟩
  next => cases h

theorem nextId_act_le : c.requests.nextId ≤ (c.act a).requests.nextId :=
  (step_act (c := c) a).nextId_le

theorem eq_nextId_of_mem_asks {method : String} {params : Option Json} {id : Nat}
    (h : id ∈ Frame.ids (c.asks method params)) : id = c.requests.nextId := by
  rw [asks] at h
  split at h
  · cases h
  · exact List.mem_singleton.mp h

theorem eq_nextId_of_mem_calls {id : Nat} (h : id ∈ Frame.ids (c.deed a).calls) :
    id = c.requests.nextId := by
  cases a with
  | startMapped method params key =>
    rw [deed] at h
    split at h
    · exact eq_nextId_of_mem_asks h
    · cases h
  | request method params key => exact eq_nextId_of_mem_asks h
  | beginShutdown =>
    rw [deed] at h
    split at h
    · exact eq_nextId_of_mem_asks h
    · cases h
  | _ =>
    rw [deed] at h
    repeat' split at h
    all_goals cases h

theorem mem_queuedIds_of_withdrawn {id : Nat} (h : id ∈ c.withdrawn a) : id ∈ c.queuedIds := by
  cases a with
  | cancel key =>
    rw [withdrawn, deed] at h
    split at h
    next => cases h
    next id' state _ =>
      split at h
      next hqueued =>
        cases List.mem_singleton.mp h
        exact List.contains_iff_mem.mp hqueued.2
      next => split at h <;> cases h
  | _ =>
    rw [withdrawn, deed] at h
    repeat' split at h
    all_goals cases h

theorem queuedIds_act (htied : c.bond.Tied) {id : Nat} (h : id ∈ (c.act a).queuedIds) :
    id ∈ c.queuedIds ∨ c.requests.nextId ≤ id := by
  have hsub : (c.act a).queue.Sublist (c.queue ++ c.held a) := by
    have hfilter : ((c.queue ++ c.held a).filter (Frame.isSpared (c.withdrawn a))).Sublist
        (c.queue ++ c.held a) := List.filter_sublist
    rw [queue_act htied a] at hfilter
    exact (List.sublist_append_right _ _).trans hfilter
  have hid := (Traffic.ids_sublist hsub).subset h
  rw [Frame.ids_append, List.mem_append] at hid
  refine hid.imp_right fun hid => ?_
  rw [held] at hid
  split at hid
  · cases hid
  · exact Nat.le_of_eq (eq_nextId_of_mem_calls hid).symm

variable {acts : List Act}

theorem nextId_le_of_mem_held {id : Nat} (h : id ∈ Frame.ids (gather held acts c)) :
    c.requests.nextId ≤ id := by
  induction acts generalizing c with
  | nil => cases h
  | cons a rest ih =>
    rw [gather, Frame.ids_append, List.mem_append] at h
    obtain h | h := h
    · rw [held] at h
      split at h
      · cases h
      · exact Nat.le_of_eq (eq_nextId_of_mem_calls h).symm
    · exact Nat.le_trans nextId_act_le (ih h)

theorem of_mem_withdrawn (htied : c.bond.Tied) {id : Nat} (h : id ∈ gather withdrawn acts c) :
    id ∈ c.queuedIds ∨ c.requests.nextId ≤ id := by
  induction acts generalizing c with
  | nil => cases h
  | cons a rest ih =>
    rw [gather, List.mem_append] at h
    obtain h | h := h
    · exact .inl (mem_queuedIds_of_withdrawn h)
    · obtain hid | hle := ih (htied.step (c.bond_step a)) h
      · exact queuedIds_act htied hid
      · exact .inr (Nat.le_trans nextId_act_le hle)

/-- What was in the queue and what came to it went out of it in the same order, each frame once, or is
there still, but for the requests that were cancelled. -/
theorem queue_run (htied : c.bond.Tied) (hsingle : c.traffic.Single) :
    (c.queue ++ gather held acts c).filter (Frame.isSpared (gather withdrawn acts c)) =
      (gather flushed acts c).flatMap Prod.snd ++ (c.run acts).queue := by
  induction acts generalizing c with
  | nil => simp [gather, run, Frame.filter_isSpared_nil]
  | cons a rest ih =>
    have htied' : (c.act a).bond.Tied := htied.step (c.bond_step a)
    have hsingle' : (c.act a).traffic.Single := hsingle.step (step_act a)
    have hfresh : ∀ id ∈ c.queuedIds, id < (c.act a).requests.nextId := fun id hid =>
      Nat.lt_of_lt_of_le (hsingle.fresh none id hid) nextId_act_le
    let later := gather held rest (c.act a)
    let gone := gather withdrawn rest (c.act a)
    -- what comes later is new, so it is not what is cancelled now
    have hlater : later.filter (Frame.isSpared (c.withdrawn a)) = later := by
      refine Frame.filter_isSpared_of_not_mem fun id hid hnow => ?_
      exact Nat.not_lt_of_le (nextId_le_of_mem_held hid) (hfresh id (mem_queuedIds_of_withdrawn hnow))
    -- what goes out now is not in the queue any more, so it is not cancelled later
    have hsent : ((c.flushed a).flatMap Prod.snd).filter (Frame.isSpared gone) =
        (c.flushed a).flatMap Prod.snd := by
      by_cases hgreets : c.greets a = true
      · rw [flushed, if_pos hgreets, List.flatMap_singleton]
        refine Frame.filter_isSpared_of_not_mem fun id hid hgone => ?_
        obtain hqueued | hle := of_mem_withdrawn htied' hgone
        · rw [queuedIds, queue_act_of_greets hgreets] at hqueued
          cases hqueued
        · exact Nat.not_lt_of_le hle (hfresh id hid)
      · rw [flushed, if_neg hgreets]
        rfl
    calc (c.queue ++ (c.held a ++ later)).filter (Frame.isSpared (c.withdrawn a ++ gone))
      _ = ((c.queue ++ (c.held a ++ later)).filter (Frame.isSpared (c.withdrawn a))).filter
          (Frame.isSpared gone) := by
        rw [List.filter_filter]
        exact congrArg (List.filter · _)
          (funext fun f => (Frame.isSpared_append _ _ f).trans (Bool.and_comm _ _))
      _ = ((c.flushed a).flatMap Prod.snd ++ ((c.act a).queue ++ later)).filter
          (Frame.isSpared gone) := by
        rw [← List.append_assoc, List.filter_append, queue_act htied a, hlater, List.append_assoc]
      _ = (c.flushed a).flatMap Prod.snd ++
          ((gather flushed rest (c.act a)).flatMap Prod.snd ++ ((c.act a).run rest).queue) := by
        rw [List.filter_append, hsent, ih htied' hsingle']
      _ = (gather flushed (a :: rest) c).flatMap Prod.snd ++ (c.run (a :: rest)).queue := by
        rw [gather, List.flatMap_append, List.append_assoc]
        rfl

end Queue

section Lines

variable {c : Client} {a : Act} {g : Nat} {log : List Writing}

theorem tells_eq (htied : c.bond.Tied) (a : Act) :
    c.tells a =
      if c.greets a then c.greeting ++ c.queue
      else if c.phase = .initialized then c.frames a else c.answers a := by
  cases hgreets : c.greets a with
  | true =>
    rw [greets_eq] at hgreets
    obtain ⟨generation, outcome, rfl, hcompletes⟩ := exists_of_completes hgreets
    rw [tells, deed_of_completes hcompletes]
    rfl
  | false =>
    rw [greets_eq] at hgreets
    rw [tells_of_not_completes hgreets]
    by_cases hphase : c.phase = .initialized
    · exact (if_pos (htied.phase.mp hphase)).trans (if_pos hphase).symm
    · exact (if_neg fun hready => hphase (htied.phase.mpr hready)).trans (if_neg hphase).symm

theorem exists_line_act (htied : c.bond.Tied) (hwrites : c.wire.Writes c.ledger.taken log) {l : Line}
    (hl : Table.get? g c.lines = some l) (a : Act) :
    ∃ l', Table.get? g (c.act a).lines = some l' ∧
      l'.pushed = l.pushed ++
        if c.attached = some g then
          if c.greets a then c.greeting ++ c.queue
          else if c.phase = .initialized then c.frames a else c.answers a
        else [] := by
  have htold : c.wire.pushed g = some l.pushed := congrArg (Option.map Line.pushed) hl
  have hg : g ≤ c.generation := by
    refine Nat.le_of_not_lt fun hlt => ?_
    cases (hwrites.unborn g hlt).symm.trans htold
  refine Option.map_eq_some_iff.mp ((pushed_act hg).trans ?_)
  rw [← tells_eq htied, htold]
  split
  · rfl
  · rw [List.append_nil]

theorem pushed_act_of_none (h : c.wire.pushed g = none) {told : List Frame}
    (htold : (c.act a).wire.pushed g = some told) : told = [c.initializeFrame] := by
  obtain ⟨s, p, hwire⟩ := (does_act (c := c) a).wire
  rw [hwire] at htold
  obtain ⟨first, hdeed, htold⟩ := Wire.pushed_after_of_none (w := c.wire) h htold
  cases a with
  | beginConnect transport =>
    cases hdeed
    exact htold
  | _ =>
    rw [deed] at hdeed
    repeat' split at hdeed
    all_goals cases hdeed

end Lines

/-- What is asked or told while the client is not initialized waits in the queue, whatever connections
fail, are superseded or are torn down. All of it goes to the first connection that completes its
handshake, behind the greeting, once and in the order in which it came, but for the requests that were
cancelled; and no other connection is given any of it. While a request waits, only a cancellation or a
message of the server can settle it. The frame of a request is handed to a transport once at most, and
not any more once the request is settled. -/
theorem queue_conserved (settings : Settings) (policy : HolderPolicy) (processId : Nat) (hashing : Hashing)
    (past acts : List Act) :
    let start := new settings policy processId hashing
    let c := start.run past
    (c.phase ≠ .initialized →
      (∀ method params key id c', c.startRequest method params key = .ok (id, c') →
        c.held (.request method params key) = [.request id method params]) ∧
      ∀ method params, c.held (.notify method params) = [.notification method params]) ∧
    (c.queue ++ gather held acts c).filter (Frame.isSpared (gather withdrawn acts c)) =
      (gather flushed acts c).flatMap Prod.snd ++ (c.run acts).queue ∧
    (∀ a g q, (g, q) ∈ c.flushed a → c.greets a = true ∧ c.attached = some g ∧ q = c.queue ∧
      (c.act a).queue = []) ∧
    (∀ a g l, Table.get? g c.lines = some l → ∃ l', Table.get? g (c.act a).lines = some l' ∧
      l'.pushed = l.pushed ++
        if c.attached = some g then
          if c.greets a then c.greeting ++ c.queue
          else if c.phase = .initialized then c.frames a else c.answers a
        else []) ∧
    (∀ a g l, Table.get? g c.lines = none → Table.get? g (c.act a).lines = some l →
      l.pushed = [c.initializeFrame]) ∧
    (∀ id r a, id ∈ c.queuedIds → c.requests.get? id = some r → (∀ key, a ≠ .cancel key) →
      (∀ raw, a ≠ .receive raw) → (c.act a).requests.get? id = some r) ∧
    (∀ a t, (c.act a).mail t = c.mail t ++ c.posted t a ∨
      c.writing? a = none ∧ (c.act a).mail t <:+ c.mail t) ∧
    (Frame.ids (Writing.handed (writings (past ++ acts) start))).Nodup ∧
    ∀ id < c.requests.nextId, c.requests.get? id = none →
      id ∉ Frame.ids (Writing.handed (writings acts c)) := by
  intro start c
  have htied : c.bond.Tied := tied_run (tied_new settings policy processId hashing) past
  have hsingle : c.traffic.Single := single_run (single_new settings policy processId hashing) past
  have hwrites : c.wire.Writes c.ledger.taken (writings past start) :=
    writes_run (writes_new settings policy processId hashing) past
  have hplaced : c.traffic.Placed (start.milestones past) :=
    (placed_run settings policy processId hashing past).1
  have hsorted : c.requests.live.Sorted :=
    sorted_run (placed_new settings policy processId hashing) .nil past
  refine ⟨fun hphase => ⟨fun method params key id c' h => ?_, fun method params => ?_⟩,
    queue_run htied hsingle, fun a g q => of_mem_flushed htied, fun a g l hl => exists_line_act htied hwrites hl a,
    fun a g l h hl => pushed_act_of_none (congrArg (Option.map Line.pushed) h)
      (congrArg (Option.map Line.pushed) hl), fun id r a hid hr hcancel hreceive => ?_, mail_act, ?_,
    fun id hlt hgone => ?_⟩
  · exact (if_neg hphase).trans (asks_of_startRequest h)
  · exact if_neg hphase
  · refine get?_act_of_queued hplaced hsorted hid hr ?_
    cases a with
    | cancel key => exact absurd rfl (hcancel key)
    | receive raw => exact absurd rfl (hreceive raw)
    | _ => rfl
  · exact nodup_handed (single_run (single_new settings policy processId hashing) (past ++ acts))
      (writes_run (writes_new settings policy processId hashing) (past ++ acts))
  · exact not_mem_handed hlt (congrArg Option.isSome hgone) acts

theorem queue_conserved_of_reconnect :
    let start := new .standard .exclusive 1 .rising
    let past : List Act := [.request "textDocument/hover" none none, .beginConnect 0, .write 1]
    let acts : List Act := [.notify "custom/note" none, .disconnect,
      .request "textDocument/rename" none (some "k"), .cancel "k", .sweep 9, .beginConnect 0,
      .finishConnect 3 (.ok (.object [("capabilities", .object [])])), .write 10, .write 11, .write 12]
    let c := start.run past
    gather held acts c = [.notification "custom/note" none, .request 3 "textDocument/rename" none] ∧
      gather withdrawn acts c = [3] ∧
      (gather flushed acts c).flatMap Prod.snd ++ (c.run acts).queue =
        [.request 1 "textDocument/hover" none, .notification "custom/note" none] ∧
      1 ∈ Frame.ids (Writing.handed (writings (past ++ acts) start)) ∧
      (Frame.ids (Writing.handed (writings (past ++ acts) start))).Nodup := by
  intro start past acts c
  have hlaw := queue_conserved .standard .exclusive 1 .rising past acts
  have hqueue : c.queue = [.request 1 "textDocument/hover" none] := by decide
  have hheld : gather held acts c =
      [.notification "custom/note" none, .request 3 "textDocument/rename" none] := by decide
  have hwithdrawn : gather withdrawn acts c = [3] := by decide
  refine ⟨hheld, hwithdrawn, hlaw.2.1.symm.trans ?_, by decide, hlaw.2.2.2.2.2.2.2.1⟩
  rw [show (new .standard .exclusive 1 .rising).run past = c from rfl, hqueue, hheld, hwithdrawn]
  decide

end Client

end LanguageClient
