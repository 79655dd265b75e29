import LanguageClient.Proofs.Client.Placed

namespace LanguageClient

def Line.written (l : Line) : List Frame :=
  l.pushed.take l.taken

namespace Client

def IsAt (c : Client) (log : List Milestone) (id : Nat) (r : LiveRequest) : Whereabouts → Prop
  | .queue => c.queuedIds.count id = 1 ∧ r.deadline = none
  | .outbound => ∃ l, c.line? = some l ∧ id ∈ Frame.ids l.waiting
  | .transport => ∃ g l, c.attached = some g ∧ c.line? = some l ∧ id ∈ Frame.ids l.written ∧
      .handedOver g id ∈ log ∧ r.deadline.isSome

section Line

variable {c : Client} {l : Line} (hl : c.line? = some l)
include hl

theorem told_traffic : c.traffic.told = l.pushed ∧ c.traffic.progress = l.taken := by
  obtain ⟨g, hg, hl⟩ := Option.bind_eq_some_iff.mp hl
  have hpushed : c.traffic.pushed g = some l.pushed := congrArg (Option.map Line.pushed) hl
  refine ⟨Traffic.told_of_attached hg hpushed, (Traffic.progress_of_attached hg).trans ?_⟩
  exact congrArg (Option.elim · 0 Line.taken) hl

theorem written_traffic : c.traffic.written = Frame.ids l.written := by
  obtain ⟨htold, hprogress⟩ := told_traffic hl
  rw [Traffic.written, htold, hprogress]
  rfl

theorem waiting_traffic : c.traffic.waiting = Frame.ids l.waiting := by
  obtain ⟨htold, hprogress⟩ := told_traffic hl
  rw [Traffic.waiting, htold, hprogress]
  rfl

end Line

theorem mem_of_isAt {c : Client} {log : List Milestone} {id : Nat} {r : LiveRequest}
    {w : Whereabouts} (h : c.IsAt log id r w) : id ∈ c.traffic.requestsAt w := by
  cases w with
  | queue => exact List.one_le_count_iff.mp (Nat.le_of_eq h.1.symm)
  | outbound =>
    obtain ⟨l, hl, hid⟩ := h
    rw [Traffic.requestsAt, waiting_traffic hl]
    exact hid
  | transport =>
    obtain ⟨g, l, -, hl, hid, -⟩ := h
    rw [Traffic.requestsAt, written_traffic hl]
    exact hid

theorem exists_line?_of_mem {c : Client} {id : Nat} (h : id ∈ c.traffic.written ++ c.traffic.waiting) :
    ∃ l, c.line? = some l := by
  rw [Traffic.written, Traffic.waiting, ← Frame.ids_append, List.take_append_drop, Traffic.told] at h
  change id ∈ Frame.ids ((c.wire.attached.bind c.wire.pushed).getD []) at h
  rw [line?_map_pushed] at h
  cases hl : c.line? with
  | none =>
    rw [hl] at h
    cases h
  | some l => exact ⟨l, rfl⟩

theorem exists_isAt {c : Client} {log : List Milestone} {id : Nat} {r : LiveRequest}
    (h : c.traffic.Placed log) (hclock : c.traffic.clock id = some r.deadline) :
    ∃ w, c.IsAt log id r w := by
  obtain ⟨hid, hnone⟩ | ⟨hid, -⟩ | ⟨hid, hsome, g, hg, hlog⟩ := h.place id r.deadline hclock
  · have hnodup : c.queuedIds.Nodup := (List.nodup_append.mp h.once).1
    exact ⟨.queue, hnodup.count.trans (if_pos hid), hnone⟩
  · obtain ⟨l, hl⟩ := exists_line?_of_mem (List.mem_append_right _ hid)
    exact ⟨.outbound, l, hl, waiting_traffic hl ▸ hid⟩
  · obtain ⟨l, hl⟩ := exists_line?_of_mem (List.mem_append_left _ hid)
    exact ⟨.transport, g, l, hg, hl, written_traffic hl ▸ hid, hlog, hsome⟩

theorem placed_new (settings : Settings) (policy : HolderPolicy) (processId : Nat) (hashing : Hashing) :
    (new settings policy processId hashing).traffic.Placed [] where
  line g hg := by cases hg
  fresh id hid := by cases hid
  once := .nil
  place id deadline hid := by cases hid

theorem placed_run (settings : Settings) (policy : HolderPolicy) (processId : Nat) (hashing : Hashing)
    (acts : List Act) :
    let c := new settings policy processId hashing
    (c.run acts).traffic.Placed (c.milestones acts) ∧ (c.run acts).traffic.Forsaken := by
  intro c
  refine c.run_induction (P := fun t log => t.Placed log ∧ t.Forsaken) ?_ ?_ acts
  · rintro t t' m log hstep ⟨hplaced, hforsaken⟩
    exact ⟨hplaced.step hstep, hforsaken.step hplaced hstep⟩
  · refine ⟨placed_new .., fun g fs hfs => ?_⟩
    cases hfs

/-- The frame of every live request is at exactly one place: once in the queue, and its time does
not run; or on the attached line, not written; or it was handed to the transport of that line, and
its time runs. So it is in the queue while there is no connection, and it is on no line but the
attached one. -/
theorem live_request_in_one_place (settings : Settings) (policy : HolderPolicy) (processId : Nat) (hashing : Hashing)
    (acts : List Act) (id : Nat) (r : LiveRequest)
    (hlive : ((new settings policy processId hashing).run acts).requests.get? id = some r) :
    let c := (new settings policy processId hashing).run acts
    let log := (new settings policy processId hashing).milestones acts
    (∃ w, c.IsAt log id r w ∧ ∀ w', c.IsAt log id r w' → w' = w) ∧
      (c.attached = none → c.queuedIds.count id = 1 ∧ r.deadline = none) ∧
      ∀ g l, Table.get? g c.lines = some l → id ∈ Frame.ids l.pushed → c.attached = some g := by
  intro c log
  obtain ⟨hplaced, hforsaken⟩ := placed_run settings policy processId hashing acts
  change c.traffic.Placed log at hplaced
  change c.traffic.Forsaken at hforsaken
  have hclock : c.traffic.clock id = some r.deadline := congrArg (Option.map LiveRequest.deadline) hlive
  refine ⟨?_, ?_, ?_⟩
  · obtain ⟨w, hw⟩ := exists_isAt hplaced hclock
    exact ⟨w, hw, fun w' hw' => hplaced.place_unique (mem_of_isAt hw') (mem_of_isAt hw)⟩
  · intro hattached
    have hline : c.line? = none := by rw [line?, hattached]; rfl
    obtain ⟨w, hw⟩ := exists_isAt hplaced hclock
    cases w with
    | queue => exact hw
    | outbound =>
      obtain ⟨l, hl, -⟩ := hw
      cases hline.symm.trans hl
    | transport =>
      obtain ⟨g, l, hg, -⟩ := hw
      cases hattached.symm.trans hg
  · intro g l hl hid
    have hpushed : c.traffic.pushed g = some l.pushed := congrArg (Option.map Line.pushed) hl
    refine Decidable.byContradiction fun hne => ?_
    cases (hforsaken g l.pushed hpushed hne id hid).1.symm.trans hclock

theorem live_request_in_one_place_of_handshake :
    let c₀ := new .standard .exclusive 1 .rising
    let acts := [Act.request "textDocument/hover" none (some "k"), .beginConnect 0, .write 5]
    ∃ queued written, (c₀.run acts).requests.get? 1 = some queued ∧
      (c₀.run acts).requests.get? 2 = some written ∧
      (∀ w, (c₀.run acts).IsAt (c₀.milestones acts) 1 queued w → w = .queue) ∧
      ∀ w, (c₀.run acts).IsAt (c₀.milestones acts) 2 written w → w = .transport := by
  intro c₀ acts
  have hqueued : (c₀.run acts).requests.get? 1 =
      some ⟨"textDocument/hover", some "k", 3000000000, none, .queued⟩ := by decide
  have hwritten : (c₀.run acts).requests.get? 2 =
      some ⟨"initialize", none, 6000000000, some 6000000005, .inFlight⟩ := by decide
  have hline : (c₀.run acts).line?.any (fun l => 2 ∈ Frame.ids l.written) = true := by
    decide
  obtain ⟨l, hl, hid⟩ := (Option.any_eq_true ..).mp hline
  refine ⟨_, _, hqueued, hwritten, fun w hw => ?_, fun w hw => ?_⟩
  · obtain ⟨⟨w', -, hunique⟩, -⟩ :=
      live_request_in_one_place .standard .exclusive 1 .rising acts 1 _ hqueued
    exact (hunique w hw).trans (hunique .queue ⟨by decide, rfl⟩).symm
  · obtain ⟨⟨w', -, hunique⟩, -⟩ :=
      live_request_in_one_place .standard .exclusive 1 .rising acts 2 _ hwritten
    exact (hunique w hw).trans (hunique .transport
      ⟨1, l, by decide, hl, of_decide_eq_true hid, by decide +kernel, rfl⟩).symm

end Client

end LanguageClient
