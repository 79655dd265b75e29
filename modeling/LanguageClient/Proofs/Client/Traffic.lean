import LanguageClient.Proofs.Client.Ledger
import LanguageClient.Proofs.Client.Moves

namespace LanguageClient

inductive Milestone
  | handedOver (generation id : Nat)
  | answered (generation : Nat) (result : InitializeResult)
  deriving DecidableEq

structure Traffic extends Wire, Ledger

namespace Traffic

def tell (t : Traffic) (s : Documents) (fs : List Frame) : Traffic :=
  { t with toWire := { t.toWire with documents := s }.send fs }

theorem tell_self (t : Traffic) : t.tell t.documents [] = t := by
  rw [tell, Wire.send_nil]

def issue (t : Traffic) : Traffic :=
  { t with
    nextId := t.nextId + 1
    clock := fun id => if id = t.nextId then some none else t.clock id }

def start (t : Traffic) (f : Frame) : Traffic :=
  { t.issue with toWire := t.toWire.enqueue f }

def withdraw (t : Traffic) (id : Nat) : Traffic :=
  { t with
    queue := t.queue.filter fun f => f.requestId? != some id
    clock := fun id' => if id' = id then none else t.clock id' }

def advance (t : Traffic) (g : Nat) : Traffic :=
  { t with taken := fun g' => if g' = g then t.taken g + 1 else t.taken g' }

def letGo (t : Traffic) : Traffic :=
  { toWire := t.toWire.letGo
    nextId := t.nextId
    clock := fun id =>
      if (t.attached.bind t.pushed).isSome ∧ id ∉ Frame.ids t.queue then none else t.clock id
    taken := t.taken
    capabilities := none }

def disconnect (t : Traffic) : Traffic :=
  { t.letGo with phase := .disconnected }

def attach (t : Traffic) : Traffic :=
  { t.letGo with
    toWire := t.toWire.attach
    taken := fun g => if g = t.generation + 1 then 0 else t.taken g }

def connect (t : Traffic) (f : Frame) : Traffic :=
  { t.attach.issue with toWire := t.toWire.attach.send [f] }

def complete (t : Traffic) (s : Documents) (fs : List Frame) (result : InitializeResult) : Traffic :=
  { t with
    toWire := { t.toWire with documents := s }.complete (fs ++ t.queue)
    capabilities := some result.capabilities }

inductive Step : Traffic → Option Milestone → Traffic → Prop
  | tell (t : Traffic) (s : Documents) {fs : List Frame} (hfs : Frame.ids fs = []) :
      Step t none (t.tell s fs)
  | hold (t : Traffic) {f : Frame} (hf : f.requestId? = none) :
      Step t none { t with queue := t.queue ++ [f] }
  | settle (t : Traffic) {clock : Nat → Option (Option Nat)}
      (hclock : ∀ id, clock id = t.clock id ∨ clock id = none) :
      Step t none { t with clock }
  | withdraw (t : Traffic) (id : Nat) : Step t none (t.withdraw id)
  | start (t : Traffic) (s : Documents) {fs : List Frame} (hfs : Frame.ids fs = []) (f : Frame)
      (hf : f.requestId? = some t.nextId) :
      Step t none ((t.tell s fs).start f)
  /-- The writer takes a frame that starts no request's time: it is no request, or one that is settled
  now if it was not before. -/
  | pass (t : Traffic) {g : Nat} {fs rest : List Frame} {f : Frame}
      {clock : Nat → Option (Option Nat)} (hattached : t.attached = some g)
      (hfs : t.pushed g = some fs) (hnext : fs.drop (t.taken g) = f :: rest)
      (hclock : ∀ id, clock id = t.clock id ∨ clock id = none)
      (hgone : ∀ id, f.requestId? = some id → clock id = none) :
      Step t none { t.advance g with clock }
  | handOver (t : Traffic) {g id deadline : Nat} {fs rest : List Frame} {f : Frame}
      (hattached : t.attached = some g) (hfs : t.pushed g = some fs)
      (hnext : fs.drop (t.taken g) = f :: rest) (hid : f.requestId? = some id)
      (hlive : t.clock id ≠ none) :
      Step t (some (.handedOver g id)) { t.advance g with
        clock := fun id' => if id' = id then some (some deadline) else t.clock id' }
  | disconnect (t : Traffic) : Step t none t.disconnect
  | connect (t : Traffic) (f : Frame) (hf : f.requestId? = some t.nextId) :
      Step t none (t.connect f)
  | complete (t : Traffic) (s : Documents) {g : Nat} {fs : List Frame} {result : InitializeResult}
      (hgeneration : t.generation = g) (hattached : t.attached.isSome) (hfs : Frame.ids fs = []) :
      Step t (some (.answered g result)) (t.complete s fs result)
  | late (t : Traffic) {g : Nat} {result : InitializeResult} (hgeneration : t.generation ≠ g) :
      Step t (some (.answered g result)) { t with capabilities := some result.capabilities }
  | lost (t : Traffic) {g : Nat} {result : InitializeResult} (hgeneration : t.generation = g)
      (hattached : t.attached = none) :
      Step t (some (.answered g result)) t.disconnect

end Traffic

namespace Client

def traffic (c : Client) : Traffic :=
  { toWire := c.wire, toLedger := c.ledger }

def nextFrame? (c : Client) : Option (Nat × Line × Frame) := do
  let g ← c.attached
  let l ← Table.get? g c.lines
  return (g, l, ← l.waiting.head?)

def milestone? (c : Client) : Act → Option Milestone
  | .write _ => c.nextFrame?.bind fun (g, l, f) => (c.handsOver? l f).map (.handedOver g)
  | .finishConnect generation (.ok v) => (InitializeResult.read? v).map (.answered generation)
  | _ => none

def milestones (c : Client) : List Act → List Milestone
  | [] => []
  | a :: rest => (c.milestone? a).toList ++ (c.act a).milestones rest

variable (c : Client)

theorem traffic_eq {c : Client} {w : Wire} {b : Ledger} (hwire : c.wire = w) (hledger : c.ledger = b) :
    c.traffic = { toWire := w, toLedger := b } := by
  rw [traffic, hwire, hledger]

theorem line?_map_pushed : c.wire.attached.bind c.wire.pushed = c.line?.map Line.pushed := by
  rw [line?, Option.map_bind]
  rfl

theorem traffic_teardown : c.teardown.traffic = c.traffic.letGo := by
  rw [traffic_eq c.wire_teardown c.ledger_teardown, Traffic.letGo]
  change _ = { toWire := c.wire.letGo, nextId := _, clock := fun id => if (c.wire.attached.bind
    c.wire.pushed).isSome ∧ _ then _ else _, taken := _, capabilities := none : Traffic }
  rw [line?_map_pushed, Option.isSome_map]
  rfl

theorem traffic_disconnect : c.disconnect.traffic = c.traffic.disconnect := by
  rw [Traffic.disconnect, ← traffic_teardown]
  rfl

theorem traffic_attach (transport : Nat) : (c.attach transport).traffic = c.traffic.attach := by
  rw [traffic_eq (c.wire_attach transport) (c.ledger_attach transport), Traffic.attach,
    ← traffic_teardown]
  rfl

theorem nextId_attach (transport : Nat) :
    (c.attach transport).requests.nextId = c.requests.nextId :=
  congrArg (·.nextId) (c.traffic_attach transport)

theorem traffic_beginConnect (transport : Nat) :
    (c.beginConnect transport).2.2.traffic = c.traffic.connect (.request c.requests.nextId
      "initialize" (some (InitializeParams.ofSettings c.settings c.processId).toJson)) := by
  have hledger : (c.beginConnect transport).2.2.ledger = c.traffic.attach.issue.toLedger := by
    rw [← traffic_attach]
    exact (ledger_push _ _).trans ((c.attach transport).ledger_create ..)
  have hid : (c.beginConnect transport).2.1 = c.requests.nextId := c.nextId_attach transport
  rw [traffic_eq (c.wire_beginConnect transport) hledger, hid]
  rfl

theorem traffic_of_startRequest {c c' : Client} {method : String} {params : Option Json}
    {key : Option String} {id : Nat} (h : c.startRequest method params key = .ok (id, c')) :
    id = c.traffic.nextId ∧ c'.traffic = c.traffic.start (.request id method params) := by
  obtain ⟨hid, hledger⟩ := ledger_of_startRequest h
  exact ⟨hid, traffic_eq (wire_of_startRequest h) hledger⟩

open Traffic (Step)

section Step

variable {c} {c' : Client}

theorem step_of_tell (s : Documents) {fs : List Frame} (hfs : Frame.ids fs = [])
    (hwire : c'.wire = { c.wire with documents := s }.send fs) (hledger : c'.ledger = c.ledger) :
    Step c.traffic none c'.traffic := by
  rw [traffic_eq hwire hledger]
  exact .tell c.traffic s hfs

theorem step_of_documents {s : Documents} (hwire : c'.wire = { c.wire with documents := s })
    (hledger : c'.ledger = c.ledger) : Step c.traffic none c'.traffic :=
  step_of_tell s Frame.ids_nil (hwire.trans (Wire.send_nil _).symm) hledger

theorem step_self : Step c.traffic none c.traffic :=
  step_of_documents rfl rfl

theorem step_of_sendIfReady {s : Documents} {fs : List Frame} (hfs : Frame.ids fs = [])
    (hwire : c'.wire = { c.wire with documents := s }.sendIfReady fs)
    (hledger : c'.ledger = c.ledger) : Step c.traffic none c'.traffic := by
  rw [Wire.sendIfReady] at hwire
  split at hwire
  · exact step_of_tell s hfs hwire hledger
  · exact step_of_documents hwire hledger

theorem step_enqueue {f : Frame} (hf : f.requestId? = none)
    (hwire : c'.wire = c.wire.enqueue f) (hledger : c'.ledger = c.ledger) :
    Step c.traffic none c'.traffic := by
  rw [Wire.enqueue] at hwire
  split at hwire
  · exact step_of_tell c.documents (Frame.ids_eq_nil (List.forall_mem_singleton.mpr hf)) hwire
      hledger
  · rw [traffic_eq hwire hledger]
    exact .hold c.traffic hf

theorem step_openFile {uri languageId text : String} {outcome : OpenOutcome}
    (h : c.openFile uri languageId text = .ok (outcome, c')) : Step c.traffic none c'.traffic := by
  obtain ⟨s, -, hwire⟩ := wire_of_openFile h
  cases outcome with
  | opened d => exact step_of_sendIfReady rfl hwire (ledger_of_openFile h)
  | joined holders => exact step_of_documents hwire (ledger_of_openFile h)

theorem step_closeFile {uri : String} {outcome : CloseOutcome}
    (h : c.closeFile uri = .ok (outcome, c')) : Step c.traffic none c'.traffic := by
  obtain ⟨s, -, hwire⟩ := wire_of_closeFile h
  cases outcome with
  | closed => exact step_of_sendIfReady rfl hwire (ledger_of_closeFile h)
  | released remaining => exact step_of_documents hwire (ledger_of_closeFile h)

theorem step_startRequest {method : String} {params : Option Json} {key : Option String} {id : Nat}
    (h : c.startRequest method params key = .ok (id, c')) :
    Step c.traffic none c'.traffic := by
  obtain ⟨rfl, hstart⟩ := traffic_of_startRequest h
  rw [hstart]
  have hstep := Step.start c.traffic c.documents Frame.ids_nil
    (.request c.traffic.nextId method params) rfl
  rwa [show c.traffic.tell c.documents [] = c.traffic from c.traffic.tell_self] at hstep

end Step

theorem exists_tell_sync :
    ∃ fs, Frame.ids fs = [] ∧ c.sync.2.traffic = c.traffic.tell c.sync.2.documents fs := by
  have hids : Frame.ids (c.documents.sync.1.map (c.changeFrame c.syncKind)) = [] := by
    refine Frame.ids_eq_nil fun f hf => ?_
    obtain ⟨b, -, rfl⟩ := List.mem_map.mp hf
    rfl
  have hwire := c.wire_sync
  have hdocuments : c.sync.2.documents = c.sync.2.wire.documents := rfl
  rw [traffic_eq hwire c.ledger_sync, hdocuments, hwire]
  split
  · exact ⟨[], rfl, c.traffic.tell_self.symm⟩
  · rw [Wire.sendIfReady]
    split
    · exact ⟨_, hids, rfl⟩
    · exact ⟨[], rfl, (Traffic.tell_self _).symm⟩

variable {c}

theorem step_detach (generation : Nat) : Step c.traffic none (c.detach generation).traffic := by
  rw [detach]
  split
  · rw [traffic_disconnect]
    exact .disconnect c.traffic
  · exact step_self

theorem step_cancel (key : String) : Step c.traffic none (c.cancel key).2.traffic := by
  cases c.cancelCourse key with
  | unused _ hcancel | asked _ hcancel =>
    rw [hcancel]
    exact step_self
  | @withdrawn id _ _ hcancel =>
    have htraffic : (c.cancel key).2.traffic = c.traffic.withdraw id := by
      rw [hcancel]
      exact traffic_eq rfl (((c.marked key).unqueue id).ledger_reject id .cancelled)
    rw [htraffic]
    exact .withdraw c.traffic id
  | @new id _ _ _ _ hcancel =>
    rw [hcancel]
    refine step_enqueue rfl (wire_enqueue _ _) ((ledger_enqueue _ _).trans ?_)
    exact (c.marked key).ledger_requestCancel id

def take (c : Client) (g : Nat) (l : Line) : Client :=
  { c with lines := Table.put g { l with taken := l.taken + 1 } c.lines }

theorem write?_eq (now : Nat) :
    c.write? now = c.nextFrame?.map fun (g, l, f) => (c.take g l).writeFrame now l f := by
  rw [write?, nextFrame?]
  cases hattached : c.attached with
  | none => rfl
  | some g =>
    cases hl : Table.get? g c.lines with
    | none => simp [hl]
    | some l => cases hf : l.waiting.head? <;> simp [hl, hf, take, hattached]

theorem nextFrame?_eq_some {g : Nat} {l : Line} {f : Frame} (h : c.nextFrame? = some (g, l, f)) :
    c.attached = some g ∧ Table.get? g c.lines = some l ∧ ∃ rest, l.waiting = f :: rest := by
  rw [nextFrame?] at h
  obtain ⟨g', hattached, h⟩ := Option.bind_eq_some_iff.mp h
  obtain ⟨l', hl, h⟩ := Option.bind_eq_some_iff.mp h
  obtain ⟨f', hf, h⟩ := Option.bind_eq_some_iff.mp h
  cases h
  exact ⟨hattached, hl, List.head?_eq_some_iff.mp hf⟩

theorem ledger_take {g : Nat} {l : Line} (hl : Table.get? g c.lines = some l) :
    (c.take g l).ledger = (c.traffic.advance g).toLedger := by
  have htaken : c.ledger.taken g = l.taken := by simp [ledger, hl]
  simp only [ledger, Traffic.advance, Ledger.mk.injEq]
  refine ⟨rfl, rfl, ?_, rfl⟩
  funext g'
  by_cases heq : g' = g
  · subst heq
    rw [take, Table.get?_put_self, if_pos rfl]
    exact congrArg (· + 1) htaken.symm
  · rw [take, Table.get?_put_of_ne (Ne.symm heq), if_neg heq]
    rfl

theorem step_write (now : Nat) :
    Step c.traffic (c.milestone? (.write now)) (c.act (.write now)).traffic := by
  have hwire := c.wire_write now
  rw [write?_eq] at hwire
  rw [milestone?, act, write?_eq]
  cases hnext : c.nextFrame? with
  | none => exact step_self
  | some next =>
    obtain ⟨g, l, f⟩ := next
    obtain ⟨hattached, hl, rest, hrest⟩ := nextFrame?_eq_some hnext
    rw [hnext] at hwire
    change ((c.take g l).writeFrame now l f).wire = c.wire at hwire
    have hpushed : c.traffic.pushed g = some l.pushed := congrArg (Option.map Line.pushed) hl
    have hwaiting : l.pushed.drop (c.traffic.taken g) = f :: rest := by
      simpa [traffic, ledger, hl] using (show l.pushed.drop l.taken = _ from hrest)
    change Step _ ((c.handsOver? l f).map _) ((c.take g l).writeFrame now l f).traffic
    cases hhands : c.handsOver? l f with
    | some id =>
      obtain ⟨deadline, hledger⟩ := (c.take g l).ledger_writeFrame_of_handsOver hhands now
      rw [ledger_take hl] at hledger
      rw [traffic_eq hwire hledger]
      obtain ⟨hid, hlive, -⟩ := c.handsOver?_eq_some.mp hhands
      refine .handOver c.traffic hattached hpushed hwaiting hid fun hnone => ?_
      cases hlive.symm.trans (c.requests.clock_eq_none.mp hnone)
    | none =>
      obtain ⟨clock, hledger, hclock, hgone⟩ :=
        (c.take g l).ledger_writeFrame_of_not_handsOver hhands now
      rw [ledger_take hl] at hledger
      rw [traffic_eq hwire hledger]
      exact .pass c.traffic hattached hpushed hwaiting hclock hgone

theorem step_sync : Step c.traffic none c.sync.2.traffic := by
  obtain ⟨fs, hfs, hsync⟩ := c.exists_tell_sync
  rw [hsync]
  exact .tell c.traffic _ hfs

theorem step_sweep (now : Nat) : Step c.traffic none (c.sweep now).2.traffic := by
  have hledger : (c.sweep now).2.ledger =
      { c.ledger with clock := (c.requests.look now).2.clock } := by
    rw [ledger, sweep]
    dsimp only
    rw [c.requests.nextId_look]
    rfl
  rw [traffic_eq rfl hledger]
  exact .settle c.traffic (c.requests.clock_look now)

theorem step_respond (id : RequestId) (answer : Except ResponseError Json) :
    Step c.traffic none (c.respond id answer).traffic := by
  obtain ⟨response, hresponse⟩ := c.wire_respond id answer
  exact step_of_tell c.documents rfl hresponse (c.ledger_push _)

theorem step_receive (raw : String) : Step c.traffic none (c.receive raw).2.2.traffic := by
  cases c.receiveCourse raw with
  | unread _ hreceive | stray _ _ hreceive | notified _ hreceive | handled _ _ hreceive =>
    rw [hreceive]
    exact step_self
  | @settles _ id _ _ hreceive =>
    rw [hreceive, traffic_eq rfl (c.ledger_settle id _)]
    refine .settle c.traffic fun id' => ?_
    by_cases heq : id' = id
    · exact .inr (if_pos heq)
    · exact .inl (if_neg heq)
  | @answers r _ _ hreceive =>
    rw [hreceive]
    obtain ⟨response, hresponse⟩ := wire_respond (c.answerRequest r.method (r.params.getD .null)).2
      r.id (c.answerRequest r.method (r.params.getD .null)).1
    rw [c.wire_answerRequest] at hresponse
    exact step_of_tell c.documents rfl hresponse ((ledger_push _ _).trans (c.ledger_answerRequest ..))

theorem step_answered (generation : Nat) (result : InitializeResult) :
    let known : Client := { c with gate := c.gate.set result.capabilities }
    Step c.traffic (some (.answered generation result))
      (match known.completeHandshake generation with
        | .ok c' => (Except.ok result, c')
        | .error e => (Except.error e, known.detach generation)).2.traffic := by
  intro known
  by_cases hlost : known.generation ≠ generation ∨ known.attached.isNone = true
  · have hrefused : known.completeHandshake generation = .error .notConnected := if_pos hlost
    rw [hrefused]
    dsimp only
    rw [detach]
    by_cases hgeneration : known.generation = generation
    · rw [if_pos hgeneration, traffic_disconnect]
      exact .lost c.traffic hgeneration
        (Option.isNone_iff_eq_none.mp (hlost.resolve_left (not_not_intro hgeneration)))
    · rw [if_neg hgeneration]
      exact .late c.traffic hgeneration
  · obtain ⟨c', hdone⟩ : ∃ c', known.completeHandshake generation = .ok c' := ⟨_, if_neg hlost⟩
    rw [hdone]
    dsimp only
    rw [traffic_eq (wire_completeHandshake hdone) (ledger_completeHandshake hdone)]
    rw [not_or, Decidable.not_not, Bool.not_eq_true, Option.isNone_eq_false_iff] at hlost
    have hids : Frame.ids (.initialized :: known.documents.sync.2.openFrames) = [] := by
      refine Frame.ids_eq_nil (List.forall_mem_cons.mpr ⟨rfl, fun f hf => ?_⟩)
      obtain ⟨e, -, rfl⟩ := List.mem_map.mp hf
      rfl
    exact .complete c.traffic known.documents.sync.2 hlost.1 hlost.2 hids

theorem step_finishConnect (generation : Nat) (outcome : Outcome) :
    Step c.traffic (c.milestone? (.finishConnect generation outcome))
      (c.finishConnect generation outcome).2.traffic := by
  cases outcome with
  | error e => exact step_detach generation
  | ok v =>
    rw [milestone?]
    cases hread : InitializeResult.read? v with
    | none =>
      rw [finishConnect, hread]
      exact step_detach generation
    | some result =>
      rw [finishConnect, hread]
      exact step_answered generation result

theorem step_startMapped (method : String) (params : Option Json) (key : Option String) :
    Step c.traffic none (c.act (.startMapped method params key)).traffic := by
  obtain ⟨fs, hfs, hsync⟩ := c.exists_tell_sync
  have hwith : ∀ s, { c.sync.2.traffic with documents := s } = c.traffic.tell s fs := by
    intro s
    rw [hsync]
    rfl
  rw [act]
  cases c.mappedCourse method params key with
  | unready _ hmapped =>
    rw [hmapped]
    exact step_self
  | refused _ _ hmapped =>
    rw [hmapped]
    change Step c.traffic none { c.sync.2.traffic with documents := _ }
    rw [hwith]
    exact .tell c.traffic _ hfs
  | asks _ hstart hmapped =>
    rw [hmapped]
    obtain ⟨hid, hstarted⟩ := traffic_of_startRequest hstart
    have hmapping : c.sync.2.startMapping.2.traffic = c.traffic.tell _ fs := hwith _
    rw [hmapping] at hid hstarted
    rw [hstarted]
    exact .start c.traffic _ hfs _ (congrArg some hid)

theorem step_updateFile (uri : String) (edits : List Edit) :
    Step c.traffic none (c.act (.updateFile uri edits)).traffic := by
  rw [act]
  cases hupdate : c.updateFile uri edits with
  | error e => exact step_self
  | ok c' =>
    obtain ⟨s, -, hwire⟩ := wire_of_updateFile hupdate
    exact step_of_documents hwire (ledger_of_updateFile hupdate)

theorem step_replaceText (uri text : String) :
    Step c.traffic none (c.act (.replaceText uri text)).traffic := by
  rw [act_replaceText]
  cases c.documents.get? uri with
  | none => exact step_self
  | some d => exact step_updateFile uri _

theorem step_beginShutdown : Step c.traffic none (c.act .beginShutdown).traffic := by
  rw [act]
  cases c.shutdownCourse with
  | asks _ hstart hshutdown =>
    rw [hshutdown]
    exact step_startRequest hstart
  | letsGo _ hshutdown =>
    rw [hshutdown]
    exact c.traffic_disconnect ▸ .disconnect c.traffic

theorem step_act (a : Act) : Step c.traffic (c.milestone? a) (c.act a).traffic := by
  cases a with
  | openFile uri languageId text =>
    rw [act]
    cases hopen : c.openFile uri languageId text with
    | error e => exact step_self
    | ok r => exact step_openFile hopen
  | openBehind uri languageId text =>
    rw [act]
    cases hopen : c.documents.openFile uri languageId text with
    | error e => exact step_self
    | ok r => exact step_of_documents rfl rfl
  | closeFile uri =>
    rw [act]
    cases hclose : c.closeFile uri with
    | error e => exact step_self
    | ok r => exact step_closeFile hclose
  | updateFile uri edits => exact step_updateFile uri edits
  | replaceText uri text => exact step_replaceText uri text
  | sync => exact step_sync
  | startMapping => exact step_of_documents rfl rfl
  | release m => exact step_of_documents rfl rfl
  | startMapped method params key => exact step_startMapped method params key
  | finishMapped call m outcome =>
    rw [act, finishMapped]
    cases call.shape.ofOutcome outcome with
    | ok v => exact step_self
    | error e => exact step_of_documents rfl rfl
  | beginConnect transport =>
    rw [act, traffic_beginConnect]
    exact .connect c.traffic _ rfl
  | finishConnect generation outcome => exact step_finishConnect generation outcome
  | disconnect => exact c.traffic_disconnect ▸ .disconnect c.traffic
  | beginShutdown => exact step_beginShutdown
  | afterShutdown outcome =>
    rw [act, afterShutdown]
    split
    · exact step_enqueue rfl (c.wire_notify ..) (c.ledger_enqueue _)
    · exact step_self
  | request method params key =>
    rw [act]
    cases hstart : c.startRequest method params key with
    | error e => exact step_self
    | ok r => exact step_startRequest hstart
  | notify method params => exact step_enqueue rfl (c.wire_notify ..) (c.ledger_enqueue _)
  | cancel key => exact step_cancel key
  | forget id => exact step_self
  | write now => exact step_write now
  | sweep now => exact step_sweep now
  | receive raw => exact step_receive raw
  | respond id answer => exact step_respond id answer
  | onNotification method handler =>
    rw [act, onNotification]
    split <;> exact step_self
  | removeNotificationHandler method => exact step_self
  | onRequest method handler =>
    rw [act, onRequest]
    split <;> exact step_self
  | onUnhandled name => exact step_self
  | addTransport transport => exact step_self
  | happen transport event => exact step_self

theorem run_induction_from {P : Traffic → List Milestone → Prop}
    (hstep : ∀ {t t' m log}, Step t m t' → P t log → P t' (log ++ m.toList)) {log : List Milestone}
    (h : P c.traffic log) (acts : List Act) :
    P (c.run acts).traffic (log ++ c.milestones acts) := by
  induction acts generalizing c log with
  | nil =>
    rw [milestones, List.append_nil]
    exact h
  | cons a rest ih =>
    have hact := ih (hstep (step_act a) h)
    rwa [List.append_assoc] at hact

theorem run_induction {P : Traffic → List Milestone → Prop}
    (hstep : ∀ {t t' m log}, Step t m t' → P t log → P t' (log ++ m.toList))
    (h : P c.traffic []) (acts : List Act) : P (c.run acts).traffic (c.milestones acts) :=
  run_induction_from hstep h acts

end Client

end LanguageClient
