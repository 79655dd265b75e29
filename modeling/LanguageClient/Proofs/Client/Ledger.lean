import LanguageClient.Proofs.Client.Untouched
import LanguageClient.Proofs.Client.Wire
import LanguageClient.Proofs.Request.Clock

/-!
What a client keeps for itself.

A `Ledger` is what a `Wire` leaves out of a client, as far as it decides what goes on: the requests and
their deadlines, how far the writer has come on each line, and what the server can do. What is handed to
a line, or done to a document, is not its business.
-/

namespace LanguageClient

structure Ledger where
  nextId : Nat
  clock : Nat → Option (Option Nat)
  taken : Nat → Nat
  capabilities : Option ServerCapabilities

namespace Frame

def ids (fs : List Frame) : List Nat :=
  fs.filterMap requestId?

@[simp] theorem ids_nil : ids [] = [] := rfl

@[simp] theorem ids_append (fs gs : List Frame) : ids (fs ++ gs) = ids fs ++ ids gs :=
  List.filterMap_append

theorem ids_cons (f : Frame) (fs : List Frame) : ids (f :: fs) = f.requestId?.toList ++ ids fs := by
  rw [ids, List.filterMap_cons]
  cases f.requestId? <;> rfl

theorem ids_eq_nil {fs : List Frame} (h : ∀ f ∈ fs, f.requestId? = none) : ids fs = [] :=
  List.filterMap_eq_nil_iff.mpr h

end Frame

namespace Client

def ledger (c : Client) : Ledger where
  nextId := c.requests.nextId
  clock := c.requests.clock
  taken g := (Table.get? g c.lines).elim 0 Line.taken
  capabilities := c.gate.capabilities

variable (c : Client)

theorem ledger_push (f : Frame) : (c.push f).ledger = c.ledger := by
  cases hattached : c.attached with
  | none => simp only [push, hattached]
  | some g =>
    simp only [push, ledger, hattached, Ledger.mk.injEq, true_and, and_true]
    funext g'
    by_cases heq : g = g'
    · subst heq
      rw [Table.get?_adjust_self]
      cases Table.get? g c.lines <;> rfl
    · rw [Table.get?_adjust_of_ne heq]

theorem ledger_pushAll (fs : List Frame) : (c.pushAll fs).ledger = c.ledger := by
  induction fs generalizing c with
  | nil => rfl
  | cons f rest ih => exact (ih _).trans (c.ledger_push f)

theorem ledger_pushIfReady (f : Frame) : (c.pushIfReady f).ledger = c.ledger := by
  rw [pushIfReady]
  split
  · exact c.ledger_push f
  · rfl

theorem ledger_enqueue (f : Frame) : (c.enqueue f).ledger = c.ledger := by
  rw [enqueue]
  split
  · exact c.ledger_push f
  · rfl

section Documents

variable {c} {c' : Client}

theorem ledger_of_openFile {uri languageId text : String} {outcome : OpenOutcome}
    (h : c.openFile uri languageId text = .ok (outcome, c')) : c'.ledger = c.ledger := by
  obtain ⟨⟨outcome', s⟩, -, heq⟩ := exists_of_bind_eq_ok h
  cases heq
  cases outcome with
  | opened d => exact ledger_pushIfReady _ _
  | joined holders => rfl

theorem ledger_of_closeFile {uri : String} {outcome : CloseOutcome}
    (h : c.closeFile uri = .ok (outcome, c')) : c'.ledger = c.ledger := by
  obtain ⟨⟨outcome', s⟩, -, heq⟩ := exists_of_bind_eq_ok h
  cases heq
  cases outcome with
  | closed => exact ledger_pushIfReady _ _
  | released remaining => rfl

theorem ledger_of_updateFile {uri : String} {edits : List Edit}
    (h : c.updateFile uri edits = .ok c') : c'.ledger = c.ledger := by
  obtain ⟨s, -, heq⟩ := exists_of_bind_eq_ok h
  cases heq
  rfl

end Documents

theorem ledger_sync : c.sync.2.ledger = c.ledger := by
  unfold sync
  split
  · dsimp only
    split
    · rfl
    · exact ledger_pushAll _ _
  · rfl

theorem ledger_requestCancel (id : Nat) :
    { c with requests := c.requests.requestCancel id }.ledger = c.ledger := by
  rw [ledger, ledger, c.requests.clock_requestCancel]
  rfl

theorem ledger_settle (id : Nat) (outcome : Outcome) :
    ({ c with requests := c.requests.settle id outcome } : Client).ledger =
      { c.ledger with clock := fun id' => if id' = id then none else c.ledger.clock id' } := by
  rw [ledger, c.requests.clock_settle, c.requests.nextId_settle]
  rfl

theorem ledger_reject (id : Nat) (e : ClientError) :
    (c.reject id e).ledger =
      { c.ledger with clock := fun id' => if id' = id then none else c.ledger.clock id' } :=
  c.ledger_settle id (.error e)

/-- A teardown ends the requests that are not queued, if there is a line that they were handed to. -/
theorem ledger_teardown :
    c.teardown.ledger = { c.ledger with
      clock := fun id => if c.line?.isSome ∧ id ∉ c.queuedIds then none else c.ledger.clock id
      capabilities := none } := by
  rw [teardown]
  dsimp only
  split
  next hline =>
    change c.line? = none at hline
    simp [ledger, hline, Gate.clear, Gate.unknown]
  next l hline =>
    change c.line? = some l at hline
    have hclock : (c.requests.rejectExcept c.queuedIds).2.clock = fun id =>
        if c.line?.isSome ∧ id ∉ c.queuedIds then none else c.requests.clock id := by
      rw [c.requests.clock_rejectExcept, hline]
      funext id
      by_cases h : id ∈ c.queuedIds <;> simp [h]
    simp only [ledger, Ledger.mk.injEq]
    exact ⟨c.requests.nextId_rejectExcept _, hclock, rfl, rfl⟩

theorem ledger_attach (transport : Nat) :
    (c.attach transport).ledger = { c.teardown.ledger with
      taken := fun g => if g = c.generation + 1 then 0 else c.ledger.taken g } := by
  have htaken : ∀ l, l.taken = 0 → (fun g => (Table.get? g (Table.put (c.generation + 1) l
      c.teardown.lines)).elim 0 Line.taken) =
        fun g => if g = c.generation + 1 then 0 else c.ledger.taken g := by
    intro l hl
    funext g
    by_cases h : g = c.generation + 1
    · subst h
      simp [hl]
    · rw [Table.get?_put_of_ne (Ne.symm h), if_neg h]
      exact congrFun (congrArg Ledger.taken c.ledger_teardown) g
  rw [attach, ledger]
  dsimp only
  rw [c.generation_teardown, htaken _ rfl]
  rfl

theorem ledger_create (method : String) (timeout : Nat) (key : Option String) :
    { c with requests := (c.requests.create method timeout key).2 }.ledger =
      { c.ledger with
        nextId := c.ledger.nextId + 1
        clock := fun id => if id = c.ledger.nextId then some none else c.ledger.clock id } := by
  rw [ledger, c.requests.clock_create]
  rfl

theorem ledger_of_startRequest {c c' : Client} {method : String} {params : Option Json}
    {key : Option String} {id : Nat} (h : c.startRequest method params key = .ok (id, c')) :
    id = c.ledger.nextId ∧ c'.ledger = { c.ledger with
      nextId := c.ledger.nextId + 1
      clock := fun id => if id = c.ledger.nextId then some none else c.ledger.clock id } := by
  rw [startRequest] at h
  split at h
  · cases h
  · cases h
    exact ⟨rfl, (ledger_enqueue _ _).trans (c.ledger_create ..)⟩

def takes (l : Line) : Bool :=
  (Table.get? l.transport c.transports).any (·.sendFault?.isNone)

/-- The request that goes to the transport when a frame is written: one that is live, if the transport
takes it. -/
def handsOver? (l : Line) (f : Frame) : Option Nat :=
  f.requestId?.filter fun id => c.requests.contains id && c.takes l

theorem takes_eq (l : Line) : c.takes l = (c.refusal? l).isNone := by
  rw [takes, refusal?]
  cases Table.get? l.transport c.transports <;> rfl

theorem takes_of_refusal {l : Line} {fault : SendFault} (h : c.refusal? l = some fault) :
    c.takes l = false := by
  rw [takes_eq, h]
  rfl

theorem takes_of_transmit {c c' : Client} {l : Line} {text : String}
    (h : c.transmit l text = .ok c') : c.takes l = true := by
  obtain ⟨channel, -, hnone, -⟩ := of_transmit h
  rw [takes_eq, hnone]
  rfl

theorem handsOver?_eq_some {l : Line} {f : Frame} {id : Nat} :
    c.handsOver? l f = some id ↔
      f.requestId? = some id ∧ c.requests.contains id = true ∧ c.takes l = true := by
  rw [handsOver?, Option.filter_eq_some_iff, Bool.and_eq_true]

theorem ledger_writeFrame_of_handsOver {l : Line} {f : Frame} {id : Nat}
    (h : c.handsOver? l f = some id) (now : Nat) :
    ∃ deadline, (c.writeFrame now l f).ledger = { c.ledger with
      clock := fun id' => if id' = id then some (some deadline) else c.ledger.clock id' } := by
  obtain ⟨hid, hlive, htakes⟩ := c.handsOver?_eq_some.mp h
  obtain ⟨deadline, hclock⟩ := c.requests.exists_clock_dispatch hlive now
  refine ⟨deadline, ?_⟩
  cases c.writeCourse now l f with
  | passed hid' hdead =>
    cases hid.symm.trans hid'
    cases hlive.symm.trans hdead
  | lost hid' | sent hid' => cases hid.symm.trans hid'
  | refused _ _ hrefusal => cases htakes.symm.trans (c.takes_of_refusal hrefusal)
  | handedOver hid' _ hsend hwrite =>
    cases hid.symm.trans hid'
    obtain ⟨channel, -, -, rfl⟩ := of_transmit hsend
    rw [hwrite, ledger, hclock]
    rfl

theorem ledger_reject_dispatch {id : Nat} (hlive : c.requests.contains id = true) (now : Nat)
    (e : ClientError) :
    (({ c with requests := c.requests.dispatch id now } : Client).reject id e).ledger =
      { c.ledger with clock := fun id' => if id' = id then none else c.ledger.clock id' } := by
  obtain ⟨deadline, hclock⟩ := c.requests.exists_clock_dispatch hlive now
  let dated : Client := { c with requests := c.requests.dispatch id now }
  refine (dated.ledger_reject id e).trans ?_
  rw [ledger, hclock]
  simp only [ledger, Ledger.mk.injEq]
  refine ⟨rfl, ?_, rfl, rfl⟩
  funext id'
  by_cases heq : id' = id <;> simp [heq]

theorem ledger_writeFrame_of_not_handsOver {l : Line} {f : Frame} (h : c.handsOver? l f = none)
    (now : Nat) :
    ∃ clock, (c.writeFrame now l f).ledger = { c.ledger with clock } ∧
      (∀ id, clock id = c.ledger.clock id ∨ clock id = none) ∧
      ∀ id, f.requestId? = some id → clock id = none := by
  cases c.writeCourse now l f with
  | passed hid hdead hwrite =>
    refine ⟨c.ledger.clock, congrArg ledger hwrite, fun _ => .inl rfl, fun id' heq => ?_⟩
    cases hid.symm.trans heq
    exact c.requests.clock_eq_none.mpr hdead
  | lost hid _ hwrite =>
    refine ⟨c.ledger.clock, congrArg ledger hwrite, fun _ => .inl rfl, fun id' heq => ?_⟩
    cases hid.symm.trans heq
  | sent hid hsend hwrite =>
    obtain ⟨channel, -, -, rfl⟩ := of_transmit hsend
    refine ⟨c.ledger.clock, (congrArg ledger hwrite :), fun _ => .inl rfl, fun id' heq => ?_⟩
    cases hid.symm.trans heq
  | @refused id _ hid hlive _ hwrite =>
    refine ⟨_, (congrArg ledger hwrite).trans (c.ledger_reject_dispatch hlive now _), ?_, ?_⟩
    · intro id'
      by_cases heq : id' = id <;> simp [heq]
    · intro id' heq
      cases hid.symm.trans heq
      exact if_pos rfl
  | handedOver hid hlive hsend =>
    have htakes : c.takes l = true := (takes_of_transmit hsend :)
    cases h.symm.trans (c.handsOver?_eq_some.mpr ⟨hid, hlive, htakes⟩)

theorem ledger_answerRequest (method : String) (params : Json) :
    (c.answerRequest method params).2.ledger = c.ledger := by
  unfold answerRequest
  split
  · split <;> rfl
  · split <;> rfl
  · rfl
  · rfl
  · rfl

theorem ledger_completeHandshake {c c' : Client} {generation : Nat}
    (h : c.completeHandshake generation = .ok c') : c'.ledger = c.ledger := by
  unfold completeHandshake at h
  split at h
  · cases h
  · cases h
    exact ((ledger_pushAll _ _).trans (ledger_pushAll _ _)).trans (c.ledger_push _)

end Client

end LanguageClient
