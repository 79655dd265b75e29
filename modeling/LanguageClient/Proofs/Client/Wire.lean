import LanguageClient.Proofs.Client.Courses

namespace LanguageClient

structure Wire where
  documents : Documents
  phase : Phase
  attached : Option Nat
  ready : Bool
  generation : Nat
  queue : List Frame
  pushed : Nat → Option (List Frame)

namespace Wire

def isReady (w : Wire) : Bool :=
  w.attached.isSome && w.ready

def send (w : Wire) (fs : List Frame) : Wire :=
  { w with pushed := fun g =>
      if w.attached = some g then (w.pushed g).map (· ++ fs) else w.pushed g }

def enqueue (w : Wire) (f : Frame) : Wire :=
  if w.isReady then w.send [f] else { w with queue := w.queue ++ [f] }

def sendIfReady (w : Wire) (fs : List Frame) : Wire :=
  if w.isReady then w.send fs else w

def letGo (w : Wire) : Wire :=
  { w with attached := none, ready := false, generation := w.generation + 1 }

def disconnect (w : Wire) : Wire :=
  { w.letGo with phase := .disconnected }

def attach (w : Wire) : Wire :=
  { w.letGo with
    attached := some (w.generation + 1)
    phase := .connecting
    pushed := fun g => if w.generation + 1 = g then some [] else w.pushed g }

def complete (w : Wire) (fs : List Frame) : Wire :=
  { w.send fs with queue := [], ready := true, phase := .initialized }

@[simp] theorem send_nil (w : Wire) : w.send [] = w := by
  simp [send]

theorem send_send (w : Wire) (fs gs : List Frame) : (w.send fs).send gs = w.send (fs ++ gs) := by
  simp only [send]
  congr 1
  funext g
  split <;> simp [Function.comp_def]

@[simp] theorem isReady_documents (w : Wire) (s : Documents) :
    { w with documents := s }.isReady = w.isReady := rfl

@[simp] theorem isReady_sendIfReady (w : Wire) (fs : List Frame) :
    (w.sendIfReady fs).isReady = w.isReady := by
  unfold sendIfReady
  split <;> rfl

@[simp] theorem documents_enqueue (w : Wire) (f : Frame) :
    (w.enqueue f).documents = w.documents := by
  unfold enqueue
  split <;> rfl

@[simp] theorem attached_enqueue (w : Wire) (f : Frame) : (w.enqueue f).attached = w.attached := by
  unfold enqueue
  split <;> rfl

theorem pushed_enqueue_of_ne {w : Wire} {g : Nat} (h : w.attached ≠ some g) (f : Frame) :
    (w.enqueue f).pushed g = w.pushed g := by
  unfold enqueue
  split
  · exact if_neg h
  · rfl

@[simp] theorem documents_sendIfReady (w : Wire) (fs : List Frame) :
    (w.sendIfReady fs).documents = w.documents := by
  unfold sendIfReady
  split <;> rfl

end Wire

def Documents.openFrames (s : Documents) : List Frame :=
  s.workspace.files.map fun e => Frame.didOpen e.1 e.2

namespace Client

def wire (c : Client) : Wire where
  documents := c.documents
  phase := c.phase
  attached := c.attached
  ready := c.ready
  generation := c.generation
  queue := c.queue
  pushed g := (Table.get? g c.lines).map Line.pushed

variable (c : Client)

@[simp] theorem isReady_wire : c.wire.isReady = c.isReady := rfl

theorem wire_push (f : Frame) : (c.push f).wire = c.wire.send [f] := by
  cases hattached : c.attached with
  | none => simp [push, wire, Wire.send, hattached]
  | some g =>
    simp only [push, wire, Wire.send, hattached]
    congr 1
    funext g'
    by_cases heq : g = g'
    · subst heq
      simp [Table.get?_adjust_self, Option.map_map, Function.comp_def, Line.push]
    · simp [heq, Table.get?_adjust_of_ne heq]

theorem wire_pushAll (fs : List Frame) : (c.pushAll fs).wire = c.wire.send fs := by
  induction fs generalizing c with
  | nil => exact c.wire.send_nil.symm
  | cons f rest ih =>
    change ((c.push f).pushAll rest).wire = _
    rw [ih, wire_push, Wire.send_send]
    rfl

theorem wire_pushIfReady (f : Frame) : (c.pushIfReady f).wire = c.wire.sendIfReady [f] := by
  rw [pushIfReady, Wire.sendIfReady, isReady_wire]
  split
  · exact c.wire_push f
  · rfl

theorem wire_enqueue (f : Frame) : (c.enqueue f).wire = c.wire.enqueue f := by
  rw [enqueue, Wire.enqueue, isReady_wire]
  split
  · exact c.wire_push f
  · rfl

theorem wire_teardown : c.teardown.wire = c.wire.letGo := by
  unfold teardown
  dsimp only
  split <;> rfl

theorem wire_disconnect : c.disconnect.wire = c.wire.disconnect := by
  rw [Wire.disconnect, ← wire_teardown]
  rfl

theorem wire_detach (generation : Nat) :
    (c.detach generation).wire =
      if c.generation = generation then c.wire.disconnect else c.wire := by
  rw [detach]
  split
  · exact c.wire_disconnect
  · rfl

theorem generation_teardown : c.teardown.generation = c.generation + 1 :=
  congrArg Wire.generation c.wire_teardown

theorem wire_attach (transport : Nat) : (c.attach transport).wire = c.wire.attach := by
  have hteardown := c.wire_teardown
  have hlines : ∀ l, (fun g => (Table.get? g (Table.put (c.generation + 1) l c.teardown.lines)).map
      Line.pushed) = fun g => if c.generation + 1 = g then some l.pushed else c.wire.pushed g := by
    intro l
    funext g
    by_cases heq : c.generation + 1 = g
    · subst heq
      simp
    · rw [Table.get?_put_of_ne heq, if_neg heq]
      exact congrFun (congrArg Wire.pushed hteardown) g
  simp only [attach, wire, Wire.attach, c.generation_teardown, hlines]
  rw [show c.teardown.documents = c.documents from congrArg Wire.documents hteardown,
    show c.teardown.ready = false from congrArg Wire.ready hteardown,
    show c.teardown.queue = c.queue from congrArg Wire.queue hteardown]
  rfl

theorem wire_beginConnect (transport : Nat) :
    (c.beginConnect transport).2.2.wire =
      c.wire.attach.send [.request (c.beginConnect transport).2.1 "initialize"
        (some (InitializeParams.ofSettings c.settings c.processId).toJson)] := by
  rw [← c.wire_attach transport]
  exact wire_push _ _

theorem wire_of_startRequest {c c' : Client} {method : String} {params : Option Json}
    {key : Option String} {id : Nat} (h : c.startRequest method params key = .ok (id, c')) :
    c'.wire = c.wire.enqueue (.request id method params) := by
  unfold startRequest at h
  split at h
  · cases h
  · cases h
    exact wire_enqueue _ _

theorem wire_notify (method : String) (params : Option Json) :
    (c.notify method params).wire = c.wire.enqueue (.notification method params) :=
  c.wire_enqueue _

theorem wire_cancel (key : String) :
    (c.cancel key).2.wire = c.wire ∨
    (∃ p : Frame → Bool, (c.cancel key).2.wire = { c.wire with queue := c.queue.filter p }) ∨
    ∃ id, (c.cancel key).2.wire = c.wire.enqueue (.cancelRequest id) := by
  cases c.cancelCourse key with
  | unused _ hcancel | asked _ hcancel =>
    rw [hcancel]
    exact .inl rfl
  | withdrawn _ _ hcancel =>
    rw [hcancel]
    exact .inr (.inl ⟨_, rfl⟩)
  | new _ _ _ hcancel =>
    rw [hcancel]
    exact .inr (.inr ⟨_, wire_enqueue _ _⟩)

theorem wire_of_transmit {c c' : Client} {l : Line} {text : String}
    (h : c.transmit l text = .ok c') : c'.wire = c.wire := by
  obtain ⟨channel, -, -, rfl⟩ := of_transmit h
  rfl

theorem wire_writeFrame (now : Nat) (l : Line) (f : Frame) :
    (c.writeFrame now l f).wire = c.wire := by
  cases c.writeCourse now l f with
  | passed _ _ hwrite | lost _ _ hwrite => rw [hwrite]
  | sent _ hsend hwrite =>
    rw [hwrite]
    exact wire_of_transmit hsend
  | refused _ _ _ hwrite =>
    rw [hwrite]
    rfl
  | handedOver _ _ hsend hwrite =>
    rw [hwrite]
    exact (wire_of_transmit hsend :)

theorem wire_write (now : Nat) : ((c.write? now).getD c).wire = c.wire := by
  cases h : c.write? now with
  | none => rfl
  | some c' =>
    rw [write?] at h
    obtain ⟨g, -, h⟩ := Option.bind_eq_some_iff.mp h
    obtain ⟨l, hl, h⟩ := Option.bind_eq_some_iff.mp h
    obtain ⟨f, -, h⟩ := Option.bind_eq_some_iff.mp h
    cases h
    rw [Option.getD_some, wire_writeFrame]
    simp only [wire]
    congr 1
    funext g'
    by_cases heq : g = g'
    · subst heq
      simp [hl]
    · rw [Table.get?_put_of_ne heq]

theorem wire_answerRequest (method : String) (params : Json) :
    (c.answerRequest method params).2.wire = c.wire := by
  unfold answerRequest
  split
  · split <;> rfl
  · split <;> rfl
  · rfl
  · rfl
  · rfl

theorem wire_respond (id : RequestId) (answer : Except ResponseError Json) :
    ∃ r, (c.respond id answer).wire = c.wire.send [.response r] :=
  ⟨_, c.wire_push _⟩

theorem wire_receive (raw : String) :
    (c.receive raw).2.2.wire = c.wire ∨
      ∃ r, (c.receive raw).2.2.wire = c.wire.send [.response r] := by
  cases c.receiveCourse raw with
  | unread _ hreceive | stray _ _ hreceive | settles _ _ hreceive | notified _ hreceive
  | handled _ _ hreceive =>
    rw [hreceive]
    exact .inl rfl
  | answers _ _ hreceive =>
    rw [hreceive]
    obtain ⟨response, hresponse⟩ := wire_respond (c.answerRequest ..).2 _ (c.answerRequest ..).1
    rw [wire_answerRequest] at hresponse
    exact .inr ⟨response, hresponse⟩

theorem wire_syncDocuments :
    c.syncDocuments.2.wire = { c.wire with documents := c.documents.sync.2 } := rfl

theorem wire_completeHandshake {c c' : Client} {generation : Nat}
    (h : c.completeHandshake generation = .ok c') :
    c'.wire = ({ c.wire with documents := c.documents.sync.2 }.complete
      (.initialized :: (c.documents.sync.2.openFrames ++ c.queue))) := by
  unfold completeHandshake at h
  split at h
  · cases h
  · cases h
    let told := (c.push .initialized).syncDocuments.2
    have hpush := c.wire_push .initialized
    have hdocuments : (c.push .initialized).documents = c.documents :=
      congrArg Wire.documents hpush
    have hqueue : told.queue = c.queue := congrArg Wire.queue hpush
    have htold : told.wire = { c.wire with documents := c.documents.sync.2 }.send [.initialized] := by
      change { (c.push .initialized).wire with documents := (c.push .initialized).documents.sync.2 } = _
      rw [hdocuments, hpush]
      rfl
    have hopen : told.openFrames = c.documents.sync.2.openFrames := by
      change (c.push .initialized).documents.sync.2.openFrames = _
      rw [hdocuments]
    have hwire : ((told.pushAll told.openFrames).pushAll told.queue).wire =
        { c.wire with documents := c.documents.sync.2 }.send
          (.initialized :: (c.documents.sync.2.openFrames ++ c.queue)) := by
      rw [wire_pushAll, wire_pushAll, htold, Wire.send_send, Wire.send_send, hqueue, hopen]
      simp
    rw [Wire.complete, ← hwire]
    rfl

theorem wire_finishConnect (generation : Nat) (outcome : Outcome) :
    (c.finishConnect generation outcome).2.wire =
      if c.completes generation outcome then
        { c.wire with documents := c.documents.sync.2 }.complete
          (.initialized :: (c.documents.sync.2.openFrames ++ c.queue))
      else if c.generation = generation then c.wire.disconnect
      else c.wire := by
  cases c.finishCourse generation outcome with
  | fails _ hnot hfinish =>
    rw [hnot, hfinish]
    exact wire_detach _ generation
  | completes _ hcompletes hdone hfinish =>
    rw [if_pos hcompletes, hfinish]
    exact (wire_completeHandshake hdone :)

theorem wire_of_openFile {c c' : Client} {uri languageId text : String} {outcome : OpenOutcome}
    (h : c.openFile uri languageId text = .ok (outcome, c')) :
    ∃ s, c.documents.openFile uri languageId text = .ok (outcome, s) ∧
      c'.wire = match outcome with
        | .opened d => { c.wire with documents := s }.sendIfReady [.didOpen uri d]
        | .joined _ => { c.wire with documents := s } := by
  obtain ⟨⟨outcome', s⟩, hopen, heq⟩ := exists_of_bind_eq_ok h
  cases heq
  refine ⟨s, hopen, ?_⟩
  cases outcome with
  | opened d => exact wire_pushIfReady _ _
  | joined holders => rfl

theorem wire_of_closeFile {c c' : Client} {uri : String} {outcome : CloseOutcome}
    (h : c.closeFile uri = .ok (outcome, c')) :
    ∃ s, c.documents.closeFile uri = .ok (outcome, s) ∧
      c'.wire = match outcome with
        | .closed => { c.wire with documents := s }.sendIfReady [.didClose uri]
        | .released _ => { c.wire with documents := s } := by
  obtain ⟨⟨outcome', s⟩, hclose, heq⟩ := exists_of_bind_eq_ok h
  cases heq
  refine ⟨s, hclose, ?_⟩
  cases outcome with
  | closed => exact wire_pushIfReady _ _
  | released remaining => rfl

theorem wire_of_updateFile {c c' : Client} {uri : String} {edits : List Edit}
    (h : c.updateFile uri edits = .ok c') :
    ∃ s, c.documents.updateFile uri edits = .ok s ∧ c'.wire = { c.wire with documents := s } := by
  obtain ⟨s, hupdate, heq⟩ := exists_of_bind_eq_ok h
  cases heq
  exact ⟨s, hupdate, rfl⟩

theorem wire_sync :
    c.sync.2.wire =
      if c.isReady ∧ c.syncKind = .off then c.wire
      else { c.wire with documents := c.documents.sync.2 }.sendIfReady
        (c.documents.sync.1.map (c.changeFrame c.syncKind)) := by
  unfold sync
  by_cases hready : c.isReady = true
  · by_cases hoff : c.syncKind = .off
    · simp [hready, hoff]
    · have hnot : ¬(c.isReady = true ∧ c.syncKind = .off) := fun h => hoff h.2
      rw [if_neg hnot, if_pos hready, Wire.sendIfReady, Wire.isReady_documents, isReady_wire,
        if_pos hready]
      dsimp only
      rw [if_neg hoff, wire_pushAll, wire_syncDocuments]
      rfl
  · have hnot : ¬(c.isReady = true ∧ c.syncKind = .off) := fun h => hready h.1
    rw [if_neg hnot, if_neg hready, Wire.sendIfReady, Wire.isReady_documents, isReady_wire,
      if_neg hready]
    rfl

theorem isReady_sync : c.sync.2.isReady = c.isReady := by
  rw [← isReady_wire, wire_sync]
  split
  · rfl
  · rw [Wire.isReady_sendIfReady, Wire.isReady_documents, isReady_wire]

end Client

end LanguageClient
