import LanguageClient.Proofs.Client.Deed
import LanguageClient.Proofs.Request.Passage

/-!
What an act does to the requests.

Every act makes a few calls of the request table, known beforehand: its `dealings`. So what becomes of a
request over a run is what these calls make of it, one after another.
-/

namespace LanguageClient

def RequestTable.Move.settle (id : Nat) : Outcome → Move
  | .ok value => .resolve id value
  | .error e => .reject id e

theorem RequestTable.move_settle (t : RequestTable) (id : Nat) (outcome : Outcome) :
    t.move (.settle id outcome) = t.settle id outcome := by
  cases outcome <;> rfl

theorem RequestTable.nextId_le_run (t : RequestTable) (moves : List Move) :
    t.nextId ≤ (t.run moves).nextId := by
  induction moves generalizing t with
  | nil => exact Nat.le_refl _
  | cons mv rest ih => exact Nat.le_trans (t.nextId_le_move mv) (ih (t.move mv))

namespace Client

open RequestTable (Move Fate)

def asking (c : Client) (method : String) (key : Option String) : List Move :=
  if c.refuses method then [] else [.create method (c.settings.timeoutFor method) key]

def lettingGo (c : Client) : List Move :=
  if c.line?.isSome then [.rejectExcept c.queuedIds] else []

def cancelling (c : Client) (key : String) : List Move :=
  match c.requests.findKey? key with
  | none => []
  | some (id, state) =>
    if state = .queued ∧ c.isQueued id then [.reject id .cancelled]
    else if state = .cancelRequested then []
    else [.requestCancel id]

def writingOut (c : Client) (now : Nat) (l : Line) (f : Frame) : List Move :=
  match f.requestId?.filter c.requests.contains with
  | none => []
  | some id => .dispatch id now ::
    (c.refusal? l).toList.map fun fault => .reject id (.transport fault.message)

def answering (raw : String) : List Move :=
  match Message.ofText? raw with
  | some (.response r) =>
    (r.id.bind RequestId.number?).toList.map fun id =>
      .settle id (r.outcome.mapError ClientError.ofResponse)
  | _ => []

/-- The calls of the request table that an act makes. -/
def dealings (c : Client) : Act → List Move
  | .startMapped method _ key => if c.isReady then c.asking method key else []
  | .beginConnect _ =>
    c.lettingGo ++ [.create "initialize" (c.settings.timeoutFor "initialize") none]
  | .finishConnect generation outcome =>
    if c.completes generation outcome then []
    else if c.generation = generation then c.lettingGo
    else []
  | .disconnect => c.lettingGo
  | .beginShutdown =>
    if c.phase = .initialized ∧ c.refuses "shutdown" = false then c.asking "shutdown" none
    else c.lettingGo
  | .request method _ key => c.asking method key
  | .cancel key => c.cancelling key
  | .forget id => [.dropHandle id]
  | .write now => match c.nextFrame? with
    | some (_, l, f) => c.writingOut now l f
    | none => []
  | .sweep now => [.sweep now]
  | .receive raw => answering raw
  | _ => []

inductive Dealing (c : Client) : Act → Move → Prop
  | make {a : Act} {notices : List Frame} {method : String} {timeout : Nat} {params : Option Json}
      {key : Option String}
      (hdeed : c.deed a = .speak notices [.request c.requests.nextId method params] [])
      (honly : c.dealings a = [.create method timeout key]) :
      Dealing c a (.create method timeout key)
  | greet {transport timeout : Nat} :
      Dealing c (.beginConnect transport) (.create "initialize" timeout none)
  | letGo {a : Act} (hline : c.line?.isSome)
      (hdeed : c.deed a = .letGo ∨ c.deed a = .attach c.initializeFrame) :
      Dealing c a (.rejectExcept c.queuedIds)
  | withdraw {key : String} {id : Nat} (hfind : c.requests.findKey? key = some (id, .queued))
      (hqueued : id ∈ c.queuedIds) : Dealing c (.cancel key) (.reject id .cancelled)
  | ask {key : String} {id : Nat} {state : RequestState}
      (hfind : c.requests.findKey? key = some (id, state))
      (hsent : ¬(state = .queued ∧ c.isQueued id = true)) (hnew : state ≠ .cancelRequested) :
      Dealing c (.cancel key) (.requestCancel id)
  | forget {id : Nat} : Dealing c (.forget id) (.dropHandle id)
  | write {now g id : Nat} {l : Line} {f : Frame} (hnext : c.nextFrame? = some (g, l, f))
      (hid : f.requestId? = some id) : Dealing c (.write now) (.dispatch id now)
  | refuse {now g id : Nat} {l : Line} {f : Frame} {fault : SendFault}
      (hnext : c.nextFrame? = some (g, l, f)) (hid : f.requestId? = some id)
      (hrefusal : c.refusal? l = some fault) :
      Dealing c (.write now) (.reject id (.transport fault.message))
  | sweep {now : Nat} : Dealing c (.sweep now) (.sweep now)
  | answer {raw : String} {r : Response} {id : Nat} {value : Json}
      (hraw : Message.ofText? raw = some (.response r))
      (hid : r.id.bind RequestId.number? = some id) : Dealing c (.receive raw) (.resolve id value)
  | fail {raw : String} {r : Response} {id : Nat} {e : ResponseError}
      (hraw : Message.ofText? raw = some (.response r))
      (hid : r.id.bind RequestId.number? = some id) :
      Dealing c (.receive raw) (.reject id (.ofResponse e))

section Dealing

variable {c : Client} {mv : Move}

theorem dealing_of_lettingGo {a : Act} (h : mv ∈ c.lettingGo)
    (hdeed : c.deed a = .letGo ∨ c.deed a = .attach c.initializeFrame) : c.Dealing a mv := by
  rw [lettingGo] at h
  split at h
  next hline =>
    cases List.mem_singleton.mp h
    exact .letGo hline hdeed
  next => cases h

theorem dealing_of_asking {a : Act} {notices : List Frame} {method : String} {params : Option Json}
    {key : Option String} (h : mv ∈ c.asking method key)
    (hdeed : c.deed a = .speak notices (c.asks method params) [])
    (honly : c.dealings a = c.asking method key) : c.Dealing a mv := by
  rw [asking] at h honly
  rw [asks] at hdeed
  split at h
  next => cases h
  next hnot =>
    cases List.mem_singleton.mp h
    rw [if_neg hnot] at hdeed honly
    exact .make hdeed honly

theorem dealing_of_cancelling {key : String} (h : mv ∈ c.cancelling key) :
    c.Dealing (.cancel key) mv := by
  rw [cancelling] at h
  split at h
  next => cases h
  next id state hfind =>
    split at h
    next hqueued =>
      cases List.mem_singleton.mp h
      obtain ⟨rfl, hqueued⟩ := hqueued
      exact .withdraw hfind (List.contains_iff_mem.mp hqueued)
    next hsent =>
      split at h
      next => cases h
      next hnew =>
        cases List.mem_singleton.mp h
        exact .ask hfind hsent hnew

theorem dealing_of_writingOut {now g : Nat} {l : Line} {f : Frame}
    (hnext : c.nextFrame? = some (g, l, f)) (h : mv ∈ c.writingOut now l f) :
    c.Dealing (.write now) mv := by
  rw [writingOut] at h
  split at h
  next => cases h
  next id hid =>
    have hid : f.requestId? = some id := (Option.filter_eq_some_iff.mp hid).1
    cases h with
    | head => exact .write hnext hid
    | tail _ h =>
      obtain ⟨fault, hfault, rfl⟩ := List.mem_map.mp h
      exact .refuse hnext hid (Option.mem_toList.mp hfault)

theorem dealing_of_answering {raw : String} (h : mv ∈ answering raw) :
    c.Dealing (.receive raw) mv := by
  rw [answering] at h
  split at h
  next r hraw =>
    obtain ⟨id, hid, rfl⟩ := List.mem_map.mp h
    have hid := Option.mem_toList.mp hid
    cases r.outcome with
    | ok value => exact .answer hraw hid
    | error e => exact .fail hraw hid
  next => cases h

theorem dealing_of_mem {a : Act} (h : mv ∈ c.dealings a) : c.Dealing a mv := by
  cases a with
  | startMapped method params key =>
    by_cases hready : c.isReady = true
    · have honly : c.dealings (.startMapped method params key) = c.asking method key := if_pos hready
      have hdeed : c.deed (.startMapped method params key) =
          .speak c.changes (c.asks method params) [] := if_pos hready
      exact dealing_of_asking (honly ▸ h) hdeed honly
    · rw [dealings, if_neg hready] at h
      cases h
  | beginConnect transport =>
    obtain h | h := List.mem_append.mp h
    · exact dealing_of_lettingGo h (.inr rfl)
    · cases List.mem_singleton.mp h
      exact .greet
  | finishConnect generation outcome =>
    by_cases hcompletes : c.completes generation outcome = true
    · rw [dealings, if_pos hcompletes] at h
      cases h
    · by_cases hgeneration : c.generation = generation
      · rw [dealings, if_neg hcompletes, if_pos hgeneration] at h
        refine dealing_of_lettingGo h (.inl ?_)
        rw [deed, if_neg hcompletes, if_pos hgeneration]
      · rw [dealings, if_neg hcompletes, if_neg hgeneration] at h
        cases h
  | disconnect => exact dealing_of_lettingGo h (.inl rfl)
  | beginShutdown =>
    by_cases hasks : c.phase = .initialized ∧ c.refuses "shutdown" = false
    · have honly : c.dealings .beginShutdown = c.asking "shutdown" none := if_pos hasks
      exact dealing_of_asking (honly ▸ h) (if_pos hasks) honly
    · rw [dealings, if_neg hasks] at h
      exact dealing_of_lettingGo h (.inl (if_neg hasks))
  | request method params key => exact dealing_of_asking h rfl rfl
  | cancel key => exact dealing_of_cancelling h
  | forget id =>
    cases List.mem_singleton.mp h
    exact .forget
  | write now =>
    rw [dealings] at h
    split at h
    next hnext => exact dealing_of_writingOut hnext h
    next => cases h
  | sweep now =>
    cases List.mem_singleton.mp h
    exact .sweep
  | receive raw => exact dealing_of_answering h
  | _ => cases h

end Dealing

def Deals (c : Client) (moves : List Move) (c' : Client) : Prop :=
  c'.requests = c.requests.run moves

section Deals

variable {c c' : Client}

theorem deals_nothing (h : c'.requests = c.requests) : Deals c [] c' := h

theorem requests_teardown : c.teardown.requests = c.requests.run c.lettingGo := by
  rw [teardown, lettingGo]
  dsimp only
  split
  next hline =>
    change c.line? = none at hline
    rw [hline]
    rfl
  next l hline =>
    change c.line? = some l at hline
    rw [hline]
    rfl

theorem deals_teardown : Deals c c.lettingGo c.teardown := requests_teardown

theorem deals_detach (c : Client) (generation : Nat) :
    Deals c (if c.generation = generation then c.lettingGo else []) (c.detach generation) := by
  rw [detach]
  split
  · exact deals_teardown
  · exact deals_nothing rfl

theorem deals_beginConnect (transport : Nat) :
    Deals c (c.dealings (.beginConnect transport)) (c.act (.beginConnect transport)) := by
  obtain ⟨lines, hbegin⟩ := c.exists_beginConnect transport
  have hattach : (c.attach transport).requests = c.requests.run c.lettingGo := requests_teardown
  have hsettings : (c.attach transport).settings = c.settings := by
    rw [attach, teardown]
    dsimp only
    split <;> rfl
  rw [Deals, act, hbegin]
  dsimp only
  rw [hattach, hsettings, dealings, RequestTable.run_append]
  rfl

theorem deals_finishConnect (generation : Nat) (outcome : Outcome) :
    Deals c (c.dealings (.finishConnect generation outcome))
      (c.act (.finishConnect generation outcome)) := by
  rw [dealings, act]
  cases c.finishCourse generation outcome with
  | @fails _ gate _ hnot hfinish =>
    rw [hnot, hfinish]
    exact deals_detach { c with gate } generation
  | completes _ hcompletes hdone hfinish =>
    obtain ⟨documents, lines, rfl⟩ := exists_of_completeHandshake hdone
    rw [if_pos hcompletes, hfinish]
    exact deals_nothing rfl

theorem deals_of_startRequest {method : String} {params : Option Json} {key : Option String}
    {id : Nat} (h : c.startRequest method params key = .ok (id, c')) :
    Deals c (c.asking method key) c' := by
  rw [asking, refuses_of_startRequest h]
  obtain ⟨lines, queue, rfl⟩ := exists_of_startRequest h
  exact rfl

theorem asking_of_refused {method : String} {params : Option Json} {key : Option String}
    {e : ClientError} (h : c.startRequest method params key = .error e) : c.asking method key = [] :=
  if_pos (refuses_of_refused h)

theorem deals_request (method : String) (params : Option Json) (key : Option String) :
    Deals c (c.asking method key) (c.act (.request method params key)) := by
  rw [act]
  cases hstart : c.startRequest method params key with
  | error e =>
    rw [asking_of_refused hstart]
    exact deals_nothing rfl
  | ok r => exact deals_of_startRequest hstart

theorem deals_startMapped (method : String) (params : Option Json) (key : Option String) :
    Deals c (c.dealings (.startMapped method params key))
      (c.act (.startMapped method params key)) := by
  let synced := c.sync.2.startMapping.2
  obtain ⟨documents, lines, hsync⟩ := c.exists_sync
  have hrequests : synced.requests = c.requests := (congrArg requests hsync :)
  have hasking : synced.asking method key = c.asking method key := by
    rw [asking, asking, show synced.refuses method = c.refuses method from c.refuses_sync method,
      show synced.settings = c.settings from (congrArg settings hsync :)]
  rw [dealings, act]
  cases c.mappedCourse method params key with
  | unready hready hmapped =>
    rw [hmapped, hready]
    exact deals_nothing rfl
  | refused hready hstart hmapped =>
    rw [hmapped, if_pos hready, ← hasking, asking_of_refused hstart]
    exact deals_nothing hrequests
  | asks hready hstart hmapped =>
    rw [hmapped, if_pos hready]
    have h := deals_of_startRequest hstart
    rwa [Deals, hasking, hrequests] at h

theorem deals_beginShutdown : Deals c (c.dealings .beginShutdown) (c.act .beginShutdown) := by
  rw [dealings, act]
  cases c.shutdownCourse with
  | asks hphase hstart hshutdown =>
    rw [hshutdown, if_pos ⟨hphase, refuses_of_startRequest hstart⟩]
    exact deals_of_startRequest hstart
  | letsGo hnot hshutdown =>
    rw [hshutdown, if_neg hnot]
    exact deals_teardown

theorem deals_cancel (key : String) : Deals c (c.cancelling key) (c.cancel key).2 := by
  rw [cancelling]
  cases c.cancelCourse key with
  | unused hfind hcancel | asked hfind hcancel =>
    rw [hcancel, hfind]
    exact deals_nothing rfl
  | withdrawn hfind hqueued hcancel =>
    rw [hcancel, hfind]
    dsimp only
    rw [if_pos ⟨rfl, List.contains_iff_mem.mpr hqueued⟩]
    exact rfl
  | @new id _ hfind hsent hnew hcancel =>
    obtain ⟨lines, queue, h⟩ := exists_enqueue
      { c.marked key with requests := c.requests.requestCancel id } (.cancelRequest id)
    rw [hcancel, hfind, h]
    dsimp only
    rw [if_neg hsent, if_neg hnew]
    exact rfl

theorem deals_writeFrame (c : Client) (now : Nat) (l : Line) (f : Frame) :
    Deals c (c.writingOut now l f) (c.writeFrame now l f) := by
  have hfilter : ∀ id, f.requestId? = some id →
      f.requestId?.filter c.requests.contains = if c.requests.contains id then some id else none := by
    intro id hid
    rw [hid]
    rfl
  rw [writingOut]
  cases c.writeCourse now l f with
  | passed hid hdead hwrite =>
    rw [hwrite, hfilter _ hid, hdead]
    exact deals_nothing rfl
  | lost hid _ hwrite =>
    rw [hwrite, hid]
    exact deals_nothing rfl
  | sent hid hsend hwrite =>
    obtain ⟨channel, -, -, rfl⟩ := of_transmit hsend
    rw [hwrite, hid]
    exact deals_nothing rfl
  | refused hid hlive hrefusal hwrite =>
    rw [hwrite, hfilter _ hid, if_pos hlive, hrefusal]
    exact rfl
  | handedOver hid hlive hsend hwrite =>
    obtain ⟨channel, -, hnone, rfl⟩ := of_transmit hsend
    rw [hwrite, hfilter _ hid, if_pos hlive, show c.refusal? l = none from hnone]
    exact rfl

theorem deals_write (now : Nat) : Deals c (c.dealings (.write now)) (c.act (.write now)) := by
  rw [dealings, act, write?_eq]
  cases c.nextFrame? with
  | none => exact deals_nothing rfl
  | some next =>
    obtain ⟨g, l, f⟩ := next
    exact (c.take g l).deals_writeFrame now l f

theorem deals_receive (raw : String) : Deals c (answering raw) (c.receive raw).2.2 := by
  rw [answering]
  cases c.receiveCourse raw with
  | unread hraw hreceive | notified hraw hreceive | handled hraw _ hreceive =>
    rw [hreceive, hraw]
    exact deals_nothing rfl
  | stray hraw hid hreceive =>
    rw [hreceive, hraw]
    dsimp only
    rw [hid]
    exact deals_nothing rfl
  | settles hraw hid hreceive =>
    rw [hreceive, hraw]
    dsimp only
    rw [hid]
    exact (RequestTable.move_settle c.requests _ _).symm
  | @answers r hraw _ hreceive =>
    obtain ⟨gate, hanswer⟩ := c.exists_answerRequest r.method (r.params.getD .null)
    obtain ⟨lines, hpush⟩ := exists_push (c.answerRequest r.method (r.params.getD .null)).2
      (.response (.answering r.id (c.answerRequest r.method (r.params.getD .null)).1))
    rw [hreceive, hraw]
    exact deals_nothing ((congrArg requests hpush :).trans (congrArg requests hanswer :))

theorem deals_of_not_sweep {a : Act} (ha : ∀ now, a ≠ .sweep now) :
    Deals c (c.dealings a) (c.act a) := by
  by_cases hlocal : a.isLocal = true
  · obtain ⟨documents, lines, queue, handlers, hact⟩ := c.exists_of_isLocal hlocal
    have hnothing : c.dealings a = [] := by
      cases a with
      | startMapped | beginConnect | finishConnect | disconnect | beginShutdown | request | cancel
      | forget | write | sweep | receive => cases hlocal
      | _ => rfl
    rw [hnothing]
    exact deals_nothing (congrArg requests hact :)
  · cases a with
    | startMapped method params key => exact deals_startMapped method params key
    | beginConnect transport => exact deals_beginConnect transport
    | finishConnect generation outcome => exact deals_finishConnect generation outcome
    | disconnect => exact deals_teardown
    | beginShutdown => exact deals_beginShutdown
    | request method params key => exact deals_request method params key
    | cancel key => exact deals_cancel key
    | forget id => exact rfl
    | write now => exact deals_write now
    | sweep now => exact absurd rfl (ha now)
    | receive raw => exact deals_receive raw
    | addTransport | happen => exact deals_nothing rfl
    | _ => exact absurd rfl hlocal

theorem deals_act (a : Act) :
    ∃ called, (c.act a).requests = { c.requests.run (c.dealings a) with called } := by
  by_cases ha : ∃ now, a = .sweep now
  · obtain ⟨now, rfl⟩ := ha
    exact ⟨false, rfl⟩
  · refine ⟨(c.act a).requests.called, ?_⟩
    rw [← deals_of_not_sweep (not_exists.mp ha)]

end Deals

section Run

variable {c : Client} {id : Nat}

theorem sorted_act (h : c.requests.live.Sorted) (a : Act) : (c.act a).requests.live.Sorted := by
  obtain ⟨called, hact⟩ := deals_act (c := c) a
  rw [hact]
  exact RequestTable.sorted_run h

def fate (id : Nat) (f : Fate) (acts : List Act) (c : Client) : Fate :=
  (gather dealings acts c).foldl (Fate.move id) f

theorem fate_cons (f : Fate) (a : Act) (rest : List Act) (c : Client) :
    fate id f (a :: rest) c = fate id ((c.dealings a).foldl (Fate.move id) f) rest (c.act a) :=
  List.foldl_append

theorem lt_nextId_act (h : id < c.requests.nextId) (a : Act) : id < (c.act a).requests.nextId := by
  obtain ⟨called, hact⟩ := deals_act (c := c) a
  rw [hact]
  exact Nat.lt_of_lt_of_le h (c.requests.nextId_le_run _)

theorem get?_act (hsorted : c.requests.live.Sorted) {f : Fate} (hid : id < c.requests.nextId)
    (hf : c.requests.get? id = f.live?) (a : Act) :
    (c.act a).requests.get? id = ((c.dealings a).foldl (Fate.move id) f).live? := by
  obtain ⟨called, hact⟩ := deals_act (c := c) a
  rw [hact]
  exact RequestTable.get?_run hsorted hid hf

theorem get?_run (hsorted : c.requests.live.Sorted) {f : Fate} (hid : id < c.requests.nextId)
    (hf : c.requests.get? id = f.live?) (acts : List Act) :
    (c.run acts).requests.get? id = (fate id f acts c).live? := by
  induction acts generalizing c f with
  | nil => exact hf
  | cons a rest ih =>
    rw [fate_cons]
    exact ih (sorted_act hsorted a) (lt_nextId_act hid a) (get?_act hsorted hid hf a)

theorem outcome?_run (hsorted : c.requests.live.Sorted) {f : Fate} (hid : id < c.requests.nextId)
    (hf : c.requests.get? id = f.live?) (hpeek : c.requests.peek? id = some f.outcome?)
    {acts : List Act} (hacts : .forget id ∉ acts) :
    (c.run acts).outcome? id = (fate id f acts c).outcome? := by
  induction acts generalizing c f with
  | nil =>
    rw [run, List.foldl_nil, outcome?, hpeek]
    rfl
  | cons a rest ih =>
    rw [List.mem_cons, not_or] at hacts
    have hkept : Move.dropHandle id ∉ c.dealings a := fun hmem => by
      cases dealing_of_mem hmem
      exact hacts.1 rfl
    have hpeek' : (c.act a).requests.peek? id =
        some ((c.dealings a).foldl (Fate.move id) f).outcome? := by
      obtain ⟨called, hact⟩ := deals_act (c := c) a
      rw [hact]
      exact RequestTable.peek?_run hsorted hid hf hpeek hkept
    rw [fate_cons]
    exact ih (sorted_act hsorted a) (lt_nextId_act hid a) (get?_act hsorted hid hf a) hpeek' hacts.2

end Run

end Client

end LanguageClient
