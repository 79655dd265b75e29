import LanguageClient.Proofs.Client.Queue
import Mathlib.Data.List.Perm.Basic

namespace LanguageClient

def Frame.answers? : Frame → Option RequestId
  | .response r => r.id
  | _ => none

/-- A request of the server that a handler is at work on, and the line that it came on. -/
structure Inquiry where
  line : Option Nat
  question : Question

def Inquiry.source (q : Inquiry) : Option Nat × RequestId :=
  (q.line, q.question.id)

/-- What became of a request of the server: the line that it came on, and the one there was when it was
answered. -/
structure Reply where
  asked : Option Nat
  given : Option Nat
  id : RequestId
  deriving DecidableEq

def Reply.source (r : Reply) : Option Nat × RequestId :=
  (r.asked, r.id)

namespace Client

def Act.request? : Act → Option RequestId
  | .receive raw =>
    match Message.ofText? raw with
    | some (.request r) => some r.id
    | _ => none
  | _ => none

def Act.isResponse : Act → Bool
  | .respond _ _ => true
  | _ => false

def inquiry? (c : Client) : Act → Option Inquiry
  | .receive raw => (c.receive raw).2.1.map (⟨c.attached, ·⟩)
  | _ => none

def answered? (c : Client) : Act → Option RequestId
  | .receive raw =>
    match (c.receive raw).2.1 with
    | some _ => none
    | none => (Act.receive raw).request?
  | .respond id _ => some id
  | _ => none

section Answered

variable {c : Client} {a : Act}

theorem answers_receive (raw : String) :
    (c.replies raw).filterMap Frame.answers? = (c.answered? (.receive raw)).toList := by
  rw [replies, answered?, Act.request?]
  cases c.receiveCourse raw with
  | unread hraw hreceive | stray hraw _ hreceive | settles hraw _ hreceive
  | notified hraw hreceive =>
    rw [hreceive, hraw]
    rfl
  | handled hraw hhandler hreceive =>
    rw [hreceive, hraw]
    dsimp only
    rw [hhandler]
    rfl
  | @answers r hraw hhandler hreceive =>
    rw [hreceive, hraw]
    dsimp only
    rw [hhandler]
    cases (c.answerRequest r.method (r.params.getD .null)).1 <;> rfl

theorem answers_answers (a : Act) : (c.answers a).filterMap Frame.answers? = (c.answered? a).toList := by
  cases a with
  | receive raw => exact answers_receive raw
  | respond id answer => cases answer <;> rfl
  | _ =>
    simp only [answers, deed]
    repeat' split
    all_goals rfl

theorem answers_changes (c : Client) : c.changes.filterMap Frame.answers? = [] := by
  rw [changes]
  split
  · rfl
  · refine List.filterMap_eq_nil_iff.mpr fun f hf => ?_
    obtain ⟨b, -, rfl⟩ := List.mem_map.mp hf
    rfl

theorem answers_asks (c : Client) (method : String) (params : Option Json) :
    (c.asks method params).filterMap Frame.answers? = [] := by
  rw [asks]
  split <;> rfl

theorem answers_greeting (c : Client) : c.greeting.filterMap Frame.answers? = [] := by
  refine List.filterMap_eq_nil_iff.mpr fun f hf => ?_
  obtain rfl | hf := List.mem_cons.mp hf
  · rfl
  · obtain ⟨e, -, rfl⟩ := List.mem_map.mp hf
    rfl

theorem silent_of_deed {notices calls answers : List Frame}
    (h : c.deed a = .speak notices calls answers) :
    notices.filterMap Frame.answers? = [] ∧ calls.filterMap Frame.answers? = [] := by
  cases a with
  | sync =>
    cases h
    exact ⟨c.answers_changes, rfl⟩
  | startMapped method params key =>
    rw [deed] at h
    split at h <;> cases h
    · exact ⟨c.answers_changes, c.answers_asks ..⟩
    · exact ⟨rfl, rfl⟩
  | beginShutdown =>
    rw [deed] at h
    split at h <;> cases h
    exact ⟨rfl, c.answers_asks ..⟩
  | request method params key =>
    cases h
    exact ⟨rfl, c.answers_asks ..⟩
  | _ =>
    simp only [deed, Deed.quiet] at h
    repeat' split at h
    all_goals
      cases h
      try exact ⟨rfl, rfl⟩

theorem answers_held (a : Act) : (c.held a).filterMap Frame.answers? = [] := by
  rw [held]
  split
  · rfl
  · cases hdeed : c.deed a with
    | speak notices calls answers => exact (silent_of_deed hdeed).2
    | _ => rfl

theorem answers_tells (hqueue : c.queue.filterMap Frame.answers? = []) (a : Act) :
    (c.tells a).filterMap Frame.answers? = (c.answered? a).toList := by
  rw [← answers_answers, tells, answers]
  cases hdeed : c.deed a with
  | speak notices calls answers =>
    obtain ⟨hnotices, hcalls⟩ := silent_of_deed hdeed
    simp only [Wire.tells]
    split
    · rw [Deed.frames, List.filterMap_append, List.filterMap_append, hnotices, hcalls]
      rfl
    · rfl
  | complete greeting =>
    obtain ⟨generation, outcome, rfl, hcompletes⟩ :=
      exists_of_completes (c := c) (a := a) (by rw [hdeed]; rfl)
    cases hdeed.symm.trans (deed_of_completes hcompletes)
    rw [Wire.tells, List.filterMap_append, answers_greeting]
    exact hqueue
  | _ => exact congrArg _ (ite_self _)

theorem answers_queue_act (htied : c.bond.Tied) (hqueue : c.queue.filterMap Frame.answers? = [])
    (a : Act) : (c.act a).queue.filterMap Frame.answers? = [] := by
  have hkept := queue_act htied a
  refine List.filterMap_eq_nil_iff.mpr fun f hf => ?_
  have hmem : f ∈ (c.queue ++ c.held a).filter (Frame.isSpared (c.withdrawn a)) := by
    rw [hkept]
    exact List.mem_append_right _ hf
  obtain hf | hf := List.mem_append.mp (List.mem_filter.mp hmem).1
  · exact List.filterMap_eq_nil_iff.mp hqueue f hf
  · exact List.filterMap_eq_nil_iff.mp (answers_held a) f hf

end Answered

end Client

structure Dialogue where
  client : Client
  inquiries : List Inquiry

namespace Dialogue

inductive Move
  | act (a : Client.Act)
  | answer (i : Nat)

variable (d : Dialogue)

def act? : Move → Option Client.Act
  | .act a => if a.isResponse then none else some a
  | .answer i => d.inquiries[i]?.map fun q => .respond q.question.id q.question.answer

def step (m : Move) : Dialogue where
  client := (d.act? m).elim d.client d.client.act
  inquiries := match m with
    | .act a => d.inquiries ++ (d.client.inquiry? a).toList
    | .answer i => d.inquiries.eraseIdx i

def run (ms : List Move) : Dialogue :=
  ms.foldl step d

def gather {α : Type} (what : Dialogue → Move → List α) : List Move → Dialogue → List α
  | [], _ => []
  | m :: rest, d => what d m ++ gather what rest (d.step m)

def questions : Move → List (Option Nat × RequestId)
  | .act a => a.request?.toList.map (d.client.attached, ·)
  | .answer _ => []

def replies : Move → List Reply
  | .act a =>
    if a.isResponse then []
    else (d.client.answered? a).toList.map fun id => ⟨d.client.attached, d.client.attached, id⟩
  | .answer i =>
    d.inquiries[i]?.toList.map fun q => ⟨q.line, d.client.attached, q.question.id⟩

/-- The answers on every line are the replies given there, and every request got one of them or is with
its handler still. -/
structure Answers (qs : List (Option Nat × RequestId)) (rs : List Reply) : Prop where
  tied : d.client.bond.Tied
  silent : d.client.queue.filterMap Frame.answers? = []
  writes : ∃ log, d.client.wire.Writes d.client.ledger.taken log
  born : ∀ r ∈ rs, ∀ g, r.given = some g → g ≤ d.client.generation
  line : ∀ g told, d.client.wire.pushed g = some told →
    told.filterMap Frame.answers? = (rs.filter (·.given = some g)).map Reply.id
  once : (rs.map Reply.source ++ d.inquiries.map Inquiry.source).Perm qs

section Step

variable {d : Dialogue} {qs : List (Option Nat × RequestId)} {rs : List Reply}

theorem sources_of_act (c : Client) {a : Client.Act} (ha : ¬a.isResponse = true) :
    (c.answered? a).toList.map (c.attached, ·) ++ (c.inquiry? a).toList.map Inquiry.source =
      a.request?.toList.map (c.attached, ·) := by
  cases a with
  | respond id answer => exact absurd rfl ha
  | receive raw =>
    rw [Client.answered?, Client.inquiry?, Client.Act.request?]
    cases c.receiveCourse raw with
    | unread hraw hreceive | stray hraw _ hreceive | settles hraw _ hreceive
    | notified hraw hreceive | handled hraw _ hreceive | answers hraw _ hreceive =>
      rw [hreceive, hraw]
      rfl
  | _ => rfl

theorem Answers.act (h : d.Answers qs rs) {a : Client.Act} {new : List Reply}
    (hgiven : ∀ r ∈ new, r.given = d.client.attached)
    (hid : new.map Reply.id = (d.client.answered? a).toList) {d' : Dialogue}
    (hclient : d'.client = d.client.act a) {qs' : List (Option Nat × RequestId)}
    (honce : ((rs ++ new).map Reply.source ++ d'.inquiries.map Inquiry.source).Perm qs') :
    d'.Answers qs' (rs ++ new) := by
  have hborn : ∀ r ∈ new, ∀ g, r.given = some g → g ≤ d.client.generation := fun r hr g hg =>
    Nat.le_of_eq (h.tied.latest g ((hgiven r hr).symm.trans hg)).symm
  refine ⟨hclient ▸ h.tied.step (Client.bond_step _ a),
    hclient ▸ Client.answers_queue_act h.tied h.silent a, ?_, ?_, ?_, honce⟩
  · obtain ⟨log, hwrites⟩ := h.writes
    rw [hclient]
    exact ⟨_, Client.writes_act hwrites⟩
  · intro r hr g hg
    rw [hclient]
    refine Nat.le_trans ?_ (Client.generation_act_le (a := a))
    obtain hr | hr := List.mem_append.mp hr
    · exact h.born r hr g hg
    · exact hborn r hr g hg
  · intro g told htold
    rw [hclient] at htold
    rw [List.filter_append, List.map_append]
    by_cases hg : g ≤ d.client.generation
    · rw [Client.pushed_act hg] at htold
      split at htold
      next hattached =>
        obtain ⟨before, hbefore, rfl⟩ := Option.map_eq_some_iff.mp htold
        have hall : new.filter (·.given = some g) = new :=
          List.filter_eq_self.mpr fun r hr => decide_eq_true ((hgiven r hr).trans hattached)
        rw [List.filterMap_append, h.line g before hbefore, Client.answers_tells h.silent, hall, hid]
      next hattached =>
        have hnone : new.filter (·.given = some g) = [] :=
          List.filter_eq_nil_iff.mpr fun r hr hdec =>
            hattached ((hgiven r hr).symm.trans (of_decide_eq_true hdec))
        rw [h.line g told htold, hnone]
        exact (List.append_nil _).symm
    · obtain ⟨log, hwrites⟩ := h.writes
      cases Client.pushed_act_of_none (hwrites.unborn g (Nat.lt_of_not_le hg)) htold
      have hnone : (rs ++ new).filter (·.given = some g) = [] := by
        refine List.filter_eq_nil_iff.mpr fun r hr hdec => hg ?_
        obtain hr | hr := List.mem_append.mp hr
        · exact h.born r hr g (of_decide_eq_true hdec)
        · exact hborn r hr g (of_decide_eq_true hdec)
      rw [← List.map_append, ← List.filter_append, hnone]
      rfl

theorem Answers.of_idle (h : d.Answers qs rs) {m : Move} (hact : d.act? m = none)
    (hinquiries : (d.step m).inquiries = d.inquiries) (hquestions : d.questions m = [])
    (hreplies : d.replies m = []) :
    (d.step m).Answers (qs ++ d.questions m) (rs ++ d.replies m) := by
  have hstep : d.step m = d := by
    refine congrArg₂ Dialogue.mk ?_ hinquiries
    rw [hact]
    rfl
  rwa [hstep, hquestions, hreplies, List.append_nil, List.append_nil]

theorem Answers.step_act (h : d.Answers qs rs) (a : Client.Act) :
    (d.step (.act a)).Answers (qs ++ d.questions (.act a)) (rs ++ d.replies (.act a)) := by
  by_cases ha : a.isResponse = true
  · cases a with
    | respond id answer => exact h.of_idle rfl (List.append_nil _) rfl rfl
    | _ => cases ha
  · have hact : d.act? (.act a) = some a := if_neg ha
    have hreplies : d.replies (.act a) = (d.client.answered? a).toList.map
        fun id => ⟨d.client.attached, d.client.attached, id⟩ := if_neg ha
    refine h.act (a := a) ?_ ?_ ?_ ?_
    · intro r hr
      rw [hreplies] at hr
      obtain ⟨id, -, rfl⟩ := List.mem_map.mp hr
      rfl
    · rw [hreplies, List.map_map]
      exact List.map_id _
    · rw [Dialogue.step, hact]
      rfl
    · have hsources := sources_of_act d.client ha
      have hnew : (d.replies (.act a)).map Reply.source =
          (d.client.answered? a).toList.map (d.client.attached, ·) := by
        rw [hreplies, List.map_map]
        rfl
      rw [List.map_append, hnew, List.append_assoc]
      refine List.Perm.trans ?_ (h.once.append_right _)
      rw [questions, ← hsources, List.append_assoc]
      refine List.Perm.append_left _ ?_
      rw [Dialogue.step, List.map_append]
      exact List.perm_append_comm_assoc _ _ _

theorem Answers.step_answer (h : d.Answers qs rs) (i : Nat) :
    (d.step (.answer i)).Answers (qs ++ d.questions (.answer i))
      (rs ++ d.replies (.answer i)) := by
  cases hq : d.inquiries[i]? with
  | none =>
    refine h.of_idle ?_ (List.eraseIdx_of_length_le (List.getElem?_eq_none_iff.mp hq)) rfl ?_
    · rw [act?, hq]
      rfl
    · rw [Dialogue.replies, hq]
      rfl
  | some q =>
    have hreplies : d.replies (.answer i) = [⟨q.line, d.client.attached, q.question.id⟩] := by
      rw [Dialogue.replies, hq]
      rfl
    refine h.act (a := .respond q.question.id q.question.answer) ?_ ?_ ?_ ?_
    · intro r hr
      rw [hreplies] at hr
      cases List.mem_singleton.mp hr
      rfl
    · rw [hreplies]
      rfl
    · rw [Dialogue.step, act?, hq]
      rfl
    · obtain ⟨hi, rfl⟩ := List.getElem?_eq_some_iff.mp hq
      rw [hreplies, List.map_append, List.append_assoc]
      refine List.Perm.trans (List.Perm.append_left _ ?_) ((List.append_nil qs).symm ▸ h.once)
      exact (List.getElem_cons_eraseIdx_perm hi).map Inquiry.source

theorem Answers.step (h : d.Answers qs rs) (m : Move) :
    (d.step m).Answers (qs ++ d.questions m) (rs ++ d.replies m) := by
  cases m with
  | act a => exact h.step_act a
  | answer i => exact h.step_answer i

end Step

theorem answers_new (settings : Settings) (policy : HolderPolicy) (processId : Nat) (hashing : Hashing) :
    Answers ⟨.new settings policy processId hashing, []⟩ [] [] where
  tied := Client.tied_new settings policy processId hashing
  silent := rfl
  writes := ⟨[], Client.writes_new settings policy processId hashing⟩
  born _ hr := by cases hr
  line g told htold := by cases htold
  once := .nil

theorem answers_run {d : Dialogue} {qs : List (Option Nat × RequestId)} {rs : List Reply}
    (h : d.Answers qs rs) (ms : List Move) :
    (d.run ms).Answers (qs ++ gather questions ms d) (rs ++ gather replies ms d) := by
  induction ms generalizing d qs rs with
  | nil =>
    rw [gather, gather, List.append_nil, List.append_nil]
    exact h
  | cons m rest ih =>
    rw [gather, gather, ← List.append_assoc, ← List.append_assoc]
    exact ih (h.step m)

theorem count_given_le {rs : List Reply} (h : ∀ r ∈ rs, r.given = none ∨ r.given = r.asked) (g : Nat)
    (id : RequestId) :
    ((rs.filter (·.given = some g)).map Reply.id).count id ≤
      (rs.map Reply.source).count (some g, id) := by
  have hsources : ((rs.filter (·.given = some g)).map Reply.id).map (some g, ·) =
      (rs.filter (·.given = some g)).map Reply.source := by
    rw [List.map_map]
    refine List.map_congr_left fun r hr => ?_
    obtain ⟨hr, hgiven⟩ := List.mem_filter.mp hr
    have hg : r.given = some g := of_decide_eq_true hgiven
    obtain hnone | hasked := h r hr
    · cases hg.symm.trans hnone
    · exact congrArg (·, r.id) (hg.symm.trans hasked)
  calc ((rs.filter (·.given = some g)).map Reply.id).count id
    _ ≤ (((rs.filter (·.given = some g)).map Reply.id).map (some g, ·)).count (some g, id) :=
      List.count_le_count_map
    _ = ((rs.filter (·.given = some g)).map Reply.source).count (some g, id) := by rw [hsources]
    _ ≤ (rs.map Reply.source).count (some g, id) := (List.filter_sublist.map _).count_le _

theorem given_of_mem {d : Dialogue} {m : Move} {r : Reply} (hr : r ∈ d.replies m) :
    r.given = d.client.attached ∧ ((∀ i, m ≠ .answer i) → r.asked = r.given) := by
  cases m with
  | act a =>
    rw [replies] at hr
    split at hr
    · cases hr
    · obtain ⟨id, -, rfl⟩ := List.mem_map.mp hr
      exact ⟨rfl, fun _ => rfl⟩
  | answer i =>
    obtain ⟨q, -, rfl⟩ := List.mem_map.mp hr
    exact ⟨rfl, fun hne => absurd rfl (hne i)⟩

/-- The answers on every line are the replies given while it was attached, in their order. Every request
of the server got one reply, or is with its handler still. A reply goes to whatever line there is, and
only a handler's can come from another. As long as none does, every answer on a line has the id of a
request that came on that line, and answers it once. -/
theorem answers_delivered (settings : Settings) (policy : HolderPolicy) (processId : Nat) (hashing : Hashing)
    (ms : List Move) :
    let start : Dialogue := ⟨.new settings policy processId hashing, []⟩
    let d := start.run ms
    let qs := gather questions ms start
    let rs := gather replies ms start
    (∀ g l, Table.get? g d.client.lines = some l →
      l.pushed.filterMap Frame.answers? = (rs.filter (·.given = some g)).map Reply.id) ∧
    (rs.map Reply.source ++ d.inquiries.map Inquiry.source).Perm qs ∧
    (∀ m, ∀ r ∈ d.replies m, r.given = d.client.attached ∧
      ((∀ i, m ≠ .answer i) → r.asked = r.given)) ∧
    ((∀ r ∈ rs, r.given = none ∨ r.given = r.asked) →
      ∀ g l id, Table.get? g d.client.lines = some l →
        (l.pushed.filterMap Frame.answers?).count id ≤ qs.count (some g, id)) := by
  intro start d qs rs
  have h : d.Answers qs rs := answers_run (answers_new settings policy processId hashing) ms
  have hline : ∀ g l, Table.get? g d.client.lines = some l →
      l.pushed.filterMap Frame.answers? = (rs.filter (·.given = some g)).map Reply.id :=
    fun g l hl => h.line g l.pushed (congrArg (Option.map Line.pushed) hl)
  refine ⟨hline, h.once, fun m r => given_of_mem, fun hkept g l id hl => ?_⟩
  rw [hline g l hl]
  calc ((rs.filter (·.given = some g)).map Reply.id).count id
    _ ≤ (rs.map Reply.source).count (some g, id) := count_given_le hkept g id
    _ ≤ (rs.map Reply.source ++ d.inquiries.map Inquiry.source).count (some g, id) :=
      (List.sublist_append_left _ _).count_le _
    _ = qs.count (some g, id) := h.once.count_eq _

theorem answers_delivered_of_reconnect :
    let start : Dialogue := ⟨.new .standard .exclusive 1 .rising, []⟩
    let ask : Move := .act (.receive (Frame.request 7 "ask" none).text)
    let ms : List Move := [.act (.onRequest "ask" ⟨"ask", 50, fun _ => .ok .null⟩),
      .act (.beginConnect 0), ask, .answer 0, .act (.beginConnect 0), ask, ask, .answer 1, .answer 0]
    (∀ r ∈ gather replies ms start, r.given = none ∨ r.given = r.asked) ∧
      ∃ l, Table.get? 2 (start.run ms).client.lines = some l ∧
        l.pushed.filterMap Frame.answers? = [.number 7, .number 7] ∧
        ∀ id, (l.pushed.filterMap Frame.answers?).count id ≤
          (gather questions ms start).count (some 2, id) := by
  intro start ask ms
  obtain ⟨hline, -, -, hcount⟩ := answers_delivered .standard .exclusive 1 .rising ms
  have hreplies : gather replies ms start =
        [⟨some 1, some 1, .number 7⟩, ⟨some 2, some 2, .number 7⟩, ⟨some 2, some 2, .number 7⟩] ∧
      (Table.get? 2 (start.run ms).client.lines).isSome = true := by
    decide
  have hkept : ∀ r ∈ gather replies ms start, r.given = none ∨ r.given = r.asked := by
    rw [hreplies.1]
    decide
  obtain ⟨l, hl⟩ := Option.isSome_iff_exists.mp hreplies.2
  refine ⟨hkept, l, hl, ?_, fun id => hcount hkept 2 l id hl⟩
  rw [hline 2 l hl, hreplies.1]
  decide

/-- A handler is done when there is another connection, whose server has asked nothing and is answered. -/
theorem answers_of_other_line :
    let start : Dialogue := ⟨.new .standard .exclusive 1 .rising, []⟩
    let ms : List Move := [.act (.onRequest "ask" ⟨"ask", 50, fun _ => .ok .null⟩),
      .act (.beginConnect 0), .act (.receive (Frame.request 7 "ask" none).text),
      .act (.beginConnect 1), .answer 0]
    gather questions ms start = [(some 1, .number 7)] ∧
      ∃ l, Table.get? 2 (start.run ms).client.lines = some l ∧
        Frame.response (.success (.number 7) .null) ∈ l.pushed := by
  intro start ms
  have hanswers : gather questions ms start = [(some 1, .number 7)] ∧
      (Table.get? 2 (start.run ms).client.lines).any
        (.response (.success (.number 7) .null) ∈ ·.pushed) = true := by
    decide
  obtain ⟨l, hl, hmem⟩ := (Option.any_eq_true ..).mp hanswers.2
  exact ⟨hanswers.1, l, hl, of_decide_eq_true hmem⟩

end Dialogue

end LanguageClient
