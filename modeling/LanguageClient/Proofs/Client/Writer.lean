import LanguageClient.Proofs.Client.Deed

namespace LanguageClient

structure Writing where
  line : Nat
  frame : Frame
  stale : Bool
  deriving DecidableEq

namespace Writing

def takenOf (g : Nat) (log : List Writing) : List Frame :=
  (log.filter (·.line = g)).map frame

def handed (log : List Writing) : List Frame :=
  (log.filter (!·.stale)).map frame

theorem takenOf_append (g : Nat) (log more : List Writing) :
    takenOf g (log ++ more) = takenOf g log ++ takenOf g more := by
  rw [takenOf, List.filter_append, List.map_append]
  rfl

theorem takenOf_singleton_self (w : Writing) : takenOf w.line [w] = [w.frame] := by
  simp [takenOf]

theorem takenOf_singleton_of_ne {g : Nat} {w : Writing} (h : w.line ≠ g) : takenOf g [w] = [] := by
  simp [takenOf, h]

end Writing

/-- The writer has taken the front of every line. -/
structure Wire.Writes (w : Wire) (taken : Nat → Nat) (log : List Writing) : Prop where
  unborn : ∀ g, w.generation < g → w.pushed g = none
  front : ∀ g, ∃ rest, (w.pushed g).getD [] = Writing.takenOf g log ++ rest
  count : ∀ g, taken g = (Writing.takenOf g log).length

namespace Wire.Writes

variable {w : Wire} {taken : Nat → Nat} {log : List Writing} (h : w.Writes taken log)
include h

theorem send (fs : List Frame) : (w.send fs).Writes taken log where
  unborn g hg := by
    rw [Wire.send]
    dsimp only
    rw [h.unborn g hg, Option.map_none, ite_self]
  front g := by
    obtain ⟨rest, hrest⟩ := h.front g
    rw [Wire.send]
    dsimp only
    split
    next =>
      cases hpushed : w.pushed g with
      | none => exact ⟨rest, by simpa [hpushed] using hrest⟩
      | some told =>
        refine ⟨rest ++ fs, ?_⟩
        rw [hpushed] at hrest
        rw [← List.append_assoc, ← hrest]
        rfl
    next => exact ⟨rest, hrest⟩
  count := h.count

theorem takenOf_unborn {g : Nat} (hg : w.generation < g) : Writing.takenOf g log = [] := by
  obtain ⟨rest, hrest⟩ := h.front g
  rw [h.unborn g hg] at hrest
  exact (List.append_eq_nil_iff.mp hrest.symm).1

theorem letGo : w.letGo.Writes taken log where
  unborn g hg := h.unborn g (Nat.lt_of_succ_lt hg)
  front := h.front
  count := h.count

theorem attach : w.attach.Writes (fun g => if g = w.generation + 1 then 0 else taken g) log where
  unborn g hg := by
    have hne : w.generation + 1 ≠ g := Nat.ne_of_lt hg
    exact (if_neg hne).trans (h.unborn g (Nat.lt_of_succ_lt hg))
  front g := by
    change ∃ rest, (if w.generation + 1 = g then some [] else w.pushed g).getD [] = _
    by_cases hg : w.generation + 1 = g
    · rw [if_pos hg, h.takenOf_unborn (Nat.lt_of_succ_le (Nat.le_of_eq hg))]
      exact ⟨[], rfl⟩
    · rw [if_neg hg]
      exact h.front g
  count g := by
    by_cases hg : g = w.generation + 1
    · rw [if_pos hg, h.takenOf_unborn (hg ▸ Nat.lt_succ_self _), List.length_nil]
    · rw [if_neg hg]
      exact h.count g

theorem after {d : Deed} (hquiet : ∀ g, d ≠ .write g) :
    (w.after d).Writes (d.taken w.generation taken) log := by
  cases d with
  | speak notices calls answers =>
    rw [Wire.after]
    split
    · exact h.send _
    · have hheld : { w with queue := w.queue ++ calls }.Writes taken log :=
        ⟨h.unborn, h.front, h.count⟩
      exact hheld.send answers
  | withdraw id => exact ⟨h.unborn, h.front, h.count⟩
  | write g => exact absurd rfl (hquiet g)
  | attach first => exact h.attach.send [first]
  | complete greeting =>
    have hsent := h.send (greeting ++ w.queue)
    exact ⟨hsent.unborn, hsent.front, hsent.count⟩
  | letGo => exact h.letGo

theorem write (turn : Writing) {told rest : List Frame} (htold : w.pushed turn.line = some told)
    (hnext : told.drop (taken turn.line) = turn.frame :: rest) :
    w.Writes (fun g => if g = turn.line then taken turn.line + 1 else taken g) (log ++ [turn]) where
  unborn := h.unborn
  front g := by
    obtain ⟨waiting, hwaiting⟩ := h.front g
    rw [Writing.takenOf_append]
    by_cases hg : turn.line = g
    · subst hg
      refine ⟨rest, ?_⟩
      rw [htold, Option.getD_some] at hwaiting ⊢
      rw [hwaiting, h.count, List.drop_left] at hnext
      rw [hwaiting, hnext, Writing.takenOf_singleton_self, List.append_assoc]
      rfl
    · rw [Writing.takenOf_singleton_of_ne hg, List.append_nil]
      exact ⟨waiting, hwaiting⟩
  count g := by
    rw [Writing.takenOf_append, List.length_append]
    by_cases hg : turn.line = g
    · subst hg
      rw [if_pos rfl, h.count, Writing.takenOf_singleton_self]
      rfl
    · rw [if_neg (Ne.symm hg), Writing.takenOf_singleton_of_ne hg]
      exact h.count g

end Wire.Writes

namespace Client

def isStale (c : Client) (f : Frame) : Bool :=
  f.requestId?.any fun id => !c.requests.contains id

def writing? (c : Client) : Act → Option Writing
  | .write _ => c.nextFrame?.map fun (g, _, f) => ⟨g, f, c.isStale f⟩
  | _ => none

def writings (acts : List Act) (c : Client) : List Writing :=
  gather (fun c a => (c.writing? a).toList) acts c

def mail (c : Client) (t : Nat) : List String :=
  (Table.get? t c.transports).elim [] Channel.waiting

def posted (c : Client) (t : Nat) (a : Act) : List String :=
  match c.writing? a with
  | some w =>
    if w.stale = false ∧ (Table.get? w.line c.lines).any (fun l => l.transport = t ∧ c.takes l) then
      [w.frame.text]
    else []
  | none => []

section Writes

variable {c : Client} {a : Act} {log : List Writing}

theorem exists_of_deed_write {g : Nat} (h : c.deed a = .write g) : ∃ now, a = .write now := by
  cases a with
  | write now => exact ⟨now, rfl⟩
  | _ =>
    rw [deed] at h
    repeat' split at h
    all_goals cases h

theorem stale_of_writing? {w : Writing} (h : c.writing? a = some w) : w.stale = c.isStale w.frame := by
  cases a with
  | write now =>
    obtain ⟨next, -, rfl⟩ := Option.map_eq_some_iff.mp h
    rfl
  | _ => cases h

theorem writes_act (h : c.wire.Writes c.ledger.taken log) :
    (c.act a).wire.Writes (c.act a).ledger.taken (log ++ (c.writing? a).toList) := by
  have hdoes := does_act (c := c) a
  obtain ⟨s, p, hwire⟩ := hdoes.wire
  rw [hdoes.taken, hwire]
  have hrest : ∀ {log}, (c.wire.after (c.deed a)).Writes ((c.deed a).taken c.generation c.ledger.taken) log →
      { c.wire.after (c.deed a) with documents := s, phase := p }.Writes
        ((c.deed a).taken c.generation c.ledger.taken) log :=
    fun h => ⟨h.unborn, h.front, h.count⟩
  refine hrest ?_
  cases hwriting : c.writing? a with
  | none =>
    rw [Option.toList_none, List.append_nil]
    refine h.after fun g hdeed => ?_
    obtain ⟨now, rfl⟩ := exists_of_deed_write hdeed
    rw [writing?, Option.map_eq_none_iff] at hwriting
    rw [deed, hwriting] at hdeed
    cases hdeed
  | some turn =>
    cases a with
    | write now =>
      obtain ⟨⟨g, l, f⟩, hnext, rfl⟩ := Option.map_eq_some_iff.mp hwriting
      obtain ⟨-, hl, rest, hrest⟩ := nextFrame?_eq_some hnext
      have hdeed : c.deed (.write now) = .write g := by rw [deed, hnext]
      have htold : c.wire.pushed g = some l.pushed := congrArg (Option.map Line.pushed) hl
      have hwaiting : l.pushed.drop (c.ledger.taken g) = f :: rest := by
        simpa [ledger, hl] using (show l.pushed.drop l.taken = _ from hrest)
      rw [hdeed]
      exact h.write ⟨g, f, c.isStale f⟩ htold hwaiting
    | _ => cases hwriting

theorem writes_run (h : c.wire.Writes c.ledger.taken log) (acts : List Act) :
    (c.run acts).wire.Writes (c.run acts).ledger.taken (log ++ writings acts c) := by
  induction acts generalizing c log with
  | nil =>
    rw [writings, gather, List.append_nil]
    exact h
  | cons a rest ih =>
    rw [writings, gather, ← List.append_assoc]
    exact ih (writes_act h)

theorem writes_new (settings : Settings) (policy : HolderPolicy) (processId : Nat) (hashing : Hashing) :
    (new settings policy processId hashing).wire.Writes (new settings policy processId hashing).ledger.taken [] where
  unborn _ _ := rfl
  front _ := ⟨[], rfl⟩
  count _ := rfl

theorem takenOf_writings {g : Nat} {l : Line} (h : c.wire.Writes c.ledger.taken log)
    (hl : Table.get? g c.lines = some l) : Writing.takenOf g log = l.pushed.take l.taken := by
  obtain ⟨rest, hrest⟩ := h.front g
  have htold : c.wire.pushed g = some l.pushed := congrArg (Option.map Line.pushed) hl
  have hcount : l.taken = (Writing.takenOf g log).length := by
    simpa [ledger, hl] using h.count g
  rw [htold, Option.getD_some] at hrest
  rw [hrest, hcount, List.take_left]

end Writes

section Post

variable (c : Client)

theorem mail_of_transmit {c c' : Client} {l : Line} {text : String} (h : c.transmit l text = .ok c')
    (t : Nat) : c'.mail t = c.mail t ++ if l.transport = t then [text] else [] := by
  obtain ⟨channel, hchannel, -, rfl⟩ := of_transmit h
  by_cases ht : l.transport = t
  · subst ht
    simp [mail, hchannel]
  · simp [mail, ht, Table.get?_put_of_ne ht]

theorem mail_writeFrame (now : Nat) (l : Line) (f : Frame) (t : Nat) :
    (c.writeFrame now l f).mail t =
      c.mail t ++
        if l.transport = t ∧ c.isStale f = false ∧ c.takes l = true then [f.text] else [] := by
  cases c.writeCourse now l f with
  | passed hid hdead hwrite => simp [hwrite, isStale, hid, hdead]
  | lost _ hrefusal hwrite => simp [hwrite, c.takes_of_refusal hrefusal]
  | sent hid hsend hwrite =>
    rw [hwrite, mail_of_transmit hsend, takes_of_transmit hsend]
    simp [isStale, hid]
  | refused _ _ hrefusal hwrite =>
    rw [hwrite, c.takes_of_refusal hrefusal]
    simp [mail, reject]
  | handedOver hid hlive hsend hwrite =>
    have htakes : c.takes l = true := (takes_of_transmit hsend :)
    rw [hwrite, mail_of_transmit hsend, htakes]
    simp [isStale, hid, hlive, mail]

theorem mail_write (now t : Nat) :
    (c.act (.write now)).mail t = c.mail t ++ c.posted t (.write now) := by
  rw [act, write?_eq, posted, writing?]
  cases hnext : c.nextFrame? with
  | none => exact (List.append_nil _).symm
  | some next =>
    obtain ⟨g, l, f⟩ := next
    obtain ⟨-, hl, -⟩ := nextFrame?_eq_some hnext
    refine ((c.take g l).mail_writeFrame now l f t).trans ?_
    dsimp only [Option.map_some]
    rw [hl]
    simp only [Option.any_some, decide_eq_true_iff, and_left_comm (a := c.isStale f = false)]
    rfl

end Post

def Unposted (c c' : Client) : Prop :=
  ∀ t, c'.mail t <:+ c.mail t

section Unposted

variable {c c' c'' : Client}

theorem unposted_of_eq (h : c'.transports = c.transports) : Unposted c c' := by
  intro t
  rw [mail, h]
  exact List.suffix_refl _

theorem unposted_self : Unposted c c :=
  unposted_of_eq rfl

theorem Unposted.trans (h : Unposted c c') (h' : Unposted c' c'') : Unposted c c'' :=
  fun t => (h' t).trans (h t)

theorem unposted_put (transport : Nat) (channel : Channel Unit)
    (hchannel : channel.waiting <:+ c.mail transport)
    (h : c'.transports = Table.put transport channel c.transports) : Unposted c c' := by
  intro t
  rw [mail, h]
  by_cases ht : transport = t
  · subst ht
    rw [Table.get?_put_self]
    exact hchannel
  · rw [Table.get?_put_of_ne ht]
    exact List.suffix_refl _

theorem unposted_adjust (transport : Nat) {f : Channel Unit → Channel Unit}
    (hf : ∀ channel, (f channel).waiting <:+ channel.waiting) :
    Unposted c (c.adjustTransport transport f) := by
  intro t
  rw [mail, adjustTransport, mail]
  by_cases ht : transport = t
  · subst ht
    rw [Table.get?_adjust_self]
    cases Table.get? transport c.transports with
    | none => exact List.suffix_refl _
    | some channel => exact hf channel
  · have hother := Table.get?_adjust_of_ne ht f c.transports
    exact hother ▸ List.suffix_refl _

theorem unposted_of_startRequest {method : String} {params : Option Json} {key : Option String}
    {id : Nat} (h : c.startRequest method params key = .ok (id, c')) : Unposted c c' := by
  obtain ⟨lines, queue, rfl⟩ := exists_of_startRequest h
  exact unposted_of_eq rfl

theorem unposted_teardown : Unposted c c.teardown := by
  rw [teardown]
  dsimp only
  split
  next => exact unposted_of_eq rfl
  next l _ => exact unposted_adjust (c := c) l.transport fun _ => List.suffix_refl _

theorem unposted_disconnect : Unposted c c.disconnect :=
  unposted_teardown

theorem unposted_detach (generation : Nat) : Unposted c (c.detach generation) := by
  rw [detach]
  split
  · exact unposted_disconnect
  · exact unposted_self

theorem unposted_beginConnect (transport : Nat) : Unposted c (c.beginConnect transport).2.2 := by
  have hattach : Unposted c.teardown (c.attach transport) := by
    refine unposted_put transport _ ?_ rfl
    rw [mail]
    cases Table.get? transport c.teardown.transports with
    | none => exact List.suffix_refl _
    | some channel => exact List.suffix_refl _
  obtain ⟨lines, hbegin⟩ := c.exists_beginConnect transport
  exact (unposted_teardown.trans hattach).trans (unposted_of_eq (congrArg transports hbegin :))

theorem unposted_finishConnect (generation : Nat) (outcome : Outcome) :
    Unposted c (c.finishConnect generation outcome).2 := by
  cases c.finishCourse generation outcome with
  | @fails _ gate _ _ hfinish =>
    rw [hfinish]
    exact unposted_detach (c := { c with gate }) generation
  | completes _ _ hdone hfinish =>
    obtain ⟨documents, lines, rfl⟩ := exists_of_completeHandshake hdone
    rw [hfinish]
    exact unposted_of_eq rfl

theorem unposted_beginShutdown : Unposted c (c.act .beginShutdown) := by
  rw [act]
  cases c.shutdownCourse with
  | asks _ hstart hshutdown =>
    rw [hshutdown]
    exact unposted_of_startRequest hstart
  | letsGo _ hshutdown =>
    rw [hshutdown]
    exact unposted_disconnect

theorem unposted_happen (transport : Nat) (event : Channel.Event) :
    Unposted c (c.act (.happen transport event)) := by
  refine unposted_adjust transport fun channel => ?_
  cases event with
  | close | refuse on => exact List.suffix_refl _
  | dropServer => exact List.nil_suffix
  | take =>
    rw [Channel.happen, Channel.take?]
    cases hwaiting : channel.waiting with
    | nil => simp [hwaiting]
    | cons m rest => exact List.suffix_cons m rest

theorem unposted_act {a : Act} (h : ∀ now, a ≠ .write now) : Unposted c (c.act a) := by
  by_cases hlocal : a.isLocal = true
  · obtain ⟨documents, lines, queue, handlers, hact⟩ := c.exists_of_isLocal hlocal
    exact unposted_of_eq (congrArg transports hact :)
  · cases a with
    | startMapped method params key =>
      obtain ⟨documents, requests, lines, queue, hact⟩ := c.exists_startMapped method params key
      exact unposted_of_eq (congrArg transports hact :)
    | beginConnect transport => exact unposted_beginConnect transport
    | finishConnect generation outcome => exact unposted_finishConnect generation outcome
    | disconnect => exact unposted_disconnect
    | beginShutdown => exact unposted_beginShutdown
    | request method params key =>
      rw [act]
      cases hstart : c.startRequest method params key with
      | error e => exact unposted_self
      | ok r => exact unposted_of_startRequest hstart
    | cancel key =>
      obtain ⟨keys, requests, lines, queue, hact⟩ := c.exists_cancel key
      exact unposted_of_eq (congrArg transports hact :)
    | write now => exact absurd rfl (h now)
    | receive raw =>
      obtain ⟨requests, gate, lines, hact⟩ := c.exists_receive raw
      exact unposted_of_eq (congrArg transports hact :)
    | addTransport transport => exact unposted_put transport .new List.nil_suffix rfl
    | happen transport event => exact unposted_happen transport event
    | forget | sweep => exact unposted_of_eq rfl
    | _ => exact absurd rfl hlocal

theorem mail_act (a : Act) (t : Nat) :
    (c.act a).mail t = c.mail t ++ c.posted t a ∨
      c.writing? a = none ∧ (c.act a).mail t <:+ c.mail t := by
  by_cases hwrite : ∃ now, a = .write now
  · obtain ⟨now, rfl⟩ := hwrite
    exact .inl (c.mail_write now t)
  · rw [not_exists] at hwrite
    refine .inr ⟨?_, unposted_act hwrite t⟩
    cases a with
    | write now => exact absurd rfl (hwrite now)
    | _ => rfl

end Unposted

end Client
end LanguageClient
