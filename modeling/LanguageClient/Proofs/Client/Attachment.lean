import LanguageClient.Proofs.Client.Untouched

namespace LanguageClient

structure Attachment where
  attached : Option Nat
  seat : Nat → Option (Nat × Nat)
  subscriptions : Nat → List Nat

namespace Attachment

def seat? (a : Attachment) : Option (Nat × Nat) :=
  a.attached.bind a.seat

def expected (a : Attachment) (t : Nat) : List Nat :=
  ((a.seat?.filter (·.1 = t)).map Prod.snd).toList

def letGo (a : Attachment) : Attachment :=
  { a with
    attached := none
    subscriptions := fun t => match a.seat? with
      | some (t', s) => if t' = t then (a.subscriptions t).filter (· != s) else a.subscriptions t
      | none => a.subscriptions t }

def attach (a : Attachment) (g t s : Nat) : Attachment where
  attached := some g
  seat g' := if g = g' then some (t, s) else a.seat g'
  subscriptions t' := if t = t' then a.subscriptions t' ++ [s] else a.subscriptions t'

/-- The attached line is there, and it alone is subscribed. -/
structure Sole (a : Attachment) : Prop where
  seated : ∀ g, a.attached = some g → (a.seat g).isSome
  subscribed : ∀ t, a.subscriptions t = a.expected t

theorem Sole.letGo {a : Attachment} (h : a.Sole) : a.letGo.Sole where
  seated g hg := by cases hg
  subscribed t := by
    have hsubscribed := h.subscribed t
    rw [expected] at hsubscribed
    change (match a.seat? with
      | some (t', s) => if t' = t then (a.subscriptions t).filter (· != s) else a.subscriptions t
      | none => a.subscriptions t) = []
    cases hseat : a.seat? with
    | none => rw [hsubscribed, hseat]; rfl
    | some seat =>
      obtain ⟨t', s⟩ := seat
      rw [hsubscribed, hseat]
      by_cases ht : t' = t <;> simp [Option.filter, ht]

theorem Sole.attach {a : Attachment} (h : a.Sole) (hfree : a.attached = none) (g t s : Nat) :
    (a.attach g t s).Sole where
  seated g' hg' := by
    cases hg'
    exact Option.isSome_iff_exists.mpr ⟨(t, s), if_pos rfl⟩
  subscribed t' := by
    have hempty : a.subscriptions t' = [] := by
      rw [h.subscribed, expected, seat?, hfree]
      rfl
    have hseat : (a.attach g t s).seat? = some (t, s) := if_pos rfl
    rw [expected, hseat]
    change (if t = t' then a.subscriptions t' ++ [s] else a.subscriptions t') = _
    rw [hempty]
    by_cases ht : t = t' <;> simp [Option.filter, ht]

end Attachment

namespace Client

def subscriptions (c : Client) (t : Nat) : List Nat :=
  (Table.get? t c.transports).elim [] fun channel => channel.subscribers.map Prod.fst

def attachment (c : Client) : Attachment where
  attached := c.attached
  seat g := (Table.get? g c.lines).map fun l => (l.transport, l.subscription)
  subscriptions := c.subscriptions

section Kept

variable (c : Client)

theorem attachment_push (f : Frame) : (c.push f).attachment = c.attachment := by
  cases hattached : c.attached with
  | none => simp [push, hattached]
  | some g =>
    simp only [push, hattached, attachment, Attachment.mk.injEq, true_and]
    refine ⟨funext fun g' => ?_, rfl⟩
    by_cases hg : g = g'
    · subst hg
      rw [Table.get?_adjust_self, Option.map_map]
      rfl
    · rw [Table.get?_adjust_of_ne hg]

theorem attachment_pushAll (fs : List Frame) : (c.pushAll fs).attachment = c.attachment := by
  induction fs generalizing c with
  | nil => rfl
  | cons f rest ih => exact (ih (c.push f)).trans (c.attachment_push f)

theorem attachment_pushIfReady (f : Frame) : (c.pushIfReady f).attachment = c.attachment := by
  rw [pushIfReady]
  split
  · exact c.attachment_push f
  · rfl

theorem attachment_enqueue (f : Frame) : (c.enqueue f).attachment = c.attachment := by
  rw [enqueue]
  split
  · exact c.attachment_push f
  · rfl

theorem attachment_openFile (uri languageId text : String) :
    (c.act (.openFile uri languageId text)).attachment = c.attachment := by
  rw [act, openFile]
  cases c.documents.openFile uri languageId text with
  | error e => rfl
  | ok r =>
    obtain ⟨outcome, documents⟩ := r
    cases outcome with
    | opened d => exact attachment_pushIfReady { c with documents } _
    | joined holders => rfl

theorem attachment_closeFile (uri : String) :
    (c.act (.closeFile uri)).attachment = c.attachment := by
  rw [act, closeFile]
  cases c.documents.closeFile uri with
  | error e => rfl
  | ok r =>
    obtain ⟨outcome, documents⟩ := r
    cases outcome with
    | closed => exact attachment_pushIfReady { c with documents } _
    | released remaining => rfl

theorem attachment_sync : c.sync.2.attachment = c.attachment := by
  rw [sync]
  split
  · dsimp only
    split
    · rfl
    · exact c.syncDocuments.2.attachment_pushAll _
  · rfl

theorem attachment_of_startRequest {c c' : Client} {method : String} {params : Option Json}
    {key : Option String} {id : Nat} (h : c.startRequest method params key = .ok (id, c')) :
    c'.attachment = c.attachment := by
  rw [startRequest] at h
  split at h
  · cases h
  · cases h
    exact attachment_enqueue _ _

theorem attachment_startMapped (method : String) (params : Option Json) (key : Option String) :
    (c.act (.startMapped method params key)).attachment = c.attachment := by
  rw [act]
  cases c.mappedCourse method params key with
  | unready _ hmapped => rw [hmapped]
  | refused _ _ hmapped =>
    rw [hmapped]
    exact c.attachment_sync
  | asks _ hstart hmapped =>
    rw [hmapped]
    exact (attachment_of_startRequest hstart).trans c.attachment_sync

theorem attachment_cancel (key : String) : (c.cancel key).2.attachment = c.attachment := by
  cases c.cancelCourse key with
  | unused _ hcancel | withdrawn _ _ hcancel | asked _ hcancel =>
    rw [hcancel]
    rfl
  | new _ _ _ hcancel =>
    rw [hcancel]
    exact attachment_enqueue _ _

theorem attachment_of_transmit {c c' : Client} {l : Line} {text : String}
    (h : c.transmit l text = .ok c') : c'.attachment = c.attachment := by
  obtain ⟨channel, hchannel, -, rfl⟩ := of_transmit h
  simp only [attachment, Attachment.mk.injEq, true_and]
  funext t
  by_cases ht : l.transport = t
  · subst ht
    simp [subscriptions, hchannel]
  · simp [subscriptions, Table.get?_put_of_ne ht]

theorem attachment_writeFrame (now : Nat) (l : Line) (f : Frame) :
    (c.writeFrame now l f).attachment = c.attachment := by
  cases c.writeCourse now l f with
  | passed _ _ hwrite | lost _ _ hwrite => rw [hwrite]
  | sent _ hsend hwrite =>
    rw [hwrite]
    exact attachment_of_transmit hsend
  | refused _ _ _ hwrite =>
    rw [hwrite]
    rfl
  | handedOver _ _ hsend hwrite =>
    rw [hwrite]
    exact (attachment_of_transmit hsend :)

theorem attachment_write (now : Nat) : (c.act (.write now)).attachment = c.attachment := by
  rw [act]
  cases hwrite : c.write? now with
  | none => rfl
  | some c' =>
    obtain ⟨g, -, hwrite⟩ := Option.bind_eq_some_iff.mp hwrite
    obtain ⟨l, hl, hwrite⟩ := Option.bind_eq_some_iff.mp hwrite
    obtain ⟨f, -, hwrite⟩ := Option.bind_eq_some_iff.mp hwrite
    cases hwrite
    refine (attachment_writeFrame _ now l f).trans ?_
    simp only [attachment, Attachment.mk.injEq, true_and]
    refine ⟨funext fun g' => ?_, rfl⟩
    by_cases hg : g = g'
    · subst hg
      rw [Table.get?_put_self, hl]
      rfl
    · rw [Table.get?_put_of_ne hg]

theorem attachment_receive (raw : String) : (c.receive raw).2.2.attachment = c.attachment := by
  cases c.receiveCourse raw with
  | unread _ hreceive | stray _ _ hreceive | notified _ hreceive | handled _ _ hreceive =>
    rw [hreceive]
  | settles _ _ hreceive =>
    rw [hreceive]
    rfl
  | @answers r _ _ hreceive =>
    obtain ⟨gate, hanswer⟩ := c.exists_answerRequest r.method (r.params.getD .null)
    rw [hreceive, hanswer]
    exact attachment_push { c with gate } _

theorem attachment_of_completeHandshake {c c' : Client} {generation : Nat}
    (h : c.completeHandshake generation = .ok c') : c'.attachment = c.attachment := by
  rw [completeHandshake] at h
  split at h
  · cases h
  · cases h
    let told := (c.push .initialized).syncDocuments.2
    exact ((attachment_pushAll _ told.queue).trans (told.attachment_pushAll _)).trans
      (c.attachment_push _)

theorem attachment_happen (transport : Nat) (event : Channel.Event) :
    (c.act (.happen transport event)).attachment = c.attachment := by
  have hsame : ∀ channel : Channel Unit,
      (channel.happen event).subscribers = channel.subscribers := by
    intro channel
    cases event with
    | take =>
      rw [Channel.happen, Channel.take?]
      cases channel.waiting <;> rfl
    | close | refuse on | dropServer => rfl
  simp only [act, adjustTransport, attachment, Attachment.mk.injEq, true_and]
  funext t
  by_cases ht : transport = t
  · subst ht
    rw [subscriptions, Table.get?_adjust_self, subscriptions]
    cases Table.get? transport c.transports with
    | none => rfl
    | some channel => exact congrArg (List.map Prod.fst) (hsame channel)
  · simp [subscriptions, Table.get?_adjust_of_ne ht]

end Kept

section Changed

variable (c : Client)

theorem attachment_teardown : c.teardown.attachment = c.attachment.letGo := by
  have hseat : c.attachment.seat? = c.line?.map fun l => (l.transport, l.subscription) := by
    rw [line?, Option.map_bind]
    rfl
  rw [teardown]
  dsimp only
  split
  next hline =>
    change c.line? = none at hline
    rw [hline] at hseat
    rw [Attachment.letGo, hseat]
    rfl
  next l hline =>
    change c.line? = some l at hline
    rw [hline] at hseat
    rw [Attachment.letGo, hseat]
    simp only [attachment, adjustTransport, Option.map_some, Attachment.mk.injEq, true_and]
    funext t
    by_cases ht : l.transport = t
    · subst ht
      rw [subscriptions, Table.get?_adjust_self, subscriptions, if_pos rfl]
      cases Table.get? l.transport c.transports with
      | none => rfl
      | some channel => simp [Channel.unsubscribe, List.filter_map, Function.comp_def]
    · simp [subscriptions, Table.get?_adjust_of_ne ht, ht]

theorem attachment_beginConnect (transport : Nat) : ∃ g s,
    (c.beginConnect transport).2.2.attachment = c.attachment.letGo.attach g transport s := by
  have hattach : ∃ g s,
      (c.attach transport).attachment = c.attachment.letGo.attach g transport s := by
    rw [← attachment_teardown]
    let channel := (Table.get? transport c.teardown.transports).getD .new
    refine ⟨c.teardown.generation, channel.nextSubscription, ?_⟩
    simp only [attach, attachment, Attachment.attach, Attachment.mk.injEq, true_and]
    constructor
    · funext g
      by_cases hg : c.teardown.generation = g
      · subst hg
        simp [Channel.subscribe, channel]
      · rw [Table.get?_put_of_ne hg, if_neg hg]
    · funext t
      by_cases ht : transport = t
      · subst ht
        rw [subscriptions, Table.get?_put_self, subscriptions, if_pos rfl]
        cases hchannel : Table.get? transport c.teardown.transports <;>
          simp [Channel.subscribe, channel, hchannel, Channel.new]
      · simp [subscriptions, Table.get?_put_of_ne ht, ht]
  obtain ⟨g, s, hattach⟩ := hattach
  exact ⟨g, s, (attachment_push _ _).trans hattach⟩

theorem attachment_finishConnect (generation : Nat) (outcome : Outcome) :
    (c.finishConnect generation outcome).2.attachment = c.attachment ∨
      (c.finishConnect generation outcome).2.attachment = c.attachment.letGo := by
  cases c.finishCourse generation outcome with
  | @fails _ gate _ _ hfinish =>
    rw [hfinish, detach]
    split
    · exact .inr (attachment_teardown { c with gate })
    · exact .inl rfl
  | completes _ _ hdone hfinish =>
    rw [hfinish]
    exact .inl (attachment_of_completeHandshake hdone :)

theorem attachment_beginShutdown :
    (c.act .beginShutdown).attachment = c.attachment ∨
      (c.act .beginShutdown).attachment = c.attachment.letGo := by
  rw [act]
  cases c.shutdownCourse with
  | asks _ hstart hshutdown =>
    rw [hshutdown]
    exact .inl (attachment_of_startRequest hstart)
  | letsGo _ hshutdown =>
    rw [hshutdown]
    exact .inr c.attachment_teardown

end Changed

def addsNew (c : Client) : Act → Bool
  | .addTransport transport => !Table.contains transport c.transports
  | _ => true

def addsNewIn : List Act → Client → Bool
  | [], _ => true
  | a :: rest, c => c.addsNew a && addsNewIn rest (c.act a)

theorem attachment_addTransport {c : Client} {transport : Nat}
    (h : c.addsNew (.addTransport transport) = true) :
    (c.act (.addTransport transport)).attachment = c.attachment := by
  have hnone : Table.get? transport c.transports = none := by
    simpa [addsNew, Table.contains] using h
  simp only [act, attachment, Attachment.mk.injEq, true_and]
  funext t
  by_cases ht : transport = t
  · subst ht
    simp [subscriptions, hnone, Channel.new]
  · simp [subscriptions, Table.get?_put_of_ne ht]

theorem attachment_act {c : Client} {a : Act} (h : c.addsNew a = true) :
    (c.act a).attachment = c.attachment ∨ (c.act a).attachment = c.attachment.letGo ∨
      ∃ g t s, (c.act a).attachment = c.attachment.letGo.attach g t s := by
  cases a with
  | openFile uri languageId text => exact .inl (c.attachment_openFile uri languageId text)
  | openBehind uri languageId text =>
    rw [act]
    cases c.documents.openFile uri languageId text <;> exact .inl rfl
  | closeFile uri => exact .inl (c.attachment_closeFile uri)
  | updateFile uri edits =>
    rw [act, updateFile]
    cases c.documents.updateFile uri edits <;> exact .inl rfl
  | replaceText uri text =>
    rw [act, replaceText]
    cases c.documents.replaceText uri text <;> exact .inl rfl
  | sync => exact .inl c.attachment_sync
  | startMapped method params key => exact .inl (c.attachment_startMapped method params key)
  | finishMapped call m outcome =>
    rw [act, finishMapped]
    cases call.shape.ofOutcome outcome <;> exact .inl rfl
  | beginConnect transport =>
    obtain ⟨g, s, hbegin⟩ := c.attachment_beginConnect transport
    exact .inr (.inr ⟨g, transport, s, hbegin⟩)
  | finishConnect generation outcome =>
    exact (c.attachment_finishConnect generation outcome).imp_right .inl
  | disconnect => exact .inr (.inl c.attachment_teardown)
  | beginShutdown => exact c.attachment_beginShutdown.imp_right .inl
  | afterShutdown outcome =>
    rw [act, afterShutdown]
    split
    · exact .inl (c.attachment_enqueue _)
    · exact .inl rfl
  | request method params key =>
    rw [act]
    cases hstart : c.startRequest method params key with
    | error e => exact .inl rfl
    | ok r => exact .inl (attachment_of_startRequest hstart)
  | notify method params => exact .inl (c.attachment_enqueue _)
  | cancel key => exact .inl (c.attachment_cancel key)
  | write now => exact .inl (c.attachment_write now)
  | receive raw => exact .inl (c.attachment_receive raw)
  | respond id answer => exact .inl (c.attachment_push _)
  | onNotification method handler =>
    rw [act, onNotification]
    split <;> exact .inl rfl
  | onRequest method handler =>
    rw [act, onRequest]
    split <;> exact .inl rfl
  | addTransport transport => exact .inl (attachment_addTransport h)
  | happen transport event => exact .inl (c.attachment_happen transport event)
  | startMapping | release | forget | sweep | removeNotificationHandler | onUnhandled => exact .inl rfl

theorem sole_act {c : Client} {a : Act} (h : c.attachment.Sole) (hnew : c.addsNew a = true) :
    (c.act a).attachment.Sole := by
  obtain heq | heq | ⟨g, t, s, heq⟩ := attachment_act hnew
  · exact heq ▸ h
  · exact heq ▸ h.letGo
  · exact heq ▸ h.letGo.attach rfl g t s

theorem sole_run {c : Client} {acts : List Act} (h : c.attachment.Sole)
    (hnew : addsNewIn acts c = true) : (c.run acts).attachment.Sole := by
  induction acts generalizing c with
  | nil => exact h
  | cons a rest ih =>
    obtain ⟨ha, hrest⟩ := Bool.and_eq_true_iff.mp hnew
    exact ih (sole_act h ha) hrest

theorem sole_new (settings : Settings) (policy : HolderPolicy) (processId : Nat) (hashing : Hashing) :
    (new settings policy processId hashing).attachment.Sole where
  seated g hg := by cases hg
  subscribed t := rfl

end Client

end LanguageClient
