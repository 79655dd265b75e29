import LanguageClient.Proofs.Client.Dealings
import LanguageClient.Proofs.Client.Queue

namespace LanguageClient

namespace RequestTable

variable {t : RequestTable} {key : String} {id : Nat}

theorem exists_of_findKey? {state : RequestState} (h : t.findKey? key = some (id, state)) :
    ∃ r, t.get? id = some r ∧ r.key = some key ∧ r.state = state := by
  obtain ⟨id', -, hfind⟩ := List.exists_of_findSome?_eq_some h
  obtain ⟨r, hr, heq⟩ := Option.map_eq_some_iff.mp hfind
  obtain ⟨hr, hkey⟩ := Option.filter_eq_some_iff.mp hr
  cases heq
  exact ⟨r, hr, eq_of_beq hkey, rfl⟩

theorem findKey?_of_unused (h : ∀ id r, t.get? id = some r → r.key ≠ some key) :
    t.findKey? key = none := by
  cases hfind : t.findKey? key with
  | none => rfl
  | some found =>
    obtain ⟨r, hr, hkey, -⟩ := exists_of_findKey? hfind
    exact absurd hkey (h _ r hr)

theorem findKey?_of_unique {r : LiveRequest} (hr : t.get? id = some r) (hkey : r.key = some key)
    (hunique : ∀ id' r', t.get? id' = some r' → r'.key = some key → id' = id) :
    t.findKey? key = some (id, r.state) := by
  cases hfind : t.findKey? key with
  | none =>
    have hscan : id ∈ t.scan := mem_scan.mpr (List.mem_map_of_mem (Table.mem_of_get? hr))
    have hnone := List.findSome?_eq_none_iff.mp hfind id hscan
    have hfilter : (t.get? id).filter (·.key == some key) = some r :=
      Option.filter_eq_some_iff.mpr ⟨hr, beq_iff_eq.mpr hkey⟩
    rw [hfilter] at hnone
    cases hnone
  | some found =>
    obtain ⟨r', hr', hkey', hstate⟩ := exists_of_findKey? hfind
    have hid : found.1 = id := hunique _ r' hr' hkey'
    rw [hid] at hr'
    cases hr.symm.trans hr'
    rw [← hid, hstate]

end RequestTable

namespace Client

open RequestTable (Move Fate)

theorem slot_of_line {c : Client} {g : Nat} {l : Line} (hl : Table.get? g c.lines = some l) :
    c.traffic.slot (some g) = l.pushed :=
  congrArg (Option.getD · []) (congrArg (Option.map Line.pushed) hl)

structure Orderly (c : Client) : Prop where
  tied : c.bond.Tied
  single : c.traffic.Single
  placed : ∃ log, c.traffic.Placed log
  forsaken : c.traffic.Forsaken
  sorted : c.requests.live.Sorted

theorem orderly_new (settings : Settings) (policy : HolderPolicy) (processId : Nat) (hashing : Hashing) :
    (new settings policy processId hashing).Orderly where
  tied := tied_new ..
  single := single_new ..
  placed := ⟨_, placed_new ..⟩
  forsaken := (placed_run settings policy processId hashing []).2
  sorted := RequestTable.sorted_empty

namespace Orderly

variable {c : Client} (h : c.Orderly)
include h

theorem act (a : Act) : (c.act a).Orderly where
  tied := h.tied.step (c.bond_step a)
  single := h.single.step (step_act a)
  placed := by
    obtain ⟨log, hplaced⟩ := h.placed
    exact ⟨_, hplaced.step (step_act a)⟩
  forsaken := by
    obtain ⟨log, hplaced⟩ := h.placed
    exact h.forsaken.step hplaced (step_act a)
  sorted := sorted_act h.sorted a

theorem run (acts : List Act) : (c.run acts).Orderly := by
  induction acts generalizing c with
  | nil => exact h
  | cons a rest ih => exact ih (h.act a)

theorem not_queued_of_next {g id : Nat} {l : Line} {f : Frame}
    (hnext : c.nextFrame? = some (g, l, f)) (hid : f.requestId? = some id) : id ∉ c.queuedIds := by
  intro hqueued
  obtain ⟨-, hl, rest, hrest⟩ := nextFrame?_eq_some hnext
  have hmem : f ∈ l.pushed := List.mem_of_mem_drop (hrest ▸ List.mem_cons_self)
  have hline : id ∈ Frame.ids (c.traffic.slot (some g)) := by
    rw [slot_of_line hl]
    exact List.mem_filterMap.mpr ⟨f, hmem, hid⟩
  cases h.single.apart none (some g) id hqueued hline

section Live

variable {id : Nat} {r : LiveRequest} (hr : c.requests.get? id = some r)
include hr

theorem mem_places : id ∈ c.queuedIds ++ (c.traffic.written ++ c.traffic.waiting) := by
  obtain ⟨log, hplaced⟩ := h.placed
  have hclock : c.traffic.clock id = some r.deadline := congrArg (Option.map LiveRequest.deadline) hr
  rw [List.mem_append, List.mem_append]
  obtain ⟨hid, -⟩ | ⟨hid, -⟩ | ⟨hid, -⟩ := hplaced.place id r.deadline hclock
  · exact .inl hid
  · exact .inr (.inr hid)
  · exact .inr (.inl hid)

theorem lt_nextId : id < c.requests.nextId := by
  obtain ⟨log, hplaced⟩ := h.placed
  exact hplaced.fresh id (h.mem_places hr)

theorem exists_line (hsent : id ∉ c.queuedIds) : ∃ g l, c.attached = some g ∧
    Table.get? g c.lines = some l ∧ id ∈ Frame.ids l.pushed := by
  have hline : id ∈ c.traffic.written ++ c.traffic.waiting :=
    (List.mem_append.mp (h.mem_places hr)).resolve_left hsent
  obtain ⟨l, hl⟩ := exists_line?_of_mem hline
  obtain ⟨g, hg, hget⟩ := Option.bind_eq_some_iff.mp hl
  refine ⟨g, l, hg, hget, ?_⟩
  rw [Traffic.written, Traffic.waiting, ← Frame.ids_append, List.take_append_drop,
    (told_traffic hl).1] at hline
  exact hline

theorem exists_line_act (hsent : id ∉ c.queuedIds) {a : Act} {r' : LiveRequest}
    (hlive : (c.act a).requests.get? id = some r') : ∃ g l l', c.attached = some g ∧
      (c.act a).attached = some g ∧ Table.get? g c.lines = some l ∧
      Table.get? g (c.act a).lines = some l' ∧ id ∈ Frame.ids l.pushed ∧
      l'.pushed = l.pushed ++ c.tells a := by
  obtain ⟨g, l, hg, hl, hid⟩ := h.exists_line hr hsent
  have hle : g ≤ c.generation := Nat.le_of_eq (h.tied.latest g hg).symm
  have htold : c.wire.pushed g = some l.pushed := congrArg (Option.map Line.pushed) hl
  have hpushed := pushed_act (a := a) hle
  rw [if_pos hg, htold] at hpushed
  obtain ⟨l', hl', hpushed'⟩ := Option.map_eq_some_iff.mp hpushed
  refine ⟨g, l, l', hg, ?_, hl, hl', hid, hpushed'⟩
  refine Decidable.byContradiction fun hlost => ?_
  have hdead := (h.act a).forsaken g _ hpushed hlost id
    (by rw [Frame.ids_append]; exact List.mem_append_left _ hid)
  cases hdead.1.symm.trans (congrArg (Option.map LiveRequest.deadline) hlive)

end Live

theorem of_live_act {a : Act} {id : Nat} {r' : LiveRequest}
    (hlive : (c.act a).requests.get? id = some r') :
    (∃ r, c.requests.get? id = some r ∧
        ((c.dealings a).foldl (Fate.move id) (.live r)).live? = some r') ∨
      r'.state = .queued ∧ c.requests.get? id = none ∧
        (r'.key = none ∨ ∃ notices method params,
          c.deed a = .speak notices [.request id method params] []) := by
  cases hr : c.requests.get? id with
  | some r =>
    refine .inl ⟨r, rfl, ?_⟩
    rw [← get?_act (f := .live r) h.sorted (h.lt_nextId hr) hr]
    exact hlive
  | none =>
    obtain ⟨called, hact⟩ := deals_act (c := c) a
    rw [hact] at hlive
    obtain ⟨before, method, timeout, key, after, hmoves, hid, hafter⟩ :=
      RequestTable.exists_create_of_get?_run h.sorted hr hlive
    have hcreate : c.Dealing a (.create method timeout key) :=
      dealing_of_mem (hmoves ▸ List.mem_append_right _ List.mem_cons_self)
    have hquiet : ∀ mv ∈ after, c.Dealing a mv := fun mv hmv =>
      dealing_of_mem (hmoves ▸ List.mem_append_right _ (List.mem_cons_of_mem _ hmv))
    cases hcreate with
    | greet =>
      refine .inr ⟨?_, rfl, .inl (Fate.key_of_live?_foldl hafter)⟩
      refine congrArg LiveRequest.state
        (Fate.eq_of_live?_foldl hafter (fun now hmv => ?_) fun hmv => ?_)
      · cases hquiet _ hmv
      · cases hquiet _ hmv
    | make hdeed honly =>
      obtain ⟨rfl, rfl⟩ : before = [] ∧ after = [] := by
        rw [honly] at hmoves
        cases before with
        | nil => exact ⟨rfl, (List.cons.inj hmoves).2.symm⟩
        | cons mv rest => simp at hmoves
      cases hafter
      exact .inr ⟨rfl, rfl, .inr ⟨_, _, _, hid ▸ hdeed⟩⟩

end Orderly

/-- The states of live requests agree with the places of their frames. -/
structure Agrees (c : Client) : Prop where
  queued : ∀ {id r}, c.requests.get? id = some r → id ∈ c.queuedIds → r.state = .queued
  ready : ∀ {id r}, c.requests.get? id = some r → id ∉ c.queuedIds → r.key.isSome →
    c.isReady = true
  asked : ∀ {id r}, c.requests.get? id = some r → r.state = .cancelRequested →
    ∃ g l before after, c.attached = some g ∧ Table.get? g c.lines = some l ∧
      l.pushed = before ++ .cancelRequest id :: after ∧ id ∈ Frame.ids before

section Act

variable {c : Client} {a : Act} {id : Nat}

theorem of_left_queue (htied : c.bond.Tied) (hid : id ∈ c.queuedIds)
    (hleft : id ∉ (c.act a).queuedIds) : id ∈ c.withdrawn a ∨ c.greets a = true := by
  refine (Decidable.em (id ∈ c.withdrawn a)).imp_right fun hkept => ?_
  refine Decidable.byContradiction fun hquiet => hleft ?_
  obtain ⟨f, hf, hfid⟩ := List.mem_filterMap.mp hid
  have hspared : f ∈ (c.queue ++ c.held a).filter (Frame.isSpared (c.withdrawn a)) := by
    refine List.mem_filter.mpr ⟨List.mem_append_left _ hf, ?_⟩
    simpa [Frame.isSpared, hfid] using hkept
  rw [queue_act htied, flushed, if_neg hquiet] at hspared
  exact List.mem_filterMap.mpr ⟨f, hspared, hfid⟩

theorem dealings_of_withdrawn (h : id ∈ c.withdrawn a) :
    c.dealings a = [.reject id .cancelled] := by
  cases a with
  | cancel key =>
    rw [withdrawn, deed] at h
    rw [dealings, cancelling]
    cases hfind : c.requests.findKey? key with
    | none =>
      rw [hfind] at h
      cases h
    | some found =>
      rw [hfind] at h
      dsimp only at h ⊢
      split at h
      next hqueued =>
        cases List.mem_singleton.mp h
        exact if_pos hqueued
      next => split at h <;> cases h
  | _ =>
    rw [withdrawn, deed] at h
    repeat' split at h
    all_goals cases h

theorem isReady_act_of_greets (h : c.greets a = true) : (c.act a).isReady = true := by
  rw [greets_eq] at h
  obtain ⟨generation, outcome, rfl, hcompletes⟩ := exists_of_completes h
  have hwire := c.wire_finishConnect generation outcome
  rw [if_pos hcompletes] at hwire
  have hattached : c.attached.isSome = true := by
    cases outcome with
    | error e => cases hcompletes
    | ok v => exact (Bool.and_eq_true_iff.mp hcompletes).2
  rw [← isReady_wire]
  exact (congrArg Wire.isReady hwire).trans ((Bool.and_true _).trans hattached)

theorem ready_or_queued_of_deed {notices : List Frame} {method : String} {params : Option Json}
    (h : c.deed a = .speak notices [.request id method params] []) :
    (c.act a).isReady = true ∨ id ∈ (c.act a).queuedIds := by
  obtain ⟨s, p, hwire⟩ := (does_act (c := c) a).wire
  rw [h, Wire.after] at hwire
  split at hwire
  next hready =>
    left
    rw [← isReady_wire, hwire]
    exact hready
  next =>
    right
    have hqueue : (c.act a).queue = c.queue ++ [.request id method params] :=
      congrArg Wire.queue hwire
    rw [queuedIds, hqueue, List.filterMap_append]
    exact List.mem_append_right _ List.mem_cons_self

end Act

namespace Agrees

variable {c : Client} {a : Act} {id : Nat} (h : c.Orderly) (hagrees : c.Agrees)
include h hagrees

theorem queued_act {r' : LiveRequest} (hlive : (c.act a).requests.get? id = some r')
    (hid : id ∈ (c.act a).queuedIds) : r'.state = .queued := by
  obtain ⟨r, hr, hfate⟩ | ⟨hstate, -⟩ := h.of_live_act hlive
  · have hwas : id ∈ c.queuedIds :=
      (queuedIds_act h.tied hid).resolve_right (Nat.not_le_of_lt (h.lt_nextId hr))
    have hstate : r.state = .queued := hagrees.queued hr hwas
    have hsame : r' = r := by
      refine Fate.eq_of_live?_foldl hfate (fun now hmv => ?_) fun hmv => ?_
      · cases dealing_of_mem hmv with
        | write hnext hfid => exact h.not_queued_of_next hnext hfid hwas
      · cases dealing_of_mem hmv with
        | ask hfind hsent hnew =>
          obtain ⟨r₀, hr₀, -, rfl⟩ := RequestTable.exists_of_findKey? hfind
          cases hr.symm.trans hr₀
          exact hsent ⟨hstate, List.contains_iff_mem.mpr hwas⟩
    rw [hsame, hstate]
  · exact hstate

theorem ready_act {r' : LiveRequest} (hlive : (c.act a).requests.get? id = some r')
    (hsent : id ∉ (c.act a).queuedIds) (hkey : r'.key.isSome) : (c.act a).isReady = true := by
  obtain ⟨r, hr, hfate⟩ | ⟨-, -, hnone | ⟨notices, method, params, hdeed⟩⟩ := h.of_live_act hlive
  · by_cases hwas : id ∈ c.queuedIds
    · obtain hwithdrawn | hgreets := of_left_queue h.tied hwas hsent
      · rw [dealings_of_withdrawn hwithdrawn, List.foldl_cons, Fate.move, RequestTable.outcome?,
          if_pos rfl] at hfate
        cases hfate
      · exact isReady_act_of_greets hgreets
    · rw [Fate.key_of_live?_foldl hfate] at hkey
      have hready := hagrees.ready hr hwas hkey
      obtain ⟨g, -, -, hg, hg', -⟩ := h.exists_line_act hr hwas hlive
      have hkept := (of_attached_act (Nat.le_of_eq (h.tied.latest g hg).symm) hg').2
      rw [isReady, hg', hkept, (Bool.and_eq_true_iff.mp hready).2]
      rfl
  · rw [hnone] at hkey
    cases hkey
  · exact (ready_or_queued_of_deed hdeed).resolve_right hsent

omit h in
theorem tells_of_asked {r : LiveRequest} (hr : c.requests.get? id = some r)
    (hasked : .requestCancel id ∈ c.dealings a) :
    id ∉ c.queuedIds ∧ c.tells a = [.cancelRequest id] := by
  cases dealing_of_mem hasked with
  | ask hfind hsent hnew =>
    obtain ⟨r₀, hr₀, hkey, rfl⟩ := RequestTable.exists_of_findKey? hfind
    cases hr.symm.trans hr₀
    have hid : id ∉ c.queuedIds := fun hid =>
      hsent ⟨hagrees.queued hr hid, List.contains_iff_mem.mpr hid⟩
    have hready : c.isReady = true := hagrees.ready hr hid (by rw [hkey]; rfl)
    refine ⟨hid, ?_⟩
    rw [tells, deed, hfind]
    dsimp only
    rw [if_neg hsent, if_neg hnew]
    exact if_pos hready

theorem asked_act {r' : LiveRequest} (hlive : (c.act a).requests.get? id = some r')
    (hstate : r'.state = .cancelRequested) :
    ∃ g l before after, (c.act a).attached = some g ∧ Table.get? g (c.act a).lines = some l ∧
      l.pushed = before ++ .cancelRequest id :: after ∧ id ∈ Frame.ids before := by
  obtain ⟨r, hr, hfate⟩ | ⟨hnew, -⟩ := h.of_live_act hlive
  · obtain hwas | hasked := (Fate.cancelRequested_iff_of_live?_foldl hfate).mp hstate
    · have hid : id ∉ c.queuedIds := fun hid => by
        cases hwas.symm.trans (hagrees.queued hr hid)
      obtain ⟨g₀, l₀, before, after, hg₀, hl₀, hpushed₀, hbefore⟩ := hagrees.asked hr hwas
      obtain ⟨g, l, l', hg, hg', hl, hl', -, hpushed⟩ := h.exists_line_act hr hid hlive
      cases hg₀.symm.trans hg
      cases hl₀.symm.trans hl
      refine ⟨g₀, l', before, after ++ c.tells a, hg', hl', ?_, hbefore⟩
      rw [hpushed, hpushed₀, List.append_assoc]
      rfl
    · obtain ⟨hid, htells⟩ := hagrees.tells_of_asked hr hasked
      obtain ⟨g, l, l', hg, hg', hl, hl', hmem, hpushed⟩ := h.exists_line_act hr hid hlive
      exact ⟨g, l', l.pushed, [], hg', hl', hpushed.trans (by rw [htells]), hmem⟩
  · cases hstate.symm.trans hnew

theorem act (a : Act) : (c.act a).Agrees where
  queued hlive hid := hagrees.queued_act h hlive hid
  ready hlive hid hkey := hagrees.ready_act h hlive hid hkey
  asked hlive hstate := hagrees.asked_act h hlive hstate

theorem run (acts : List Act) : (c.run acts).Agrees := by
  induction acts generalizing c with
  | nil => exact hagrees
  | cons a rest ih => exact ih (h.act a) (hagrees.act h a)

end Agrees

theorem agrees_new (settings : Settings) (policy : HolderPolicy) (processId : Nat) (hashing : Hashing) :
    (new settings policy processId hashing).Agrees where
  queued hr := by cases hr
  ready hr := by cases hr
  asked hr := by cases hr

section Once

variable {c : Client} {a : Act} {id : Nat}

def asksFor (c : Client) (a : Act) : List Nat :=
  (c.dealings a).filterMap fun
    | .requestCancel id => some id
    | _ => none

theorem mem_asksFor_iff : id ∈ c.asksFor a ↔ .requestCancel id ∈ c.dealings a := by
  rw [asksFor, List.mem_filterMap]
  constructor
  · rintro ⟨mv, hmv, h⟩
    split at h
    next => exact Option.some.inj h ▸ hmv
    next => cases h
  · exact fun h => ⟨_, h, rfl⟩

theorem asksFor_eq_of_mem (h : id ∈ c.asksFor a) : c.asksFor a = [id] := by
  cases dealing_of_mem (mem_asksFor_iff.mp h) with
  | ask hfind hsent hnew =>
    rw [asksFor, dealings, cancelling, hfind]
    dsimp only
    rw [if_neg hsent, if_neg hnew]
    rfl

def IsDone (c : Client) (id : Nat) : Prop :=
  id < c.requests.nextId ∧ ∀ r, c.requests.get? id = some r → r.state = .cancelRequested

theorem get?_act_of_none (h : c.Orderly) (hid : id < c.requests.nextId)
    (hnone : c.requests.get? id = none) (a : Act) : (c.act a).requests.get? id = none := by
  have hget := get?_act (f := .settled (.error .notConnected)) h.sorted hid hnone a
  rwa [Fate.foldl_settled] at hget

theorem get?_run_of_none (h : c.Orderly) (hid : id < c.requests.nextId)
    (hnone : c.requests.get? id = none) (acts : List Act) : (c.run acts).requests.get? id = none := by
  induction acts generalizing c with
  | nil => exact hnone
  | cons a rest ih => exact ih (h.act a) (lt_nextId_act hid a) (get?_act_of_none h hid hnone a)

theorem isDone_act_of_mem (h : c.Orderly) (hasked : id ∈ c.asksFor a) : (c.act a).IsDone id := by
  have hmem := mem_asksFor_iff.mp hasked
  obtain ⟨r, hr⟩ : ∃ r, c.requests.get? id = some r := by
    cases dealing_of_mem hmem with
    | ask hfind =>
      obtain ⟨r, hr, -⟩ := RequestTable.exists_of_findKey? hfind
      exact ⟨r, hr⟩
  refine ⟨lt_nextId_act (h.lt_nextId hr) a, fun r' hr' => ?_⟩
  rw [get?_act (f := .live r) h.sorted (h.lt_nextId hr) hr] at hr'
  exact (Fate.cancelRequested_iff_of_live?_foldl hr').mpr (.inr hmem)

theorem IsDone.act (hdone : c.IsDone id) (h : c.Orderly) (a : Act) : (c.act a).IsDone id := by
  refine ⟨lt_nextId_act hdone.1 a, fun r' hr' => ?_⟩
  cases hr : c.requests.get? id with
  | none => cases (get?_act_of_none h hdone.1 hr a).symm.trans hr'
  | some r =>
    rw [get?_act (f := .live r) h.sorted hdone.1 hr] at hr'
    exact (Fate.cancelRequested_iff_of_live?_foldl hr').mpr (.inl (hdone.2 r hr))

theorem IsDone.not_mem (hdone : c.IsDone id) (h : c.Orderly) (acts : List Act) :
    id ∉ gather asksFor acts c := by
  induction acts generalizing c with
  | nil => exact List.not_mem_nil
  | cons a rest ih =>
    rw [gather, List.mem_append, not_or]
    refine ⟨fun hasked => ?_, ih (hdone.act h a) (h.act a)⟩
    cases dealing_of_mem (mem_asksFor_iff.mp hasked) with
    | ask hfind hsent hnew =>
      obtain ⟨r, hr, -, rfl⟩ := RequestTable.exists_of_findKey? hfind
      exact hnew (hdone.2 r hr)

theorem IsDone.run (hdone : c.IsDone id) (h : c.Orderly) (acts : List Act) : (c.run acts).IsDone id := by
  induction acts generalizing c with
  | nil => exact hdone
  | cons a rest ih => exact ih (hdone.act h a) (h.act a)

theorem isDone_run_of_mem (h : c.Orderly) {acts : List Act} (hasked : id ∈ gather asksFor acts c) :
    (c.run acts).IsDone id := by
  induction acts generalizing c with
  | nil => cases hasked
  | cons a rest ih =>
    rw [gather, List.mem_append] at hasked
    obtain hnow | hlater := hasked
    · exact (isDone_act_of_mem h hnow).run (h.act a) rest
    · exact ih (h.act a) hlater

theorem count_asksFor_le (h : c.Orderly) (acts : List Act) (id : Nat) :
    (gather asksFor acts c).count id ≤ 1 := by
  induction acts generalizing c with
  | nil => exact Nat.zero_le _
  | cons a rest ih =>
    rw [gather, List.count_append]
    by_cases hasked : id ∈ c.asksFor a
    · have hrest : (gather asksFor rest (c.act a)).count id = 0 :=
        List.count_eq_zero.mpr ((isDone_act_of_mem h hasked).not_mem (h.act a) rest)
      exact Nat.le_of_eq (by rw [asksFor_eq_of_mem hasked, hrest, List.count_singleton_self])
    · rw [List.count_eq_zero.mpr hasked, Nat.zero_add]
      exact ih (h.act a)

end Once

section Said

variable {c : Client} {a : Act} {id : Nat}

def Act.notifies (f : Frame) : Act → Bool
  | .notify method params => .notification method params = f
  | _ => false

theorem count_changes : c.changes.count (.cancelRequest id) = 0 := by
  refine List.count_eq_zero.mpr fun hmem => ?_
  rw [changes] at hmem
  split at hmem
  · cases hmem
  · obtain ⟨b, -, heq⟩ := List.mem_map.mp hmem
    simp [changeFrame, Frame.didChange, Frame.cancelRequest] at heq

theorem count_asks (method : String) (params : Option Json) :
    (c.asks method params).count (.cancelRequest id) = 0 := by
  rw [asks]
  split
  · rfl
  · exact List.count_eq_zero.mpr fun hmem => by cases List.mem_singleton.mp hmem

theorem count_greeting : c.greeting.count (.cancelRequest id) = 0 := by
  refine List.count_eq_zero.mpr fun hmem => ?_
  obtain heq | hmem := List.mem_cons.mp hmem
  · simp [Frame.initialized, Frame.cancelRequest] at heq
  · obtain ⟨e, -, heq⟩ := List.mem_map.mp hmem
    simp [Frame.didOpen, Frame.cancelRequest] at heq

theorem count_replies (raw : String) : (c.replies raw).count (.cancelRequest id) = 0 := by
  refine List.count_eq_zero.mpr fun hmem => ?_
  rw [replies] at hmem
  repeat' split at hmem
  all_goals first | cases hmem; done | cases List.mem_singleton.mp hmem

end Said

end Client

theorem Frame.cancelRequest_injective : Function.Injective Frame.cancelRequest := by
  intro id id' h
  refine Int.ofNat.inj ?_
  simpa [cancelRequest, CancelParams.toJson, RequestId.toJson, Json.ofFields, Table.ofEntries,
    Table.put, Json.ofNat] using h

def Deed.said : Deed → List Frame
  | .speak notices calls answers => notices ++ (calls ++ answers)
  | .complete greeting => greeting
  | _ => []

theorem Wire.count_tells_le (w : Wire) (d : Deed) (f : Frame) :
    (w.tells d ++ (w.after d).queue).count f ≤ w.queue.count f + d.said.count f := by
  rw [w.queue_after]
  cases d with
  | speak notices calls answers =>
    have htells : w.tells (.speak notices calls answers) =
        if w.isReady then notices ++ (calls ++ answers) else answers := rfl
    rw [htells, Deed.said]
    dsimp only
    split <;> simp only [List.count_append] <;> omega
  | withdraw id =>
    have htells : w.tells (.withdraw id) = [] := ite_self _
    rw [htells]
    exact Nat.le_add_right_of_le (List.Sublist.count_le f List.filter_sublist)
  | complete greeting =>
    rw [tells, List.append_nil, List.count_append, Nat.add_comm]
    exact Nat.le_refl _
  | write g | attach first | letGo =>
    have htells : ∀ d : Deed, d.frames = [] → d.answers = [] → (if w.isReady then d.frames else
        d.answers) = [] := fun d hframes hanswers => by rw [hframes, hanswers, ite_self]
    refine Nat.le_of_eq ?_
    rw [List.count_append]
    exact (Nat.add_comm _ _).trans (congrArg (_ + List.count f ·) (htells _ rfl rfl))

namespace Client

section Count

variable {c : Client} {id : Nat}

theorem count_said_cancel_le (key : String) :
    (c.deed (.cancel key)).said.count (.cancelRequest id) ≤ (c.asksFor (.cancel key)).count id := by
  rw [deed, asksFor, dealings, cancelling]
  cases c.requests.findKey? key with
  | none => exact Nat.zero_le _
  | some found =>
    obtain ⟨id', state⟩ := found
    dsimp only
    split
    · exact Nat.zero_le _
    · split
      · exact Nat.zero_le _
      · by_cases heq : id' = id
        · subst heq
          simp [Deed.said]
        · have hne : Frame.cancelRequest id' ≠ .cancelRequest id := fun h =>
            heq (Frame.cancelRequest_injective h)
          simp [Deed.said, hne, heq]

theorem count_said_le (a : Act) :
    (c.deed a).said.count (.cancelRequest id) ≤
      (c.asksFor a).count id + if a.notifies (.cancelRequest id) then 1 else 0 := by
  cases a with
  | cancel key => exact Nat.le_add_right_of_le (count_said_cancel_le key)
  | notify method params =>
    refine Nat.le_add_left_of_le ?_
    by_cases heq : Frame.notification method params = .cancelRequest id
    · simp [deed, Deed.said, Act.notifies, heq]
    · simp [deed, Deed.said, Act.notifies, heq]
  | openFile uri languageId text =>
    rw [deed]
    split <;> simp [Deed.said, Deed.quiet, Frame.didOpen, Frame.cancelRequest]
  | closeFile uri =>
    rw [deed]
    split <;> simp [Deed.said, Deed.quiet, Frame.didClose, Frame.cancelRequest]
  | sync => simp [deed, Deed.said, count_changes]
  | startMapped method params key =>
    rw [deed]
    split <;> simp [Deed.said, Deed.quiet, count_changes, count_asks]
  | finishConnect generation outcome =>
    rw [deed]
    split
    · simp [Deed.said, count_greeting]
    · split <;> simp [Deed.said, Deed.quiet]
  | beginShutdown =>
    rw [deed]
    split <;> simp [Deed.said, count_asks]
  | afterShutdown outcome =>
    rw [deed]
    split <;> simp [Deed.said, Deed.quiet, Frame.cancelRequest]
  | request method params key => simp [deed, Deed.said, count_asks]
  | write now =>
    rw [deed]
    split <;> simp [Deed.said, Deed.quiet]
  | receive raw => simp [deed, Deed.said, count_replies]
  | respond rid answer => simp [deed, Deed.said, Frame.cancelRequest]
  | _ => exact Nat.zero_le _

theorem count_gather_tells_le (acts : List Act) :
    (gather tells acts c ++ (c.run acts).queue).count (.cancelRequest id) ≤
      c.queue.count (.cancelRequest id) +
        ((gather asksFor acts c).count id + acts.countP (Act.notifies (.cancelRequest id))) := by
  induction acts generalizing c with
  | nil => exact Nat.le_refl _
  | cons a rest ih =>
    obtain ⟨s, p, hwire⟩ := (does_act (c := c) a).wire
    have hqueue : (c.act a).queue = (c.wire.after (c.deed a)).queue := congrArg Wire.queue hwire
    have hact := c.wire.count_tells_le (c.deed a) (.cancelRequest id)
    have hsaid : (c.deed a).said.count (.cancelRequest id) ≤ _ := count_said_le a
    have hrest := ih (c := c.act a)
    rw [← hqueue] at hact
    change _ ≤ c.queue.count _ + _ at hact
    rw [gather, gather, List.countP_cons]
    change (c.tells a ++ _ ++ ((c.act a).run rest).queue).count _ ≤ _
    simp only [List.count_append] at hact hrest ⊢
    change (c.tells a).count _ + _ ≤ _ at hact
    omega

end Count

end Client

end LanguageClient
