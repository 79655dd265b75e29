import LanguageClient.Proofs.Request.Update

/-!
What becomes of a request.

It is decided by the calls that name it or select it and by no other request: its `Fate` is what they
make of it one after another, until the first of them settles it. What a call settles is live.
-/

namespace LanguageClient

namespace RequestTable

def resolve (t : RequestTable) (id : Nat) (value : Json) : Bool × RequestTable :=
  (t.contains id, t.settle id (.ok value))

def reject (t : RequestTable) (id : Nat) (error : ClientError) : Bool × RequestTable :=
  (t.contains id, t.settle id (.error error))

inductive Move
  | create (method : String) (timeout : Nat) (key : Option String)
  | dispatch (id now : Nat)
  | resolve (id : Nat) (value : Json)
  | reject (id : Nat) (error : ClientError)
  | requestCancel (id : Nat)
  | sweep (now : Nat)
  | rejectExcept (kept : List Nat)
  | dropHandle (id : Nat)

def Move.ends : Move → Bool
  | .resolve _ _ | .reject _ _ | .sweep _ | .rejectExcept _ => true
  | _ => false

def move (t : RequestTable) : Move → RequestTable
  | .create method timeout key => (t.create method timeout key).2
  | .dispatch id now => t.dispatch id now
  | .resolve id value => (t.resolve id value).2
  | .reject id error => (t.reject id error).2
  | .requestCancel id => t.requestCancel id
  | .sweep now => (t.sweep now).2
  | .rejectExcept kept => (t.rejectExcept kept).2
  | .dropHandle id => t.dropHandle id

def run (t : RequestTable) (moves : List Move) : RequestTable :=
  moves.foldl move t

def created? (t : RequestTable) : Move → Option Nat
  | .create method timeout key => some (t.create method timeout key).1
  | _ => none

def outcome? (id : Nat) (r : LiveRequest) : Move → Option Outcome
  | .resolve id' value => if id' = id then some (.ok value) else none
  | .reject id' error => if id' = id then some (.error error) else none
  | .sweep now => if isOverdue now r then some (.error (.timeout r.method r.timeout)) else none
  | .rejectExcept kept => if id ∈ kept then none else some (.error .notConnected)
  | _ => none

def touched (id : Nat) (r : LiveRequest) : Move → LiveRequest
  | .dispatch id' now => if id' = id then LiveRequest.dispatched r now else r
  | .requestCancel id' => if id' = id then { r with state := .cancelRequested } else r
  | _ => r

inductive Fate
  | live (r : LiveRequest)
  | settled (outcome : Outcome)

namespace Fate

def live? : Fate → Option LiveRequest
  | live r => some r
  | settled _ => none

def outcome? : Fate → Option Outcome
  | live _ => none
  | settled outcome => some outcome

def move (id : Nat) : Fate → Move → Fate
  | live r, mv =>
    match RequestTable.outcome? id r mv with
    | some outcome => settled outcome
    | none => live (touched id r mv)
  | settled outcome, _ => settled outcome

end Fate

/-- The requests that a call settles, in the order in which it does so. -/
def settles (t : RequestTable) : Move → List (Nat × Outcome)
  | .resolve id value => if t.contains id then [(id, .ok value)] else []
  | .reject id error => if t.contains id then [(id, .error error)] else []
  | .sweep now => (t.overdue now).map fun e => (e.1, .error (.timeout e.2.method e.2.timeout))
  | .rejectExcept kept =>
    (t.scan.filter (!kept.contains ·)).map fun id => (id, .error .notConnected)
  | _ => []

variable {t : RequestTable} {id : Nat} {r : LiveRequest} {mv : Move}

section Settles

theorem get?_of_mem_live (ht : t.live.Sorted) : (id, r) ∈ t.live ↔ t.get? id = some r :=
  ⟨ht.get?_of_mem, Table.mem_of_get?⟩

theorem mem_settles_iff (ht : t.live.Sorted) {outcome : Outcome} :
    (id, outcome) ∈ t.settles mv ↔
      ∃ r, t.get? id = some r ∧ RequestTable.outcome? id r mv = some outcome := by
  cases mv with
  | resolve id' value | reject id' value =>
    rw [settles]
    by_cases hlive : t.contains id' = true
    · obtain ⟨r, hr⟩ := t.contains_iff.mp hlive
      simp only [hlive, if_true, List.mem_singleton, Prod.mk.injEq, RequestTable.outcome?]
      constructor
      · rintro ⟨rfl, rfl⟩
        exact ⟨r, hr, if_pos rfl⟩
      · rintro ⟨r', -, h⟩
        split at h
        next heq => exact ⟨heq.symm, (Option.some.inj h).symm⟩
        next => cases h
    · simp only [hlive, Bool.false_eq_true, if_false, List.not_mem_nil, false_iff, not_exists,
        not_and, RequestTable.outcome?]
      intro r hr h
      split at h
      next heq => exact hlive (heq ▸ t.contains_iff.mpr ⟨r, hr⟩)
      next => cases h
  | sweep now =>
    simp only [settles, overdue, List.mem_map, List.mem_filter, Prod.exists, Prod.mk.injEq,
      RequestTable.outcome?, get?_of_mem_live ht]
    constructor
    · rintro ⟨id', r, ⟨hr, hdue⟩, rfl, rfl⟩
      exact ⟨r, hr, if_pos hdue⟩
    · rintro ⟨r, hr, h⟩
      split at h
      next hdue => exact ⟨id, r, ⟨hr, hdue⟩, rfl, Option.some.inj h⟩
      next => cases h
  | rejectExcept kept =>
    simp only [settles, mem_scan, Table.keys, List.mem_map, List.mem_filter, Prod.exists,
      Prod.mk.injEq, RequestTable.outcome?, get?_of_mem_live ht]
    constructor
    · rintro ⟨id', ⟨⟨id'', r, hr, rfl⟩, hlost⟩, rfl, rfl⟩
      exact ⟨r, hr, if_neg (by simpa using hlost)⟩
    · rintro ⟨r, hr, h⟩
      split at h
      next => cases h
      next hlost => exact ⟨id, ⟨⟨id, r, hr, rfl⟩, by simpa using hlost⟩, rfl, Option.some.inj h⟩
  | _ => simp [settles, RequestTable.outcome?]

theorem nodup_keys (ht : t.live.Sorted) : (Table.keys t.live).Nodup :=
  List.pairwise_map.mpr (ht.imp Nat.ne_of_lt)

theorem nodup_scan (ht : t.live.Sorted) : t.scan.Nodup :=
  (t.hashing.perm _ _).nodup_iff.mpr (nodup_keys ht)

theorem nodup_settles (ht : t.live.Sorted) : ((t.settles mv).map Prod.fst).Nodup := by
  cases mv with
  | resolve id value | reject id value =>
    rw [settles]
    split
    · exact List.pairwise_singleton _ _
    · exact List.nodup_nil
  | sweep now =>
    rw [settles, List.map_map]
    exact (nodup_keys ht).sublist (List.Sublist.map _ List.filter_sublist)
  | rejectExcept kept =>
    have hlost := (nodup_scan ht).sublist (List.filter_sublist (p := (!kept.contains ·)))
    simpa only [settles, List.map_map, Function.comp_def, List.map_id'] using hlost
  | _ => exact List.nodup_nil

end Settles

def settleAll (t : RequestTable) (es : List (Nat × Outcome)) : RequestTable :=
  es.foldl (fun t e => t.settle e.1 e.2) t

section SettleAll

variable {other : Nat} {outcome : Outcome} {es : List (Nat × Outcome)}

theorem settle_of_live (h : t.contains id = true) :
    t.settle id outcome =
      { t with
        live := Table.erase id t.live
        settled := ((id, RequestState.ofOutcome outcome) :: t.settled).take memory
        handles := Table.adjust id (fun _ => some outcome) t.handles } :=
  if_pos h

theorem settle_of_not_live (h : t.contains id = false) : t.settle id outcome = t :=
  if_neg (Bool.not_eq_true _ ▸ h)

theorem peek?_settle_self (h : t.contains id = true) :
    (t.settle id outcome).peek? id = (t.peek? id).map fun _ => some outcome := by
  rw [settle_of_live h]
  exact Table.get?_adjust_self id _ t.handles

theorem peek?_settle_of_ne (h : id ≠ other) : (t.settle other outcome).peek? id = t.peek? id := by
  rw [settle]
  split
  · exact Table.get?_adjust_of_ne (Ne.symm h) _ t.handles
  · rfl

theorem contains_settle_of_ne (h : id ≠ other) :
    (t.settle other outcome).contains id = t.contains id :=
  congrArg Option.isSome (t.get?_settle_of_ne h outcome)

theorem get?_settleAll_of_mem (h : id ∈ es.map Prod.fst) : (t.settleAll es).get? id = none := by
  have hclock := congrFun (t.clock_foldl_settle Prod.fst (fun _ e => ⟨e.2, rfl⟩) es) id
  rw [if_pos h] at hclock
  exact Option.map_eq_none_iff.mp hclock

theorem get?_settleAll (h : id ∉ es.map Prod.fst) : (t.settleAll es).get? id = t.get? id :=
  get?_foldl_settle Prod.fst (fun _ e => ⟨e.2, rfl⟩) es h

theorem peek?_settleAll (h : id ∉ es.map Prod.fst) : (t.settleAll es).peek? id = t.peek? id := by
  induction es generalizing t with
  | nil => rfl
  | cons e rest ih =>
    rw [List.map_cons, List.mem_cons, not_or] at h
    exact (ih h.2).trans (peek?_settle_of_ne h.1)

structure Open (t : RequestTable) (es : List (Nat × Outcome)) : Prop where
  nodup : (es.map Prod.fst).Nodup
  live : ∀ e ∈ es, t.contains e.1 = true

theorem Open.tail {e : Nat × Outcome} (h : t.Open (e :: es)) : (t.settle e.1 e.2).Open es where
  nodup := (List.nodup_cons.mp h.nodup).2
  live e' he' := by
    have hne : e'.1 ≠ e.1 :=
      ne_of_mem_of_not_mem (List.mem_map_of_mem he') (List.nodup_cons.mp h.nodup).1
    rw [contains_settle_of_ne hne]
    exact h.live e' (List.mem_cons_of_mem _ he')

theorem peek?_settleAll_of_mem (h : t.Open es) (hmem : (id, outcome) ∈ es) :
    (t.settleAll es).peek? id = (t.peek? id).map fun _ => some outcome := by
  induction es generalizing t with
  | nil => cases hmem
  | cons e rest ih =>
    have hnot : e.1 ∉ rest.map Prod.fst := (List.nodup_cons.mp h.nodup).1
    cases hmem with
    | head =>
      exact (peek?_settleAll hnot).trans (peek?_settle_self (h.live _ List.mem_cons_self))
    | tail _ hmem =>
      have hne : id ≠ e.1 := ne_of_mem_of_not_mem (List.mem_map_of_mem hmem) hnot
      exact (ih h.tail hmem).trans (congrArg _ (peek?_settle_of_ne hne))

def remembered (es : List (Nat × Outcome)) : List (Nat × RequestState) :=
  (es.reverse.map fun e => (e.1, RequestState.ofOutcome e.2)).take memory

end SettleAll

section Move

theorem move_of_ends (t : RequestTable) (h : mv.ends = true) :
    t.move mv = t.settleAll (t.settles mv) := by
  cases mv with
  | resolve id value | reject id value =>
    rw [settles]
    split
    next => rfl
    next hdead => exact settle_of_not_live (Bool.not_eq_true _ ▸ hdead)
  | sweep now =>
    rw [settles, settleAll, List.foldl_map]
    rfl
  | rejectExcept kept =>
    rw [settles, settleAll, List.foldl_map]
    rfl
  | _ => cases h

theorem touched_of_ends (h : mv.ends = true) : touched id r mv = r := by
  cases mv <;> first | rfl | cases h

theorem outcome?_of_not_ends (h : mv.ends = false) : RequestTable.outcome? id r mv = none := by
  cases mv <;> first | rfl | cases h

theorem settles_of_not_ends (t : RequestTable) (h : mv.ends = false) : t.settles mv = [] := by
  cases mv <;> first | rfl | cases h

theorem get?_of_not_ends (h : mv.ends = false) (hid : t.created? mv ≠ some id) :
    (t.move mv).get? id = (t.get? id).map (touched id · mv) := by
  have hsame : (∀ r, touched id r mv = r) → (t.get? id).map (touched id · mv) = t.get? id := by
    intro htouched
    simp [htouched]
  cases mv with
  | create method timeout key =>
    rw [hsame fun _ => rfl]
    exact Table.get?_put_of_ne (fun heq => hid (congrArg some heq)) _ _
  | dispatch id' now | requestCancel id' =>
    by_cases heq : id' = id
    · subst heq
      simp only [touched, if_true]
      exact Table.get?_adjust_self id' _ t.live
    · rw [hsame fun _ => if_neg heq]
      exact Table.get?_adjust_of_ne heq _ t.live
  | dropHandle id' =>
    rw [hsame fun _ => rfl]
    rfl
  | _ => cases h

theorem peek?_of_not_ends (h : mv.ends = false) (hid : t.created? mv ≠ some id)
    (hmv : mv ≠ .dropHandle id) : (t.move mv).peek? id = t.peek? id := by
  cases mv with
  | create method timeout key =>
    exact Table.get?_put_of_ne (fun heq => hid (congrArg some heq)) _ _
  | dropHandle id' =>
    have hne : id' ≠ id := fun heq => hmv (congrArg Move.dropHandle heq)
    exact Table.get?_erase_of_ne hne t.handles
  | dispatch id' now | requestCancel id' => rfl
  | _ => cases h

theorem Fate.move_of_not_ends (f : Fate) (h : mv.ends = false) :
    (f.move id mv).live? = f.live?.map (touched id · mv) ∧ (f.move id mv).outcome? = f.outcome? := by
  cases f with
  | settled => exact ⟨rfl, rfl⟩
  | live r =>
    rw [Fate.move, outcome?_of_not_ends h]
    exact ⟨rfl, rfl⟩

variable (ht : t.live.Sorted)
include ht

theorem opens_settles : t.Open (t.settles mv) where
  nodup := nodup_settles ht
  live e he := by
    obtain ⟨r, hr, -⟩ := (mem_settles_iff ht).mp he
    exact t.contains_iff.mpr ⟨r, hr⟩

theorem fate_cases {f : Fate} (hf : t.get? id = f.live?) (h : mv.ends = true) :
    (∃ outcome, (id, outcome) ∈ t.settles mv ∧ f.move id mv = .settled outcome) ∨
      id ∉ (t.settles mv).map Prod.fst ∧ f.move id mv = f := by
  have hnot : (∀ r, t.get? id = some r → RequestTable.outcome? id r mv = none) →
      id ∉ (t.settles mv).map Prod.fst := by
    intro hnone
    rw [List.mem_map]
    rintro ⟨⟨id, outcome⟩, hmem, rfl⟩
    obtain ⟨r, hr, houtcome⟩ := (mem_settles_iff ht).mp hmem
    cases (hnone r hr).symm.trans houtcome
  cases f with
  | settled =>
    refine .inr ⟨hnot ?_, rfl⟩
    intro r hr
    cases hf.symm.trans hr
  | live r =>
    rw [Fate.move]
    cases houtcome : RequestTable.outcome? id r mv with
    | some outcome => exact .inl ⟨outcome, (mem_settles_iff ht).mpr ⟨r, hf, houtcome⟩, rfl⟩
    | none =>
      refine .inr ⟨hnot ?_, congrArg Fate.live (touched_of_ends h)⟩
      intro r' hr'
      cases hf.symm.trans hr'
      exact houtcome

theorem get?_move {f : Fate} (hf : t.get? id = f.live?)
    (hid : t.created? mv ≠ some id) : (t.move mv).get? id = (f.move id mv).live? := by
  cases hends : mv.ends with
  | false => rw [get?_of_not_ends hends hid, hf, (f.move_of_not_ends hends).1]
  | true =>
    rw [t.move_of_ends hends]
    obtain ⟨outcome, hmem, hfate⟩ | ⟨hnot, hfate⟩ := fate_cases ht hf hends
    · rw [hfate]
      exact get?_settleAll_of_mem (List.mem_map_of_mem hmem)
    · rw [hfate, get?_settleAll hnot, hf]

theorem peek?_move {f : Fate} (hf : t.get? id = f.live?) (hpeek : t.peek? id = some f.outcome?)
    (hid : t.created? mv ≠ some id) (hmv : mv ≠ .dropHandle id) :
    (t.move mv).peek? id = some (f.move id mv).outcome? := by
  cases hends : mv.ends with
  | false => rw [peek?_of_not_ends hends hid hmv, hpeek, (f.move_of_not_ends hends).2]
  | true =>
    rw [t.move_of_ends hends]
    obtain ⟨outcome, hmem, hfate⟩ | ⟨hnot, hfate⟩ := fate_cases ht hf hends
    · rw [hfate, peek?_settleAll_of_mem (opens_settles ht) hmem, hpeek]
      rfl
    · rw [hfate, peek?_settleAll hnot, hpeek]

theorem contains_of_move (h : (t.move mv).contains id = true) :
    t.contains id = true ∨ t.created? mv = some id := by
  by_cases hnew : t.created? mv = some id
  · exact .inr hnew
  · refine .inl (Bool.not_eq_false _ ▸ ?_)
    intro hdead
    have hnone : (t.move mv).get? id = none :=
      get?_move ht (f := .settled (.error .notConnected))
        (Option.not_isSome_iff_eq_none.mp (Bool.not_eq_true _ ▸ hdead)) hnew
    obtain ⟨r, hr⟩ := (t.move mv).contains_iff.mp h
    cases hnone.symm.trans hr

end Move

end RequestTable

end LanguageClient
