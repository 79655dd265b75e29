import LanguageClient.Proofs.Table
import LanguageClient.Request.Table

namespace LanguageClient.RequestTable

variable (t : RequestTable)

def clock (id : Nat) : Option (Option Nat) :=
  (t.get? id).map LiveRequest.deadline

theorem contains_iff {id : Nat} : t.contains id = true ↔ ∃ r, t.get? id = some r :=
  Option.isSome_iff_exists

theorem clock_eq_none {id : Nat} : t.clock id = none ↔ t.contains id = false := by
  rw [clock, Option.map_eq_none_iff, contains, Table.contains, get?, Option.isSome_eq_false_iff,
    Option.isNone_iff_eq_none]

theorem clock_create (method : String) (timeout : Nat) (key : Option String) :
    (t.create method timeout key).2.clock =
      fun id => if id = t.nextId then some none else t.clock id := by
  funext id
  by_cases h : id = t.nextId
  · subst h
    simp [clock, create, get?]
  · simp [clock, create, get?, h, Table.get?_put_of_ne (Ne.symm h)]

theorem clock_settle (id : Nat) (outcome : Outcome) :
    (t.settle id outcome).clock = fun id' => if id' = id then none else t.clock id' := by
  funext id'
  rw [settle]
  split
  next =>
    by_cases h : id' = id
    · subst h
      simp [clock, get?]
    · simp [clock, get?, h, Table.get?_erase_of_ne (Ne.symm h)]
  next hnot =>
    by_cases h : id' = id
    · subst h
      rw [if_pos rfl]
      exact t.clock_eq_none.mpr (Bool.not_eq_true _ ▸ hnot)
    · rw [if_neg h]

@[simp] theorem nextId_settle (id : Nat) (outcome : Outcome) :
    (t.settle id outcome).nextId = t.nextId := by
  rw [settle]
  split <;> rfl

theorem exists_clock_dispatch {id : Nat} (h : t.contains id = true) (now : Nat) :
    ∃ deadline, (t.dispatch id now).clock =
      fun id' => if id' = id then some (some deadline) else t.clock id' := by
  obtain ⟨r, hr⟩ := t.contains_iff.mp h
  refine ⟨now + r.timeout, ?_⟩
  funext id'
  by_cases h' : id' = id
  · subst h'
    rw [get?] at hr
    simp [clock, dispatch, get?, hr, LiveRequest.dispatched]
  · simp [clock, dispatch, get?, h', Table.get?_adjust_of_ne (Ne.symm h')]

theorem clock_requestCancel (id : Nat) : (t.requestCancel id).clock = t.clock := by
  funext id'
  by_cases h : id' = id
  · subst h
    simp [clock, requestCancel, get?, Function.comp_def]
  · simp [clock, requestCancel, get?, Table.get?_adjust_of_ne (Ne.symm h)]

section Many

variable {α : Type} (settled : α → Nat) {step : RequestTable → α → RequestTable}
  (hstep : ∀ t e, ∃ outcome, step t e = t.settle (settled e) outcome)
include hstep

theorem clock_foldl_settle (es : List α) :
    (es.foldl step t).clock = fun id => if id ∈ es.map settled then none else t.clock id := by
  induction es generalizing t with
  | nil => simp
  | cons e rest ih =>
    obtain ⟨outcome, he⟩ := hstep t e
    rw [List.foldl_cons, ih, he, clock_settle]
    funext id
    by_cases h : id = settled e <;> simp [h]

theorem nextId_foldl_settle (es : List α) : (es.foldl step t).nextId = t.nextId := by
  induction es generalizing t with
  | nil => rfl
  | cons e rest ih =>
    obtain ⟨outcome, he⟩ := hstep t e
    rw [List.foldl_cons, ih, he, nextId_settle]

end Many

theorem mem_scan_of_clock {id : Nat} (h : t.clock id ≠ none) : id ∈ t.scan := by
  rw [Ne, clock_eq_none, Bool.not_eq_false] at h
  obtain ⟨r, hr⟩ := t.contains_iff.mp h
  exact mem_scan.mpr (List.mem_map_of_mem (Table.mem_of_get? hr))

theorem clock_rejectExcept (kept : List Nat) :
    (t.rejectExcept kept).2.clock = fun id => if id ∈ kept then t.clock id else none := by
  refine (t.clock_foldl_settle id (fun _ _ => ⟨_, rfl⟩) _).trans ?_
  funext id'
  by_cases hkept : id' ∈ kept
  · simp [hkept]
  · by_cases hlive : t.clock id' = none
    · simp [hlive]
    · simp [hkept, t.mem_scan_of_clock hlive]

theorem nextId_rejectExcept (kept : List Nat) : (t.rejectExcept kept).2.nextId = t.nextId :=
  t.nextId_foldl_settle id (fun _ _ => ⟨_, rfl⟩) _

theorem clock_look (now id : Nat) :
    (t.look now).2.clock id = t.clock id ∨ (t.look now).2.clock id = none := by
  have hclock : (t.look now).2.clock =
      fun id => if id ∈ (t.overdue now).map Prod.fst then none else t.clock id :=
    t.clock_foldl_settle Prod.fst (fun _ _ => ⟨_, rfl⟩) _
  rw [hclock]
  by_cases h : id ∈ (t.overdue now).map Prod.fst
  · exact .inr (if_pos h)
  · exact .inl (if_neg h)

theorem nextId_look (now : Nat) : (t.look now).2.nextId = t.nextId :=
  t.nextId_foldl_settle Prod.fst (fun _ _ => ⟨_, rfl⟩) _

end LanguageClient.RequestTable
