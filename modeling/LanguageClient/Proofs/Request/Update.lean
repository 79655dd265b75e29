import LanguageClient.Proofs.Request.Clock

namespace LanguageClient

theorem Table.adjust_eq_map {κ α : Type} [DecidableEq κ] (key : κ) (f : α → α) (t : Table κ α) :
    Table.adjust key f t = t.map fun e => (e.1, if e.1 = key then f e.2 else e.2) := by
  induction t with
  | nil => rfl
  | cons e rest ih => rw [Table.adjust, ih, List.map_cons]

namespace RequestTable

inductive Update (kept : List Nat) : RequestTable → RequestTable → Prop
  | same {t t' : RequestTable} (hlive : t'.live = t.live) (hnext : t'.nextId = t.nextId) :
      Update kept t t'
  | create (t : RequestTable) (method : String) (timeout : Nat) (key : Option String) :
      Update kept t (t.create method timeout key).2
  | settle (t : RequestTable) {id : Nat} (hid : id ∉ kept) (outcome : Outcome) :
      Update kept t (t.settle id outcome)
  | dispatch (t : RequestTable) {id : Nat} (hid : id ∉ kept) (now : Nat) :
      Update kept t (t.dispatch id now)
  | requestCancel (t : RequestTable) {id : Nat} (hid : id ∉ kept) :
      Update kept t (t.requestCancel id)
  | look (t : RequestTable) (now : Nat) : Update kept t (t.look now).2
  | rejectExcept (t : RequestTable) : Update kept t (t.rejectExcept kept).2
  | trans {t t' t'' : RequestTable} (h : Update kept t t') (h' : Update kept t' t'') :
      Update kept t t''

variable {kept : List Nat} {t t' : RequestTable}

theorem sorted_settle (h : t.live.Sorted) (id : Nat) (outcome : Outcome) :
    (t.settle id outcome).live.Sorted := by
  rw [settle]
  split
  · exact h.erase id
  · exact h

theorem sorted_adjust (h : t.live.Sorted) (id : Nat) (f : LiveRequest → LiveRequest) :
    Table.Sorted (Table.adjust id f t.live) := by
  rw [Table.adjust_eq_map]
  exact h.map _

section Others

variable (t) {id other : Nat} (h : id ≠ other)
include h

theorem get?_settle_of_ne (outcome : Outcome) : (t.settle other outcome).get? id = t.get? id := by
  rw [settle]
  split
  · exact Table.get?_erase_of_ne (Ne.symm h) t.live
  · rfl

theorem get?_adjust_of_ne (f : LiveRequest → LiveRequest) :
    Table.get? id (Table.adjust other f t.live) = t.get? id :=
  Table.get?_adjust_of_ne (Ne.symm h) f t.live

end Others

section Many

variable {α : Type} (settled : α → Nat) {step : RequestTable → α → RequestTable}
  (hstep : ∀ t e, ∃ outcome, step t e = t.settle (settled e) outcome)
include hstep

theorem sorted_foldl_settle (h : t.live.Sorted) (es : List α) : (es.foldl step t).live.Sorted := by
  induction es generalizing t with
  | nil => exact h
  | cons e rest ih =>
    obtain ⟨outcome, he⟩ := hstep t e
    rw [List.foldl_cons, he]
    exact ih (sorted_settle h _ _)

theorem get?_foldl_settle (es : List α) {id : Nat} (hid : id ∉ es.map settled) :
    (es.foldl step t).get? id = t.get? id := by
  induction es generalizing t with
  | nil => rfl
  | cons e rest ih =>
    rw [List.map_cons, List.mem_cons, not_or] at hid
    obtain ⟨outcome, he⟩ := hstep t e
    rw [List.foldl_cons, he, ih hid.2]
    exact get?_settle_of_ne t hid.1 outcome

end Many

theorem Update.sorted (h : Update kept t t') (hsorted : t.live.Sorted) : t'.live.Sorted := by
  induction h with
  | same hlive hnext =>
    rw [hlive]
    exact hsorted
  | create t method timeout key => exact hsorted.put _ _
  | settle t hid outcome => exact sorted_settle hsorted _ _
  | dispatch t hid now => exact sorted_adjust hsorted _ _
  | requestCancel t hid => exact sorted_adjust hsorted _ _
  | look t now => exact sorted_foldl_settle Prod.fst (fun _ _ => ⟨_, rfl⟩) hsorted _
  | rejectExcept t => exact sorted_foldl_settle id (fun _ _ => ⟨_, rfl⟩) hsorted _
  | trans h h' ih ih' => exact ih' (ih hsorted)

theorem Update.nextId_le (h : Update kept t t') : t.nextId ≤ t'.nextId := by
  induction h with
  | same hlive hnext => exact Nat.le_of_eq hnext.symm
  | create t method timeout key => exact Nat.le_succ _
  | settle t hid outcome => exact Nat.le_of_eq (t.nextId_settle _ _).symm
  | dispatch t hid now => exact Nat.le_refl _
  | requestCancel t hid => exact Nat.le_refl _
  | look t now => exact Nat.le_of_eq (t.nextId_look now).symm
  | rejectExcept t => exact Nat.le_of_eq (t.nextId_rejectExcept _).symm
  | trans h h' ih ih' => exact Nat.le_trans ih ih'

theorem Update.get?_of_mem (h : Update kept t t') (hsorted : t.live.Sorted) {id : Nat} {r : LiveRequest}
    (hid : id ∈ kept) (hlt : id < t.nextId) (hr : t.get? id = some r) (huntimed : r.deadline = none) :
    t'.get? id = some r := by
  induction h with
  | same hlive hnext =>
    rw [get?, hlive]
    exact hr
  | create t method timeout key =>
    exact (Table.get?_put_of_ne (Nat.ne_of_gt hlt) _ t.live).trans hr
  | settle t hother outcome =>
    exact (t.get?_settle_of_ne (ne_of_mem_of_not_mem hid hother) outcome).trans hr
  | dispatch t hother now =>
    exact (t.get?_adjust_of_ne (ne_of_mem_of_not_mem hid hother) _).trans hr
  | requestCancel t hother =>
    exact (t.get?_adjust_of_ne (ne_of_mem_of_not_mem hid hother) _).trans hr
  | look t now =>
    -- the table has one entry for an id, so no overdue one is this one
    have hoverdue : id ∉ (t.overdue now).map Prod.fst := by
      rw [List.mem_map]
      rintro ⟨⟨id', r'⟩, hmem, rfl⟩
      obtain ⟨hmem, hdue⟩ := List.mem_filter.mp hmem
      have hr' : t.get? id' = some r' := hsorted.get?_of_mem hmem
      cases hr.symm.trans hr'
      simp [isOverdue, huntimed] at hdue
    exact (get?_foldl_settle Prod.fst (fun _ _ => ⟨_, rfl⟩) _ hoverdue).trans hr
  | rejectExcept t =>
    refine (get?_foldl_settle (fun lost => lost) (fun _ _ => ⟨_, rfl⟩) _ ?_).trans hr
    simp [hid]
  | trans h h' ih ih' =>
    exact ih' (h.sorted hsorted) (Nat.lt_of_lt_of_le hlt h.nextId_le) (ih hsorted hlt hr)

end RequestTable

end LanguageClient
