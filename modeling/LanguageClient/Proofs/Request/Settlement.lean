import LanguageClient.Proofs.Request.Fate

namespace LanguageClient

namespace RequestTable

variable {t : RequestTable} {id : Nat} {r : LiveRequest} {mv : Move}

section Run

theorem exists_update (t : RequestTable) (mv : Move) : ∃ kept, Update kept t (t.move mv) := by
  cases mv with
  | create method timeout key => exact ⟨[], .create t method timeout key⟩
  | dispatch id now => exact ⟨[], .dispatch t List.not_mem_nil now⟩
  | resolve id value | reject id value => exact ⟨[], .settle t List.not_mem_nil _⟩
  | requestCancel id => exact ⟨[], .requestCancel t List.not_mem_nil⟩
  | sweep now => exact ⟨[], .trans (.look t now) (.same rfl rfl)⟩
  | rejectExcept kept => exact ⟨kept, .rejectExcept t⟩
  | dropHandle id => exact ⟨[], .same rfl rfl⟩

theorem sorted_move (ht : t.live.Sorted) (mv : Move) : (t.move mv).live.Sorted := by
  obtain ⟨kept, h⟩ := t.exists_update mv
  exact h.sorted ht

theorem nextId_le_move (t : RequestTable) (mv : Move) : t.nextId ≤ (t.move mv).nextId := by
  obtain ⟨kept, h⟩ := t.exists_update mv
  exact h.nextId_le

theorem eq_nextId_of_created? (h : t.created? mv = some id) :
    id = t.nextId ∧ (t.move mv).nextId = t.nextId + 1 := by
  cases mv with
  | create method timeout key => exact ⟨(Option.some.inj h).symm, rfl⟩
  | _ => cases h

theorem created?_ne_of_lt (h : id < t.nextId) : t.created? mv ≠ some id :=
  fun hnew => Nat.ne_of_lt h (eq_nextId_of_created? hnew).1

theorem run_append (t : RequestTable) (moves more : List Move) :
    t.run (moves ++ more) = (t.run moves).run more :=
  List.foldl_append

variable {moves : List Move}

theorem sorted_run (ht : t.live.Sorted) : (t.run moves).live.Sorted := by
  induction moves generalizing t with
  | nil => exact ht
  | cons mv rest ih => exact ih (sorted_move ht mv)

theorem Fate.foldl_settled (id : Nat) (outcome : Outcome) (moves : List Move) :
    moves.foldl (Fate.move id) (.settled outcome) = .settled outcome := by
  induction moves with
  | nil => rfl
  | cons mv rest ih => exact ih

theorem get?_run (ht : t.live.Sorted) {f : Fate} (hid : id < t.nextId) (hf : t.get? id = f.live?) :
    (t.run moves).get? id = (moves.foldl (Fate.move id) f).live? := by
  induction moves generalizing t f with
  | nil => exact hf
  | cons mv rest ih =>
    exact ih (sorted_move ht mv) (Nat.lt_of_lt_of_le hid (t.nextId_le_move mv))
      (get?_move ht hf (created?_ne_of_lt hid))

theorem peek?_run (ht : t.live.Sorted) {f : Fate} (hid : id < t.nextId) (hf : t.get? id = f.live?)
    (hpeek : t.peek? id = some f.outcome?) (hmoves : Move.dropHandle id ∉ moves) :
    (t.run moves).peek? id = some (moves.foldl (Fate.move id) f).outcome? := by
  induction moves generalizing t f with
  | nil => exact hpeek
  | cons mv rest ih =>
    rw [List.mem_cons, not_or] at hmoves
    have hne : t.created? mv ≠ some id := created?_ne_of_lt hid
    exact ih (sorted_move ht mv) (Nat.lt_of_lt_of_le hid (t.nextId_le_move mv))
      (get?_move ht hf hne) (peek?_move ht hf hpeek hne (Ne.symm hmoves.1)) hmoves.2

theorem ends_of_mem_settles (h : id ∈ (t.settles mv).map Prod.fst) : mv.ends = true := by
  cases hends : mv.ends with
  | true => rfl
  | false =>
    rw [t.settles_of_not_ends hends] at h
    cases h

theorem get?_move_of_mem_settles (h : id ∈ (t.settles mv).map Prod.fst) :
    (t.move mv).get? id = none := by
  rw [t.move_of_ends (ends_of_mem_settles h)]
  exact get?_settleAll_of_mem h

section Fresh

variable (ht : t.live.Sorted) (hlive : ∀ id, t.contains id = true → id < t.nextId)
include ht hlive

theorem live_lt_move : ∀ id, (t.move mv).contains id = true → id < (t.move mv).nextId := by
  intro id h
  obtain h | hnew := contains_of_move ht h
  · exact Nat.lt_of_lt_of_le (hlive id h) (t.nextId_le_move mv)
  · obtain ⟨rfl, hnext⟩ := eq_nextId_of_created? hnew
    rw [hnext]
    exact Nat.lt_succ_self _

end Fresh

end Run

section State

theorem sorted_empty {hashing : Hashing} : (empty hashing).live.Sorted := Table.sorted_nil

variable {es : List (Nat × Outcome)}

variable (ht : t.settled = remembered es) (hdead : t.get? id = none)
include ht hdead

end State

section Create

end Create

end RequestTable

end LanguageClient
