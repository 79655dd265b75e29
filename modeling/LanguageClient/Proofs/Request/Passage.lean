import LanguageClient.Proofs.Request.Settlement

namespace LanguageClient.RequestTable

variable {id : Nat} {r r' : LiveRequest} {moves : List Move}

section Settle

variable {t : RequestTable} {outcome : Outcome} (h : t.contains id = true)
include h

theorem get?_settle_self : (t.settle id outcome).get? id = none := by
  rw [settle_of_live h]
  exact Table.get?_erase_self id t.live

theorem state?_settle_self : (t.settle id outcome).state? id = some (.ofOutcome outcome) := by
  rw [state?, get?_settle_self h, settle_of_live h]
  simp [memory]

end Settle

theorem key_touched (mv : Move) : (touched id r mv).key = r.key := by
  cases mv with
  | dispatch id' now | requestCancel id' =>
    rw [touched]
    split <;> rfl
  | _ => rfl

/-- Whoever asks for a cancellation asks for good: that the frame is written later does not undo it. -/
theorem touched_cancelRequested_iff {mv : Move} :
    (touched id r mv).state = .cancelRequested ↔
      r.state = .cancelRequested ∨ mv = .requestCancel id := by
  cases mv with
  | dispatch id' now =>
    rw [touched]
    split
    · by_cases hqueued : r.state = .queued <;> simp [LiveRequest.dispatched, hqueued]
    · simp
  | requestCancel id' =>
    rw [touched]
    split
    next heq => simp [heq]
    next hne => simp [hne]
  | _ => simp [touched]

theorem touched_eq_self {mv : Move} (hdispatch : ∀ now, mv ≠ .dispatch id now)
    (hcancel : mv ≠ .requestCancel id) : touched id r mv = r := by
  cases mv with
  | dispatch id' now => exact if_neg fun heq => hdispatch now (by rw [heq])
  | requestCancel id' => exact if_neg fun heq => hcancel (by rw [heq])
  | _ => rfl

theorem eq_of_outcome?_resolve {id' : Nat} {value : Json}
    (h : (RequestTable.outcome? id r (.resolve id' value)).isSome) : id' = id := by
  rw [RequestTable.outcome?] at h
  split at h
  next heq => exact heq
  next => cases h

theorem eq_of_outcome?_reject {id' : Nat} {e : ClientError}
    (h : (RequestTable.outcome? id r (.reject id' e)).isSome) : id' = id := by
  rw [RequestTable.outcome?] at h
  split at h
  next heq => exact heq
  next => cases h

theorem Fate.live?_foldl_cons {mv : Move}
    (h : ((mv :: moves).foldl (Fate.move id) (.live r)).live? = some r') :
    (moves.foldl (Fate.move id) (.live (touched id r mv))).live? = some r' := by
  rw [List.foldl_cons, Fate.move] at h
  split at h
  next =>
    rw [Fate.foldl_settled] at h
    cases h
  next => exact h

theorem Fate.key_of_live?_foldl (h : (moves.foldl (Fate.move id) (.live r)).live? = some r') :
    r'.key = r.key := by
  induction moves generalizing r with
  | nil => exact (congrArg LiveRequest.key (Option.some.inj h)).symm
  | cons mv rest ih => exact (ih (live?_foldl_cons h)).trans (key_touched mv)

theorem Fate.cancelRequested_iff_of_live?_foldl
    (h : (moves.foldl (Fate.move id) (.live r)).live? = some r') :
    r'.state = .cancelRequested ↔ r.state = .cancelRequested ∨ .requestCancel id ∈ moves := by
  induction moves generalizing r with
  | nil =>
    cases h
    simp
  | cons mv rest ih =>
    rw [ih (live?_foldl_cons h), touched_cancelRequested_iff, List.mem_cons, or_assoc,
      eq_comm (a := mv)]

theorem Fate.eq_of_live?_foldl (h : (moves.foldl (Fate.move id) (.live r)).live? = some r')
    (hdispatch : ∀ now, .dispatch id now ∉ moves) (hcancel : .requestCancel id ∉ moves) : r' = r := by
  induction moves generalizing r with
  | nil => exact (Option.some.inj h).symm
  | cons mv rest ih =>
    rw [List.mem_cons, not_or] at hcancel
    have hrest : ∀ now, Move.dispatch id now ∉ rest := fun now hmem =>
      hdispatch now (List.mem_cons_of_mem _ hmem)
    refine (ih (live?_foldl_cons h) hrest hcancel.2).trans (touched_eq_self ?_ (Ne.symm hcancel.1))
    exact fun now heq => hdispatch now (heq ▸ List.mem_cons_self)

theorem Fate.exists_of_settled (h : (moves.foldl (Fate.move id) (.live r)).live? = none) :
    ∃ before mv after r', moves = before ++ mv :: after ∧
      before.foldl (Fate.move id) (.live r) = .live r' ∧
      (RequestTable.outcome? id r' mv).isSome := by
  induction moves generalizing r with
  | nil => cases h
  | cons mv rest ih =>
    cases houtcome : RequestTable.outcome? id r mv with
    | some outcome => exact ⟨[], mv, rest, r, rfl, rfl, by rw [houtcome]; rfl⟩
    | none =>
      have hmove : Fate.move id (.live r) mv = .live (touched id r mv) := by
        rw [Fate.move, houtcome]
      rw [List.foldl_cons, hmove] at h
      obtain ⟨before, mv', after, r', rfl, hbefore, hends⟩ := ih h
      refine ⟨mv :: before, mv', after, r', rfl, ?_, hends⟩
      rw [List.foldl_cons, hmove, hbefore]

theorem exists_create_of_get?_run {t : RequestTable} (ht : t.live.Sorted) (hnone : t.get? id = none)
    (h : (t.run moves).get? id = some r') :
    ∃ before method timeout key after, moves = before ++ .create method timeout key :: after ∧
      id = (t.run before).nextId ∧
      (after.foldl (Fate.move id) (.live ⟨method, key, timeout, none, .queued⟩)).live? = some r' := by
  induction moves generalizing t with
  | nil => cases hnone.symm.trans h
  | cons mv rest ih =>
    cases hnext : (t.move mv).get? id with
    | none =>
      obtain ⟨before, method, timeout, key, after, rfl, hid, hafter⟩ :=
        ih (sorted_move ht mv) hnext h
      exact ⟨mv :: before, method, timeout, key, after, rfl, hid, hafter⟩
    | some r =>
      have hnew : t.created? mv = some id := by
        refine (contains_of_move ht ((t.move mv).contains_iff.mpr ⟨r, hnext⟩)).resolve_left ?_
        intro hlive
        obtain ⟨r₀, hr₀⟩ := t.contains_iff.mp hlive
        cases hnone.symm.trans hr₀
      obtain ⟨hid, hlt⟩ := eq_nextId_of_created? hnew
      cases mv with
      | create method timeout key =>
        refine ⟨[], method, timeout, key, rest, rfl, hid, ?_⟩
        have hget : (t.move (.create method timeout key)).get? id =
            (Fate.live ⟨method, key, timeout, none, .queued⟩).live? :=
          hid ▸ Table.get?_put_self _ _ _
        exact (get?_run (sorted_move ht _) (hid ▸ hlt ▸ Nat.lt_succ_self _) hget).symm.trans h
      | _ => cases hnew

end LanguageClient.RequestTable
