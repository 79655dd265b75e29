import LanguageClient.Table

namespace LanguageClient.Table

variable {κ α β : Type}

def Sorted [LT κ] (t : Table κ α) : Prop :=
  t.Pairwise fun e e' => e.1 < e'.1

@[simp] theorem sorted_nil [LT κ] : Sorted ([] : Table κ α) := List.Pairwise.nil

theorem sorted_cons [LT κ] {e : κ × α} {t : Table κ α} :
    Sorted (e :: t) ↔ (∀ e' ∈ t, e.1 < e'.1) ∧ Sorted t :=
  List.pairwise_cons

theorem Sorted.map [LT κ] {t : Table κ α} (h : Sorted t) (f : κ × α → β) :
    Sorted (t.map fun e => (e.1, f e)) :=
  List.pairwise_map.mpr h

theorem Sorted.filter [LT κ] {t : Table κ α} (h : Sorted t) (p : κ × α → Bool) :
    Sorted (t.filter p) :=
  List.Pairwise.filter p h

theorem Sorted.ne [LT κ] [Std.Irrefl (α := κ) (· < ·)] {e : κ × α} {t : Table κ α}
    (h : Sorted (e :: t)) : ∀ e' ∈ t, e'.1 ≠ e.1 := by
  intro e' he' heq
  have hlt := (sorted_cons.mp h).1 e' he'
  rw [heq] at hlt
  exact Std.lt_irrefl hlt

section Get

variable [DecidableEq κ]

theorem mem_of_get? {k : κ} {v : α} {t : Table κ α} (h : get? k t = some v) : (k, v) ∈ t := by
  induction t with
  | nil => cases h
  | cons e rest ih =>
    rw [get?] at h
    split at h
    next hk =>
      cases h
      rw [← hk]
      exact List.mem_cons_self
    next => exact List.mem_cons_of_mem _ (ih h)

theorem get?_eq_none {k : κ} {t : Table κ α} (h : ∀ e ∈ t, e.1 ≠ k) : get? k t = none := by
  induction t with
  | nil => rfl
  | cons e rest ih =>
    rw [get?, if_neg (h e List.mem_cons_self)]
    exact ih fun e' he' => h e' (List.mem_cons_of_mem _ he')

theorem get?_map (k : κ) (f : κ → α → β) (t : Table κ α) :
    get? k (t.map fun e => (e.1, f e.1 e.2)) = (get? k t).map (f k) := by
  induction t with
  | nil => rfl
  | cons e rest ih =>
    obtain ⟨k', v⟩ := e
    by_cases h : k' = k
    · subst h
      simp [get?]
    · simp [get?, h, ih]

variable [LT κ] [Std.Irrefl (α := κ) (· < ·)]

theorem Sorted.get?_of_mem {k : κ} {v : α} {t : Table κ α} (ht : Sorted t) (h : (k, v) ∈ t) :
    get? k t = some v := by
  induction t with
  | nil => cases h
  | cons e rest ih =>
    cases h with
    | head => simp [get?]
    | tail _ h =>
      rw [get?, if_neg (ht.ne _ h).symm]
      exact ih (sorted_cons.mp ht).2 h

theorem Sorted.get?_filter {t : Table κ α} (ht : Sorted t) (p : κ × α → Bool) (k : κ) :
    get? k (t.filter p) = (get? k t).filter fun v => p (k, v) := by
  induction t with
  | nil => rfl
  | cons e rest ih =>
    obtain ⟨k', v⟩ := e
    obtain ⟨-, hrest⟩ := sorted_cons.mp ht
    by_cases hk : k' = k
    · subst hk
      have hnone : get? k' (rest.filter p) = none :=
        get?_eq_none fun e he => ht.ne e (List.mem_filter.mp he).1
      cases hp : p (k', v) <;> simp [get?, hp, hnone, Option.filter]
    · cases hp : p (k', v) <;> simp [get?, hp, hk, ih hrest]

/-- A fold whose steps concern one key each: what belongs to a key is touched by its entry alone. -/
theorem Sorted.foldl_at {σ ρ : Type} {t : Table κ α} (ht : Sorted t) (step : σ → κ × α → σ)
    (view : σ → κ → ρ) (act : κ → α → ρ → ρ)
    (hself : ∀ s k v, view (step s (k, v)) k = act k v (view s k))
    (hother : ∀ s k v k', k ≠ k' → view (step s (k, v)) k' = view s k') (s : σ) (k : κ) :
    view (t.foldl step s) k = (get? k t).elim (view s k) fun v => act k v (view s k) := by
  induction t generalizing s with
  | nil => rfl
  | cons e rest ih =>
    obtain ⟨k', v⟩ := e
    rw [List.foldl_cons, ih (sorted_cons.mp ht).2]
    by_cases hk : k' = k
    · subst hk
      simp [get?, get?_eq_none ht.ne, hself]
    · simp [get?, hk, hother s k' v k hk]

end Get

section Put

variable [DecidableEq κ] [LT κ] [DecidableLT κ]

theorem mem_put {k : κ} {v : α} {t : Table κ α} {e : κ × α} (h : e ∈ put k v t) :
    e = (k, v) ∨ e ∈ t := by
  induction t with
  | nil => simpa [put] using h
  | cons e' rest ih =>
    rw [put] at h
    split at h
    next => simpa using h
    next =>
      split at h
      next => exact (List.mem_cons.mp h).imp_right (List.mem_cons_of_mem _)
      next =>
        cases h with
        | head => exact .inr List.mem_cons_self
        | tail _ h => exact (ih h).imp_right (List.mem_cons_of_mem _)

theorem put_perm {k : κ} {t : Table κ α} (h : get? k t = none) (v : α) :
    (put k v t).Perm ((k, v) :: t) := by
  induction t with
  | nil => exact .refl _
  | cons e rest ih =>
    rw [get?] at h
    split at h
    next => cases h
    next hne =>
      rw [put]
      split
      next => exact .refl _
      next =>
        rw [if_neg (Ne.symm hne)]
        exact ((ih h).cons e).trans (.swap _ _ _)

theorem Sorted.put [Std.Trichotomous (α := κ) (· < ·)]
    [Trans (α := κ) (β := κ) (γ := κ) (· < ·) (· < ·) (· < ·)] {t : Table κ α} (h : Sorted t)
    (k : κ) (v : α) : Sorted (put k v t) := by
  induction t with
  | nil => simp [Table.put, sorted_cons]
  | cons e rest ih =>
    obtain ⟨hlt, hrest⟩ := sorted_cons.mp h
    rw [Table.put]
    split
    next hk =>
      refine sorted_cons.mpr ⟨?_, h⟩
      intro e' he'
      cases he' with
      | head => exact hk
      | tail _ he' => exact Std.lt_trans hk (hlt e' he')
    next hk =>
      split
      next heq =>
        subst heq
        exact sorted_cons.mpr ⟨hlt, hrest⟩
      next hne =>
        have hgt : e.1 < k :=
          ((Std.lt_trichotomy k e.1).resolve_left hk).resolve_left hne
        refine sorted_cons.mpr ⟨?_, ih hrest⟩
        intro e' he'
        cases mem_put he' with
        | inl heq =>
          subst heq
          exact hgt
        | inr he' => exact hlt e' he'

theorem sorted_ofEntries [Std.Trichotomous (α := κ) (· < ·)]
    [Trans (α := κ) (β := κ) (γ := κ) (· < ·) (· < ·) (· < ·)] (entries : List (κ × α)) :
    Sorted (ofEntries entries) := by
  rw [ofEntries, ← List.foldr_reverse]
  induction entries.reverse with
  | nil => exact sorted_nil
  | cons e rest ih => exact ih.put e.1 e.2

theorem get?_ofEntries (k : κ) (entries : List (κ × α)) :
    get? k (ofEntries entries) = get? k entries.reverse := by
  have hfoldr : ∀ es : List (κ × α),
      get? k (es.foldr (fun e t => Table.put e.1 e.2 t) []) = get? k es := by
    intro es
    induction es with
    | nil => rfl
    | cons e rest ih =>
      by_cases h : e.1 = k
      · subst h
        simp [get?]
      · rw [List.foldr_cons, get?_put_of_ne h, ih, get?, if_neg h]
  rw [ofEntries, ← List.foldr_reverse, hfoldr]

end Put

section Erase

variable [DecidableEq κ]

theorem erase_sublist (k : κ) (t : Table κ α) : (erase k t).Sublist t := by
  induction t with
  | nil => exact .slnil
  | cons e rest ih =>
    rw [erase]
    split
    next => exact ih.cons e
    next => exact ih.cons_cons e

theorem erase_eq_self {k : κ} {t : Table κ α} (h : ∀ e ∈ t, e.1 ≠ k) : erase k t = t := by
  induction t with
  | nil => rfl
  | cons e rest ih =>
    rw [erase, if_neg (h e List.mem_cons_self), ih fun e' he' => h e' (List.mem_cons_of_mem _ he')]

theorem Sorted.perm_erase [LT κ] [Std.Irrefl (α := κ) (· < ·)] {k : κ} {v : α} {t : Table κ α}
    (ht : Sorted t) (h : get? k t = some v) : t.Perm ((k, v) :: erase k t) := by
  induction t with
  | nil => cases h
  | cons e rest ih =>
    rw [get?] at h
    split at h
    next hk =>
      subst hk
      cases h
      simp [erase, erase_eq_self ht.ne]
    next hk =>
      rw [erase, if_neg hk]
      exact ((ih (sorted_cons.mp ht).2 h).cons e).trans (.swap _ _ _)

theorem Sorted.erase [LT κ] {t : Table κ α} (h : Sorted t) (k : κ) : Sorted (erase k t) :=
  List.Pairwise.sublist (erase_sublist k t) h

end Erase

end LanguageClient.Table
