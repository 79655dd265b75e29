import LanguageClient.Retry
import Mathlib.Order.Bounds.Basic

namespace LanguageClient

namespace RetryPolicy

variable {ε α : Type} {p : RetryPolicy} {retryable : ε → Bool} {outcome : Nat → Except ε α} {k : Nat}

theorem delay_le (p : RetryPolicy) (k : Nat) : p.delay k ≤ p.maxDelay := by
  rw [delay]
  split
  · exact Nat.zero_le _
  · exact Nat.min_le_right ..

def Ends (p : RetryPolicy) (retryable : ε → Bool) (outcome : Nat → Except ε α) (k : Nat) : Prop :=
  (∃ a, outcome k = .ok a) ∨ (∃ e, outcome k = .error e ∧ retryable e = false) ∨
    k = max p.maxAttempts 1 - 1

theorem nextDelay?_eq_some_iff {b : Bool} {d : Nat} : p.nextDelay? k b = some d ↔
    b = true ∧ k + 1 < max p.maxAttempts 1 ∧ d = p.delay (k + 1) := by
  cases b <;> simp [nextDelay?, eq_comm (a := d)]

theorem nextDelay?_eq_none_iff {b : Bool} :
    p.nextDelay? k b = none ↔ b = false ∨ max p.maxAttempts 1 ≤ k + 1 := by
  cases b <;> simp [nextDelay?]

theorem ends_of_nextDelay? {e : ε} (hk : k < max p.maxAttempts 1) (he : outcome k = .error e)
    (h : p.nextDelay? k (retryable e) = none) : p.Ends retryable outcome k := by
  obtain hrefused | hlast := nextDelay?_eq_none_iff.mp h
  · exact .inr (.inl ⟨e, he, hrefused⟩)
  · exact .inr (.inr (by omega))

theorem not_ends_of_nextDelay? {e : ε} {d : Nat} (he : outcome k = .error e)
    (h : p.nextDelay? k (retryable e) = some d) : ¬ p.Ends retryable outcome k := by
  obtain ⟨hretryable, hlt, -⟩ := nextDelay?_eq_some_iff.mp h
  rintro (⟨a, ha⟩ | ⟨e', he', hrefused⟩ | hlast)
  · cases he.symm.trans ha
  · cases he.symm.trans he'
    cases hretryable.symm.trans hrefused
  · omega

end RetryPolicy

namespace RetryRun

variable {ε α : Type} (p : RetryPolicy) (retryable : ε → Bool) (outcome : Nat → Except ε α)

def retries (k n : Nat) : List RetryStep :=
  (List.range n).flatMap fun i => [RetryStep.sleep (p.delay (k + i + 1)), .attempt]

theorem retries_succ (k n : Nat) :
    retries p k (n + 1) = .sleep (p.delay (k + 1)) :: .attempt :: retries p (k + 1) n := by
  rw [retries, List.range_succ_eq_map, List.flatMap_cons, List.flatMap_map]
  simp only [retries, Nat.add_zero, Nat.succ_eq_add_one, Nat.add_assoc, Nat.add_comm 1,
    List.cons_append, List.nil_append]

theorem exists_runFrom {k : Nat} (hk : k < max p.maxAttempts 1) :
    ∃ n, p.Ends retryable outcome (k + n) ∧ (∀ i < n, ¬ p.Ends retryable outcome (k + i)) ∧
      runFrom p retryable outcome k = ⟨outcome (k + n), .attempt :: retries p k n⟩ := by
  fun_induction runFrom p retryable outcome k with
  | case1 k a ha => exact ⟨0, .inl ⟨a, ha⟩, nofun, by rw [Nat.add_zero, ha]; rfl⟩
  | case2 k e he hstop =>
    exact ⟨0, RetryPolicy.ends_of_nextDelay? hk he hstop, nofun, by rw [Nat.add_zero, he]; rfl⟩
  | case3 k e he d hmore rest ih =>
    obtain ⟨n, hends, hbefore, hrest⟩ := ih (RetryPolicy.lt_of_nextDelay? hmore)
    obtain ⟨-, -, rfl⟩ := RetryPolicy.nextDelay?_eq_some_iff.mp hmore
    have hshift (i : Nat) : k + (i + 1) = k + 1 + i := by omega
    refine ⟨n + 1, hshift n ▸ hends, fun i hi => ?_, ?_⟩
    · cases i with
      | zero => exact RetryPolicy.not_ends_of_nextDelay? he hmore
      | succ i => exact hshift i ▸ hbefore i (Nat.lt_of_succ_lt_succ hi)
    · rw [show rest = _ from hrest, hshift n, retries_succ]

theorem exists_run : ∃ k, IsLeast {k | p.Ends retryable outcome k} k ∧
    run p retryable outcome = ⟨outcome k, .attempt :: retries p 0 k⟩ := by
  obtain ⟨k, hends, hbefore, hrun⟩ :=
    exists_runFrom p retryable outcome (Nat.lt_of_lt_of_le Nat.zero_lt_one (Nat.le_max_right ..))
  simp only [Nat.zero_add] at hends hbefore hrun
  refine ⟨k, ⟨hends, fun i hi => Nat.le_of_not_lt fun hlt => hbefore i hlt hi⟩, hrun⟩

theorem count_attempt_retries (k n : Nat) : (retries p k n).count .attempt = n := by
  induction n generalizing k with
  | zero => rfl
  | succ n ih => simp [retries_succ, ih]

end RetryRun

end LanguageClient
