import LanguageClient.Proofs.Delta.Edits
import LanguageClient.Proofs.Workspace.History

namespace LanguageClient.History

def composeAll (sofar : Delta) (entries : List HistoryEntry) : Except Delta.Fault Delta :=
  entries.foldlM (fun d e => d.compose e.delta) sofar

@[simp] theorem composeAll_nil (sofar : Delta) : composeAll sofar [] = .ok sofar := rfl

theorem composeAll_snoc {sofar d : Delta} {entries : List HistoryEntry} (e : HistoryEntry)
    (h : composeAll sofar entries = .ok d) :
    composeAll sofar (entries ++ [e]) = d.compose e.delta := by
  have hlast : composeAll d [e] = d.compose e.delta := by simp [composeAll]
  rw [← hlast, composeAll, List.foldlM_append]
  change (do composeAll (← composeAll sofar entries) [e]) = _
  rw [h]
  rfl

theorem chainFrom_eq {gone : WorkspaceError} {sofar : Delta} {version goal : Nat}
    {entries : List HistoryEntry} (hne : entries ≠ [])
    (hversions : entries.map (·.version) = List.range' version entries.length)
    (hgoal : goal = version + entries.length) :
    chainFrom gone goal sofar version entries = (composeAll sofar entries).mapError .delta := by
  induction entries generalizing sofar version with
  | nil => exact absurd rfl hne
  | cons e rest ih =>
    obtain ⟨hversion, hrest⟩ := List.cons.inj hversions
    rw [chainFrom, if_pos hversion, composeAll, List.foldlM_cons]
    cases hnext : sofar.compose e.delta with
    | error fault => rfl
    | ok next =>
      dsimp only
      -- the chain ends where the goal is reached, which is at the last entry
      cases rest with
      | nil =>
        have heq : version + 1 = goal := hgoal.symm
        rw [if_pos heq]
        rfl
      | cons e' rest =>
        have hlt : version + 1 ≠ goal := by
          rw [hgoal, List.length_cons, List.length_cons]
          omega
        rw [List.length_cons] at hgoal
        rw [if_neg hlt]
        exact ih (List.cons_ne_nil _ _) hrest (by omega)

theorem chain_eq {s : History} {uri : String} {start goal length : Nat} (hle : start ≤ goal)
    (hversions : ((s.entriesOf uri).dropWhile (·.version < start)).map (·.version) =
      List.range' start (goal - start)) :
    s.chain uri start goal length =
      (composeAll (Delta.identity length)
        ((s.entriesOf uri).dropWhile (·.version < start))).mapError .delta := by
  have hlength : ((s.entriesOf uri).dropWhile (·.version < start)).length = goal - start := by
    simpa using congrArg List.length hversions
  rw [History.chain, if_neg (Nat.not_lt.mpr hle)]
  by_cases heq : start = goal
  · have hnil : (s.entriesOf uri).dropWhile (·.version < start) = [] := by
      apply List.eq_nil_of_length_eq_zero
      rw [hlength, heq, Nat.sub_self]
    rw [if_pos heq, hnil]
    rfl
  · rw [if_neg heq]
    have hlt := Nat.lt_of_le_of_ne hle heq
    apply chainFrom_eq
    · intro hnil
      rw [hnil, List.length_nil] at hlength
      omega
    · rw [hversions, hlength]
    · omega

/-- The batches from version `start` to version `goal` are there, and make up the edits `synced`. -/
structure Leads (entries : List HistoryEntry) (length start goal : Nat) (synced : List Edit) :
    Prop where
  le : start ≤ goal
  versions : (entries.dropWhile (·.version < start)).map (·.version) =
    List.range' start (goal - start)
  composed : ∃ d, Delta.ofEdits length synced = .ok d ∧
    composeAll (Delta.identity length) (entries.dropWhile (·.version < start)) = .ok d

namespace Leads

variable {entries : List HistoryEntry} {length start goal : Nat} {synced : List Edit}

theorem refl (h : ∀ e ∈ entries, e.version < start) : Leads entries length start start [] := by
  have hnil : entries.dropWhile (·.version < start) = [] := by
    rw [← List.append_nil entries, List.dropWhile_append_of_pos]
    · rfl
    · intro e he
      exact decide_eq_true (h e he)
  constructor
  case le => exact Nat.le_refl _
  case versions => simp [hnil]
  case composed =>
    rw [hnil]
    exact ⟨Delta.identity length, rfl, rfl⟩

variable (h : Leads entries length start goal synced)
include h

theorem dropWhile {low : Nat} (hlow : low ≤ start) :
    Leads (entries.dropWhile (·.version < low)) length start goal synced := by
  have hdrop : (entries.dropWhile (·.version < low)).dropWhile (·.version < start) =
      entries.dropWhile (·.version < start) := by
    clear h
    induction entries with
    | nil => rfl
    | cons e rest ih =>
      by_cases he : e.version < low
      · have hlt := Nat.lt_of_lt_of_le he hlow
        simpa [List.dropWhile_cons, he, hlt] using ih
      · simp [List.dropWhile_cons, he]
  constructor
  case le => exact h.le
  case versions => rw [hdrop, h.versions]
  case composed => rw [hdrop]; exact h.composed

theorem snoc {d step : Delta} {edits : List Edit} (hd : Delta.ofEdits length synced = .ok d)
    (hstep : Delta.ofEdits d.newLength edits = .ok step) :
    Leads (entries ++ [⟨goal, step⟩]) length start (goal + 1) (synced ++ edits) := by
  let last : HistoryEntry := ⟨goal, step⟩
  have hdrop : (entries ++ [last]).dropWhile (·.version < start) =
      entries.dropWhile (·.version < start) ++ [last] := by
    rw [List.dropWhile_append]
    split
    next hnil =>
      rw [List.isEmpty_iff.mp hnil]
      simp [last, h.le]
    next => rfl
  obtain ⟨next, hnext⟩ := Delta.exists_compose (Delta.oldLength_of_ofEdits hstep).symm
  constructor
  case le => exact Nat.le_succ_of_le h.le
  case versions =>
    rw [hdrop, List.map_append, h.versions, Nat.succ_sub h.le, List.range'_concat]
    simp [last, Nat.add_sub_cancel' h.le]
  case composed =>
    obtain ⟨d', hd', hall⟩ := h.composed
    cases hd.symm.trans hd'
    refine ⟨next, ?_, ?_⟩
    · rw [Delta.ofEdits_append, hd]
      change (do d.compose (← Delta.ofEdits d.newLength edits)) = _
      rw [hstep]
      exact hnext
    · rw [hdrop, composeAll_snoc last hall]
      exact hnext

theorem chain {s : History} {uri : String} (hs : s.entriesOf uri = entries) :
    ∃ d, Delta.ofEdits length synced = .ok d ∧ s.chain uri start goal length = .ok d := by
  obtain ⟨d, hd, hall⟩ := h.composed
  refine ⟨d, hd, ?_⟩
  subst hs
  rw [chain_eq h.le h.versions, hall]
  rfl

end Leads

end LanguageClient.History
