import LanguageClient.Proofs.Workspace.Documents

namespace LanguageClient.Documents

structure Sound (s : Documents) : Prop where
  sorted : s.workspace.documents.Sorted
  edited : ∀ {uri d}, s.get? uri = some d → Edit.applyAll d.pending d.syncedText = .ok d.text
  fresh : ∀ {uri d}, s.get? uri = some d → d.id < s.workspace.nextId
  past : ∀ {uri e}, e ∈ s.history.entriesOf uri → ∃ d, s.get? uri = some d ∧ e.version < d.version
  history : s.history.Sound

namespace Sound

variable {s s' : Documents} {uri : String} {d d' : Document} (hs : s.Sound)
include hs

theorem put (hget : s.get? uri = some d) (hbaseline : d'.baseline = d.baseline)
    (hedited : Edit.applyAll d'.pending d'.syncedText = .ok d'.text) : (s.put uri d').Sound where
  sorted := hs.sorted.put uri d'
  edited h := by
    cases get?_put_cases h with
    | inl heq => exact heq.2 ▸ hedited
    | inr hne => exact hs.edited hne.2
  fresh h := by
    cases get?_put_cases h with
    | inl heq =>
      rw [heq.2, (Document.baseline_eq_iff.mp hbaseline).1]
      exact hs.fresh hget
    | inr hne => exact hs.fresh hne.2
  past {other e} he := by
    obtain ⟨d₀, hd₀, hlt⟩ := hs.past he
    by_cases heq : uri = other
    · subst heq
      cases hget.symm.trans hd₀
      obtain ⟨-, hversion, -⟩ := Document.baseline_eq_iff.mp hbaseline
      exact ⟨d', get?_put_self, hversion ▸ hlt⟩
    · exact ⟨d₀, (get?_put_of_ne heq).trans hd₀, hlt⟩
  history := hs.history

theorem add {languageId text : String} (hnone : s.get? uri = none) :
    (s.add uri languageId text).Sound where
  sorted := hs.sorted.put uri _
  edited h := by
    cases get?_add_cases h with
    | inl heq =>
      rw [heq.2]
      rfl
    | inr hne => exact hs.edited hne.2
  fresh h := by
    cases get?_add_cases h with
    | inl heq =>
      rw [heq.2]
      exact Nat.lt_succ_self _
    | inr hne => exact Nat.lt_succ_of_lt (hs.fresh hne.2)
  past {other e} he := by
    obtain ⟨d, hd, hlt⟩ := hs.past he
    have hne : uri ≠ other := by
      rintro rfl
      rw [hd] at hnone
      cases hnone
    exact ⟨d, (get?_add_of_ne hne).trans hd, hlt⟩
  history := hs.history

theorem erase : (s.erase uri).Sound where
  sorted := hs.sorted.erase uri
  edited h := hs.edited (get?_of_erase h).2
  fresh h := hs.fresh (get?_of_erase h).2
  past {other e} he := by
    change e ∈ ((s.history.forget uri).row other).entries at he
    by_cases heq : uri = other
    · subst heq
      rw [s.history.row_forget] at he
      cases he
    · rw [s.history.row_forget_of_ne _ _ heq] at he
      obtain ⟨d, hd, hlt⟩ := hs.past he
      exact ⟨d, (get?_erase_of_ne heq).trans hd, hlt⟩
  history := hs.history.withEntries _

theorem sync : s.sync.2.Sound where
  sorted := hs.sorted.map fun e => e.2.synced
  edited {uri d'} h := by
    rw [get?_sync] at h
    obtain ⟨d, hget, rfl⟩ := Option.map_eq_some_iff.mp h
    cases hp : d.hasPending with
    | true =>
      rw [d.synced_of_hasPending hp]
      rfl
    | false =>
      rw [d.synced_of_not_hasPending hp]
      exact hs.edited hget
  fresh {uri d'} h := by
    rw [get?_sync] at h
    obtain ⟨d, hget, rfl⟩ := Option.map_eq_some_iff.mp h
    rw [Document.id_synced]
    exact hs.fresh hget
  past {uri e} he := by
    rw [← History.entries_row, row_sync hs.sorted] at he
    have hpast : ∀ {e}, e ∈ s.history.entriesOf uri →
        ∃ d, s.sync.2.get? uri = some d ∧ e.version < d.version := by
      intro e he
      obtain ⟨d, hget, hlt⟩ := hs.past he
      refine ⟨d.synced, ?_, Nat.lt_of_lt_of_le hlt d.version_le_synced⟩
      rw [get?_sync, hget]
      rfl
    cases hd : (s.get? uri).filter Document.hasPending with
    | none =>
      rw [hd] at he
      exact hpast he
    | some d =>
      rw [hd] at he
      obtain ⟨hget, hp⟩ := Option.filter_eq_some_iff.mp hd
      cases History.Row.mem_of_mem_keep he with
      | inl he => exact hpast he
      | inr hversion =>
        refine ⟨d.synced, ?_, ?_⟩
        · rw [get?_sync, hget]
          rfl
        · rw [hversion, d.synced_of_hasPending hp]
          exact Nat.lt_succ_self _
  history := by
    obtain ⟨entries, hhistory⟩ := s.exists_history_sync
    rw [hhistory]
    exact hs.history.withEntries entries

theorem sorted_baseline : s.startMapping.1.baseline.Sorted :=
  hs.sorted.map fun e => e.2.baseline

theorem sorted_versions : s.versions.Sorted :=
  hs.sorted_baseline.map fun e => e.2.version

theorem startMapping : s.startMapping.2.Sound where
  sorted := hs.sorted
  edited := hs.edited
  fresh := hs.fresh
  past {uri e} he := by
    rw [history_startMapping, History.entriesOf_openScope _ _ hs.sorted_versions] at he
    exact hs.past he
  history := hs.history.openScope hs.sorted_versions

theorem release (m : Mapping) : (s.release m).Sound where
  sorted := hs.sorted
  edited := hs.edited
  fresh := hs.fresh
  past {uri e} he := by
    cases hid : Table.get? m.scope s.history.scopes with
    | none =>
      change e ∈ (s.history.releaseScope m.scope).entriesOf uri at he
      rw [s.history.releaseScope_of_none hid] at he
      exact hs.past he
    | some baseline =>
      have hb := hs.history.baselines _ (Table.mem_of_get? hid)
      exact hs.past (History.mem_of_mem_releaseScope _ _ hid hb he)
  history := hs.history.releaseScope m.scope

theorem step {mv : Move} (h : s.Step mv s') : s'.Sound := by
  cases h with
  | refused => exact hs
  | changed _ _ hget hbaseline hpending htext =>
    apply hs.put hget hbaseline
    rw [hpending, (Document.baseline_eq_iff.mp hbaseline).2.2, Edit.applyAll_append,
      hs.edited hget]
    exact htext
  | opened hnone => exact hs.add hnone
  | closed => exact hs.erase
  | synced => exact hs.sync
  | mapped => exact hs.startMapping
  | released m => exact hs.release m

end Sound

theorem sound_new (policy : HolderPolicy) : (new policy).Sound where
  sorted := Table.sorted_nil
  edited h := by cases h
  fresh h := by cases h
  past h := by cases h
  history := History.sound_empty

end LanguageClient.Documents
