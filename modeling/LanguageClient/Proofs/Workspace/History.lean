import LanguageClient.Proofs.Table
import LanguageClient.Workspace.History

namespace LanguageClient

namespace History

/-- The baselines that live scopes hold of a document, and its batches. -/
structure Row where
  marks : List Nat
  entries : List HistoryEntry

namespace Row

def mark (version : Nat) (r : Row) : Row :=
  { r with marks := insertMark version r.marks }

def trim (r : Row) : Row :=
  match r.marks.head? with
  | some low => { r with entries := r.entries.dropWhile (·.version < low) }
  | none => { r with entries := [] }

def unmark (version : Nat) (r : Row) : Row :=
  trim { r with marks := r.marks.erase version }

def keep (b : Batch) (r : Row) : Row :=
  match r.marks.head? with
  | none => r
  | some low =>
    match Delta.ofEdits (Text.size b.previousText) b.edits with
    | .ok d =>
      if low ≤ b.previousVersion then
        { r with entries := r.entries ++ [⟨b.previousVersion, d⟩] }
      else r
    | .error _ => { r with entries := [] }

def forget (r : Row) : Row :=
  { r with entries := [] }

@[simp] theorem marks_trim (r : Row) : r.trim.marks = r.marks := by
  unfold trim
  split <;> rfl

@[simp] theorem marks_unmark (version : Nat) (r : Row) :
    (r.unmark version).marks = r.marks.erase version := by
  simp [unmark]

@[simp] theorem entries_mark (version : Nat) (r : Row) : (r.mark version).entries = r.entries := rfl

theorem mem_of_mem_trim {e : HistoryEntry} {r : Row} (h : e ∈ r.trim.entries) : e ∈ r.entries := by
  unfold trim at h
  split at h
  next => exact (List.dropWhile_sublist _).subset h
  next => cases h

theorem mem_of_mem_keep {b : Batch} {e : HistoryEntry} {r : Row} (h : e ∈ (r.keep b).entries) :
    e ∈ r.entries ∨ e.version = b.previousVersion := by
  unfold keep at h
  split at h
  next => exact .inl h
  next =>
    split at h
    next =>
      split at h
      next =>
        refine (List.mem_append.mp h).imp_right ?_
        intro he
        rw [List.mem_singleton.mp he]
      next => exact .inl h
    next => cases h

end Row

def row (h : History) (uri : String) : Row :=
  ⟨h.marksOf uri, h.entriesOf uri⟩

variable (h : History) (uri other : String) (version : Nat)

@[simp] theorem marks_row : (h.row uri).marks = h.marksOf uri := rfl

@[simp] theorem entries_row : (h.row uri).entries = h.entriesOf uri := rfl

@[simp] theorem entriesOf_setMarks (marks : List Nat) :
    (h.setMarks uri marks).entriesOf other = h.entriesOf other := rfl

@[simp] theorem marksOf_setMarks (marks : List Nat) :
    (h.setMarks uri marks).marksOf uri = marks := by
  cases marks <;> simp [setMarks, marksOf]

theorem marksOf_setMarks_of_ne (hne : uri ≠ other) (marks : List Nat) :
    (h.setMarks uri marks).marksOf other = h.marksOf other := by
  cases marks with
  | nil => simp [setMarks, marksOf, Table.get?_erase_of_ne hne]
  | cons => simp [setMarks, marksOf, Table.get?_put_of_ne hne]

@[simp] theorem row_mark : (h.mark uri version).row uri = (h.row uri).mark version := by
  simp [mark, row, Row.mark]

theorem row_mark_of_ne (hne : uri ≠ other) : (h.mark uri version).row other = h.row other := by
  simp [mark, row, marksOf_setMarks_of_ne _ _ _ hne]

@[simp] theorem row_trim : (h.trim uri).row uri = (h.row uri).trim := by
  unfold trim Row.trim
  cases hlow : h.watermark uri with
  | none =>
    have hhead : (h.row uri).marks.head? = none := hlow
    rw [hhead]
    simp [row, marksOf, entriesOf]
  | some low =>
    have hhead : (h.row uri).marks.head? = some low := hlow
    rw [hhead]
    cases hentries : Table.get? uri h.entries <;> simp [row, marksOf, entriesOf, hentries]

theorem row_trim_of_ne (hne : uri ≠ other) : (h.trim uri).row other = h.row other := by
  unfold trim
  split
  · simp [row, marksOf, entriesOf, Table.get?_adjust_of_ne hne]
  · simp [row, marksOf, entriesOf, Table.get?_erase_of_ne hne]

@[simp] theorem row_unmark : (h.unmark uri version).row uri = (h.row uri).unmark version := by
  rw [unmark, row_trim, Row.unmark]
  simp [row]

theorem row_unmark_of_ne (hne : uri ≠ other) :
    (h.unmark uri version).row other = h.row other := by
  rw [unmark, row_trim_of_ne _ _ _ hne]
  simp [row, marksOf_setMarks_of_ne _ _ _ hne]

@[simp] theorem row_forget : (h.forget uri).row uri = (h.row uri).forget := by
  simp [forget, row, Row.forget, marksOf, entriesOf]

theorem row_forget_of_ne (hne : uri ≠ other) : (h.forget uri).row other = h.row other := by
  simp [forget, row, marksOf, entriesOf, Table.get?_erase_of_ne hne]

section Batch

variable (b : Batch)

theorem exists_record (d : Delta) : ∃ entries, h.record uri version d = { h with entries } := by
  rw [record]
  split
  · split
    · exact ⟨_, rfl⟩
    · exact ⟨h.entries, rfl⟩
  · exact ⟨h.entries, rfl⟩

@[simp] theorem row_recordOrForget : (h.recordOrForget b).row b.uri = (h.row b.uri).keep b := by
  unfold recordOrForget recordBatch Row.keep
  cases hlow : h.watermark b.uri with
  | none =>
    have hhead : (h.row b.uri).marks.head? = none := hlow
    rw [hhead]
    rfl
  | some low =>
    have hhead : (h.row b.uri).marks.head? = some low := hlow
    rw [hhead]
    cases hd : Delta.ofEdits (Text.size b.previousText) b.edits with
    | error fault => simp [row, marksOf, entriesOf]
    | ok d =>
      by_cases hle : low ≤ b.previousVersion
      · simp [record, hlow, hle, row, marksOf, entriesOf]
      · simp [record, hlow, hle]

theorem row_recordOrForget_of_ne (hne : b.uri ≠ other) :
    (h.recordOrForget b).row other = h.row other := by
  unfold recordOrForget recordBatch
  cases hlow : h.watermark b.uri with
  | none => rfl
  | some low =>
    cases hd : Delta.ofEdits (Text.size b.previousText) b.edits with
    | error fault => simp [row, marksOf, entriesOf, Table.get?_erase_of_ne hne]
    | ok d =>
      by_cases hle : low ≤ b.previousVersion
      · simp [record, hlow, hle, row, marksOf, entriesOf, Table.get?_put_of_ne hne]
      · simp [record, hlow, hle]

theorem exists_recordOrForget : ∃ entries, h.recordOrForget b = { h with entries } := by
  rw [recordOrForget]
  split
  next h' heq =>
    rw [recordBatch] at heq
    split at heq
    · cases heq
      exact ⟨h.entries, rfl⟩
    · split at heq
      · cases heq
        exact h.exists_record _ _ _
      · cases heq
  next => exact ⟨_, rfl⟩

theorem exists_foldl_recordOrForget (batches : List Batch) :
    ∃ entries, batches.foldl recordOrForget h = { h with entries } := by
  induction batches generalizing h with
  | nil => exact ⟨h.entries, rfl⟩
  | cons b rest ih =>
    obtain ⟨entries, hb⟩ := h.exists_recordOrForget b
    rw [List.foldl_cons, hb]
    exact ih { h with entries }

end Batch

section Scopes

variable {baseline : Table String Nat}

theorem row_openScope (hb : baseline.Sorted) :
    (h.openScope baseline).2.row uri =
      (Table.get? uri baseline).elim (h.row uri) fun version => (h.row uri).mark version :=
  hb.foldl_at (fun (h : History) e => h.mark e.1 e.2) row (fun _ => Row.mark)
    (fun h uri version => row_mark h uri version)
    (fun h uri version other hne => row_mark_of_ne h uri other version hne) h uri

theorem exists_unmark : ∃ marks entries, h.unmark uri version = { h with marks, entries } := by
  rw [unmark, trim]
  split <;> exact ⟨_, _, rfl⟩

theorem exists_foldl_unmark (baseline : Table String Nat) :
    ∃ marks entries, baseline.foldl (fun h e => h.unmark e.1 e.2) h = { h with marks, entries } := by
  induction baseline generalizing h with
  | nil => exact ⟨h.marks, h.entries, rfl⟩
  | cons e rest ih =>
    obtain ⟨marks, entries, he⟩ := h.exists_unmark e.1 e.2
    rw [List.foldl_cons, he]
    exact ih { h with marks, entries }

variable {id : Nat}

theorem row_releaseScope (hid : Table.get? id h.scopes = some baseline) (hb : baseline.Sorted) :
    (h.releaseScope id).row uri =
      (Table.get? uri baseline).elim (h.row uri) fun version => (h.row uri).unmark version := by
  rw [releaseScope, hid]
  exact hb.foldl_at (fun (h : History) e => h.unmark e.1 e.2) row (fun _ => Row.unmark)
    (fun h uri version => row_unmark h uri version)
    (fun h uri version other hne => row_unmark_of_ne h uri other version hne)
    { h with scopes := Table.erase id h.scopes } uri

@[simp] theorem entriesOf_openScope (hb : baseline.Sorted) :
    (h.openScope baseline).2.entriesOf uri = h.entriesOf uri := by
  have := congrArg Row.entries (row_openScope h uri hb)
  cases hget : Table.get? uri baseline <;> simpa [hget] using this

theorem releaseScope_of_none (hid : Table.get? id h.scopes = none) : h.releaseScope id = h := by
  rw [releaseScope, hid]

theorem mem_of_mem_releaseScope {e : HistoryEntry}
    (hid : Table.get? id h.scopes = some baseline) (hb : baseline.Sorted)
    (he : e ∈ (h.releaseScope id).entriesOf uri) : e ∈ h.entriesOf uri := by
  rw [← entries_row, row_releaseScope h uri hid hb] at he
  cases hget : Table.get? uri baseline with
  | none =>
    rw [hget] at he
    exact he
  | some version =>
    rw [hget] at he
    exact Row.mem_of_mem_trim he

theorem scopes_releaseScope (hid : Table.get? id h.scopes = some baseline) :
    (h.releaseScope id).scopes = Table.erase id h.scopes := by
  obtain ⟨marks, entries, hfold⟩ :=
    exists_foldl_unmark { h with scopes := Table.erase id h.scopes } baseline
  rw [releaseScope, hid]
  exact congrArg History.scopes hfold

@[simp] theorem nextScope_releaseScope : (h.releaseScope id).nextScope = h.nextScope := by
  cases hid : Table.get? id h.scopes with
  | none => rw [h.releaseScope_of_none hid]
  | some baseline =>
    obtain ⟨marks, entries, hfold⟩ :=
      exists_foldl_unmark { h with scopes := Table.erase id h.scopes } baseline
    rw [releaseScope, hid]
    exact (congrArg History.nextScope hfold :)

end Scopes

end History

end LanguageClient
