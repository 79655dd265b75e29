import LanguageClient.Proofs.Delta.Replay
import LanguageClient.Proofs.Workspace.Scopes
import LanguageClient.Workspace.Mapping

namespace LanguageClient

theorem Edit.applyAll_append (xs ys : List Edit) (text : String) :
    Edit.applyAll (xs ++ ys) text = (do Edit.applyAll ys (← Edit.applyAll xs text)) :=
  List.foldlM_append

theorem Delta.exists_ofEdits {edits : List Edit} {text text' : String}
    (h : Edit.applyAll edits text = .ok text') :
    ∃ d, Delta.ofEdits (Text.size text) edits = .ok d ∧ d.newLength = Text.size text' := by
  obtain ⟨d, hd, -, -, hnew, -⟩ := Delta.ofEdits_replay h
  exact ⟨d, hd, hnew⟩

namespace Workspace

variable (w : Workspace) (uri other : String) (d : Document)

@[simp] theorem get?_put_self : (w.put uri d).get? uri = some d :=
  Table.get?_put_self uri d w.documents

theorem get?_put_of_ne (h : uri ≠ other) : (w.put uri d).get? other = w.get? other :=
  Table.get?_put_of_ne h d w.documents

@[simp] theorem get?_sync : w.sync.2.get? uri = (w.get? uri).map Document.synced :=
  Table.get?_map uri (fun _ d => Document.synced d) w.documents

def add (w : Workspace) (uri languageId text : String) : Workspace :=
  { w.put uri (Document.fresh w.nextId languageId text) with nextId := w.nextId + 1 }

def erase (w : Workspace) (uri : String) : Workspace :=
  { w with documents := Table.erase uri w.documents }

section Lookup

variable {w : Workspace} {uri other : String} {d d' : Document}

theorem get?_put_cases (h : (w.put uri d').get? other = some d) :
    uri = other ∧ d = d' ∨ uri ≠ other ∧ w.get? other = some d := by
  by_cases heq : uri = other
  · subst heq
    rw [get?_put_self] at h
    exact .inl ⟨rfl, (Option.some.inj h).symm⟩
  · rw [get?_put_of_ne w uri other d' heq] at h
    exact .inr ⟨heq, h⟩

theorem get?_add_cases {languageId text : String}
    (h : (w.add uri languageId text).get? other = some d) :
    uri = other ∧ d = .fresh w.nextId languageId text ∨ uri ≠ other ∧ w.get? other = some d :=
  get?_put_cases h

theorem get?_of_erase (h : (w.erase uri).get? other = some d) :
    uri ≠ other ∧ w.get? other = some d := by
  have hne : uri ≠ other := by
    rintro rfl
    rw [erase, get?, Table.get?_erase_self] at h
    cases h
  exact ⟨hne, (Table.get?_erase_of_ne hne w.documents).symm.trans h⟩

end Lookup

section Cases

variable {w w' : Workspace} {uri : String}

theorem openFile_cases {languageId text : String} {outcome : OpenOutcome}
    (h : w.openFile uri languageId text = .ok (outcome, w')) :
    (∃ d, w.get? uri = some d ∧ outcome = .joined (d.holders + 1) ∧
      w' = w.put uri { d with holders := d.holders + 1 }) ∨
    (w.get? uri = none ∧ outcome = .opened (.fresh w.nextId languageId text) ∧
      w' = w.add uri languageId text) := by
  unfold openFile at h
  cases hget : w.get? uri with
  | none =>
    rw [hget] at h
    cases h
    exact .inr ⟨rfl, rfl, rfl⟩
  | some d =>
    rw [hget] at h
    cases hpolicy : w.policy with
    | exclusive =>
      simp only [hpolicy] at h
      cases h
    | shared =>
      simp only [hpolicy] at h
      cases h
      exact .inl ⟨d, rfl, rfl, rfl⟩

theorem closeFile_cases {outcome : CloseOutcome} (h : w.closeFile uri = .ok (outcome, w')) :
    ∃ d, w.get? uri = some d ∧
      (d.holders ≤ 1 ∧ outcome = .closed ∧ w' = w.erase uri ∨
      1 < d.holders ∧ outcome = .released (d.holders - 1) ∧
        w' = w.put uri { d with holders := d.holders - 1 }) := by
  unfold closeFile at h
  cases hget : w.get? uri with
  | none =>
    rw [hget] at h
    cases h
  | some d =>
    rw [hget] at h
    by_cases hholders : d.holders ≤ 1
    · simp only [hholders, if_true] at h
      cases h
      exact ⟨d, rfl, .inl ⟨hholders, rfl, rfl⟩⟩
    · simp only [hholders, if_false] at h
      cases h
      exact ⟨d, rfl, .inr ⟨Nat.lt_of_not_le hholders, rfl, rfl⟩⟩

theorem updateFile_cases {edits : List Edit} (h : w.updateFile uri edits = .ok w') :
    ∃ d text, w.get? uri = some d ∧
      Edit.applyAll (edits.filter (!·.isEmpty)) d.text = .ok text ∧
      w' = w.put uri { d with text, pending := d.pending ++ edits.filter (!·.isEmpty) } := by
  unfold updateFile Document.edit at h
  cases hget : w.get? uri with
  | none =>
    rw [hget] at h
    cases h
  | some d =>
    rw [hget] at h
    dsimp only at h
    cases happly : Edit.applyAll (edits.filter (!·.isEmpty)) d.text with
    | error refusal =>
      rw [happly] at h
      cases h
    | ok text =>
      rw [happly] at h
      cases h
      exact ⟨d, text, rfl, happly, rfl⟩

end Cases

end Workspace

namespace Document

variable (d : Document)

@[simp] theorem id_synced : d.synced.id = d.id := by
  unfold synced
  split <;> rfl

theorem synced_of_hasPending (h : d.hasPending = true) :
    d.synced = { d with version := d.version + 1, syncedText := d.text, pending := [] } := by
  rw [synced, if_pos h]

theorem synced_of_not_hasPending (h : d.hasPending = false) : d.synced = d := by
  simp [synced, h]

theorem pending_of_not_hasPending (h : d.hasPending = false) : d.pending = [] := by
  simpa [hasPending] using h

@[simp] theorem pending_synced : d.synced.pending = [] := by
  cases h : d.hasPending with
  | true => rw [synced_of_hasPending d h]
  | false => rw [synced_of_not_hasPending d h, pending_of_not_hasPending d h]

def baseline (d : Document) : Baseline :=
  ⟨d.id, d.version, d.syncedText⟩

theorem baseline_eq_iff {d d' : Document} :
    d'.baseline = d.baseline ↔
      d'.id = d.id ∧ d'.version = d.version ∧ d'.syncedText = d.syncedText :=
  Baseline.mk.injEq .. ▸ .rfl

theorem version_le_synced : d.version ≤ d.synced.version := by
  unfold synced
  split
  · exact Nat.le_succ _
  · exact Nat.le_refl _

end Document

namespace Documents

inductive Move
  | openFile (uri languageId text : String)
  | closeFile (uri : String)
  | updateFile (uri : String) (edits : List Edit)
  | sync
  | startMapping
  | release (m : Mapping)

def move (s : Documents) : Move → Documents
  | .openFile uri languageId text =>
    match s.openFile uri languageId text with
    | .ok (_, s') => s'
    | .error _ => s
  | .closeFile uri =>
    match s.closeFile uri with
    | .ok (_, s') => s'
    | .error _ => s
  | .updateFile uri edits =>
    match s.updateFile uri edits with
    | .ok s' => s'
    | .error _ => s
  | .sync => s.sync.2
  | .startMapping => s.startMapping.2
  | .release m => s.release m

namespace Move

def closes (s : Documents) (uri : String) : Move → Bool
  | .closeFile uri' =>
    uri' = uri && match s.closeFile uri with
      | .ok (.closed, _) => true
      | _ => false
  | _ => false

def edits (s : Documents) (uri : String) : Move → List Edit
  | .updateFile uri' edits =>
    if uri' = uri ∧ (s.updateFile uri edits).toBool then edits.filter (!·.isEmpty) else []
  | _ => []

def isQuiet : Move → Bool
  | .closeFile _ | .updateFile _ _ => false
  | _ => true

def released? : Move → Option Nat
  | .release m => some m.scope
  | _ => none

end Move

def get? (s : Documents) (uri : String) : Option Document :=
  s.workspace.get? uri

def put (s : Documents) (uri : String) (d : Document) : Documents :=
  { s with workspace := s.workspace.put uri d }

def add (s : Documents) (uri languageId text : String) : Documents :=
  { s with workspace :=
    { s.workspace.put uri (Document.fresh s.workspace.nextId languageId text) with
      nextId := s.workspace.nextId + 1 } }

def erase (s : Documents) (uri : String) : Documents where
  workspace := { s.workspace with documents := Table.erase uri s.workspace.documents }
  history := s.history.forget uri

variable {s s' : Documents} {uri other : String} {d d' : Document}

@[simp] theorem get?_put_self : (s.put uri d).get? uri = some d :=
  s.workspace.get?_put_self uri d

theorem get?_put_of_ne (h : uri ≠ other) : (s.put uri d).get? other = s.get? other :=
  s.workspace.get?_put_of_ne uri other d h

theorem get?_put_cases (h : (s.put uri d').get? other = some d) :
    uri = other ∧ d = d' ∨ uri ≠ other ∧ s.get? other = some d :=
  Workspace.get?_put_cases h

section Lookup

variable {languageId text : String}

@[simp] theorem get?_add_self :
    (s.add uri languageId text).get? uri = some (.fresh s.workspace.nextId languageId text) :=
  get?_put_self

theorem get?_add_of_ne (h : uri ≠ other) :
    (s.add uri languageId text).get? other = s.get? other :=
  get?_put_of_ne h

theorem get?_add_cases (h : (s.add uri languageId text).get? other = some d) :
    uri = other ∧ d = .fresh s.workspace.nextId languageId text ∨
      uri ≠ other ∧ s.get? other = some d :=
  get?_put_cases h

@[simp] theorem get?_erase_self : (s.erase uri).get? uri = none :=
  Table.get?_erase_self uri _

theorem get?_erase_of_ne (h : uri ≠ other) : (s.erase uri).get? other = s.get? other :=
  Table.get?_erase_of_ne h _

theorem get?_of_erase (h : (s.erase uri).get? other = some d) :
    uri ≠ other ∧ s.get? other = some d :=
  Workspace.get?_of_erase h

end Lookup

section Cases

theorem openFile_cases {languageId text : String} {outcome : OpenOutcome}
    (h : s.openFile uri languageId text = .ok (outcome, s')) :
    (∃ d, s.get? uri = some d ∧ outcome = .joined (d.holders + 1) ∧
      s' = s.put uri { d with holders := d.holders + 1 }) ∨
    (s.get? uri = none ∧
      outcome = .opened (.fresh s.workspace.nextId languageId text) ∧
      s' = s.add uri languageId text) := by
  obtain ⟨⟨outcome', w⟩, hw, heq⟩ := exists_of_bind_eq_ok h
  cases heq
  obtain ⟨d, hget, houtcome, hw'⟩ | ⟨hnone, houtcome, hw'⟩ := Workspace.openFile_cases hw
  · exact .inl ⟨d, hget, houtcome, congrArg (Documents.mk · s.history) hw'⟩
  · exact .inr ⟨hnone, houtcome, congrArg (Documents.mk · s.history) hw'⟩

theorem closeFile_cases {outcome : CloseOutcome} (h : s.closeFile uri = .ok (outcome, s')) :
    ∃ d, s.get? uri = some d ∧
      (outcome = .closed ∧ s' = s.erase uri ∨
      outcome = .released (d.holders - 1) ∧
        s' = s.put uri { d with holders := d.holders - 1 }) := by
  obtain ⟨⟨outcome', w⟩, hw, heq⟩ := exists_of_bind_eq_ok h
  cases heq
  obtain ⟨d, hget, ⟨-, rfl, rfl⟩ | ⟨-, rfl, rfl⟩⟩ := Workspace.closeFile_cases hw
  · exact ⟨d, hget, .inl ⟨rfl, rfl⟩⟩
  · exact ⟨d, hget, .inr ⟨rfl, rfl⟩⟩

theorem updateFile_cases {edits : List Edit} (h : s.updateFile uri edits = .ok s') :
    ∃ d text, s.get? uri = some d ∧
      Edit.applyAll (edits.filter (!·.isEmpty)) d.text = .ok text ∧
      s' = s.put uri { d with text, pending := d.pending ++ edits.filter (!·.isEmpty) } := by
  obtain ⟨w, hw, heq⟩ := exists_of_bind_eq_ok h
  cases heq
  obtain ⟨d, text, hget, happly, rfl⟩ := Workspace.updateFile_cases hw
  exact ⟨d, text, hget, happly, rfl⟩

end Cases

section Step

/-- What a move does, and what it says of itself. -/
inductive Step (s : Documents) : Move → Documents → Prop
  | refused {mv : Move} (hcloses : ∀ uri, mv.closes s uri = false)
      (hedits : ∀ uri, mv.edits s uri = []) : Step s mv s
  | changed {mv : Move} {uri : String} {d d' : Document} {more : List Edit}
      (hcloses : ∀ other, mv.closes s other = false)
      (hedits : ∀ other, mv.edits s other = if uri = other then more else [])
      (hget : s.get? uri = some d) (hbaseline : d'.baseline = d.baseline)
      (hpending : d'.pending = d.pending ++ more)
      (htext : Edit.applyAll more d.text = .ok d'.text) : Step s mv (s.put uri d')
  | opened {uri languageId text : String} (hnone : s.get? uri = none) :
      Step s (.openFile uri languageId text) (s.add uri languageId text)
  | closed {uri : String}
      (hcloses : ∀ other, (Move.closeFile uri).closes s other = decide (uri = other)) :
      Step s (.closeFile uri) (s.erase uri)
  | synced : Step s .sync s.sync.2
  | mapped : Step s .startMapping s.startMapping.2
  | released (m : Mapping) : Step s (.release m) (s.release m)

theorem closes_closeFile (s : Documents) (uri other : String) :
    (Move.closeFile uri).closes s other =
      (decide (uri = other) && match s.closeFile uri with
        | .ok (.closed, _) => true
        | _ => false) := by
  by_cases heq : uri = other
  · rw [heq]
    rfl
  · simp [Move.closes, heq]

theorem edits_updateFile (s : Documents) (uri other : String) (edits : List Edit) :
    (Move.updateFile uri edits).edits s other =
      if uri = other ∧ (s.updateFile uri edits).toBool then edits.filter (!·.isEmpty) else [] := by
  by_cases heq : uri = other
  · rw [heq]
    rfl
  · simp [Move.edits, heq]

theorem step_openFile {languageId text : String} {outcome : OpenOutcome}
    (h : s.openFile uri languageId text = .ok (outcome, s')) :
    s.Step (.openFile uri languageId text) s' := by
  obtain ⟨d, hget, -, rfl⟩ | ⟨hnone, -, rfl⟩ := openFile_cases h
  · exact .changed (fun _ => rfl) (fun _ => (ite_self []).symm) hget rfl (List.append_nil _).symm rfl
  · exact .opened hnone

theorem step_closeFile {outcome : CloseOutcome} (h : s.closeFile uri = .ok (outcome, s')) :
    s.Step (.closeFile uri) s' := by
  obtain ⟨d, hget, ⟨rfl, rfl⟩ | ⟨rfl, rfl⟩⟩ := closeFile_cases h
  · apply Step.closed
    simp [closes_closeFile, h]
  · refine .changed ?_ (fun _ => (ite_self []).symm) hget rfl (List.append_nil _).symm rfl
    simp [closes_closeFile, h]

theorem step_updateFile {edits : List Edit} (h : s.updateFile uri edits = .ok s') :
    s.Step (.updateFile uri edits) s' := by
  obtain ⟨d, text, hget, htext, rfl⟩ := updateFile_cases h
  refine .changed (fun _ => rfl) ?_ hget rfl rfl htext
  simp [edits_updateFile, h, Except.toBool]

theorem step_move (s : Documents) (mv : Move) : s.Step mv (s.move mv) := by
  cases mv with
  | openFile uri languageId text =>
    rw [move]
    split
    next h => exact step_openFile h
    next => exact .refused (fun _ => rfl) (fun _ => rfl)
  | closeFile uri =>
    rw [move]
    split
    next h => exact step_closeFile h
    next h =>
      refine .refused ?_ (fun _ => rfl)
      simp [closes_closeFile, h]
  | updateFile uri edits =>
    rw [move]
    split
    next h => exact step_updateFile h
    next h =>
      refine .refused (fun _ => rfl) ?_
      simp [edits_updateFile, h, Except.toBool]
  | sync => exact .synced
  | startMapping => exact .mapped
  | release m => exact .released m

end Step

section Sync

def edited (s : Documents) : Table String Document :=
  s.workspace.documents.filter (·.2.hasPending)

theorem history_sync (s : Documents) :
    s.sync.2.history =
      s.edited.foldl (fun h e => h.recordOrForget (e.2.batch e.1)) s.history :=
  List.foldl_map

@[simp] theorem get?_sync (s : Documents) (uri : String) :
    s.sync.2.get? uri = (s.get? uri).map Document.synced :=
  s.workspace.get?_sync uri

theorem get?_edited (hs : s.workspace.documents.Sorted) (uri : String) :
    Table.get? uri s.edited = (s.get? uri).filter Document.hasPending :=
  hs.get?_filter (fun e => e.2.hasPending) uri

theorem row_sync (hs : s.workspace.documents.Sorted) (uri : String) :
    s.sync.2.history.row uri =
      ((s.get? uri).filter Document.hasPending).elim (s.history.row uri)
        fun d => (s.history.row uri).keep (d.batch uri) := by
  rw [history_sync, ← get?_edited hs]
  exact (hs.filter _).foldl_at (fun (h : History) e => h.recordOrForget (e.2.batch e.1))
    History.row (fun uri d => History.Row.keep (d.batch uri))
    (fun h uri d => h.row_recordOrForget (d.batch uri))
    (fun h uri d other hne => h.row_recordOrForget_of_ne other (d.batch uri) hne) s.history uri

theorem exists_history_sync (s : Documents) :
    ∃ entries, s.sync.2.history = { s.history with entries } :=
  s.history.exists_foldl_recordOrForget s.sync.1

end Sync

section Mapping

def versions (s : Documents) : Table String Nat :=
  s.startMapping.1.baseline.map fun e => (e.1, e.2.version)

theorem history_startMapping (s : Documents) :
    s.startMapping.2.history = (s.history.openScope s.versions).2 := rfl

theorem get?_baseline (s : Documents) (uri : String) :
    Table.get? uri s.startMapping.1.baseline =
      (s.get? uri).map Document.baseline :=
  Table.get?_map uri (fun _ d => Document.baseline d) s.workspace.documents

end Mapping

end Documents

end LanguageClient
