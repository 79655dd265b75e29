import LanguageClient.Proofs.Client.Wire
import LanguageClient.Proofs.Workspace.Sound

namespace LanguageClient

open Json (string?)

inductive DocumentNotice
  | opened (uri : String) (version : Nat) (text : String)
  | changed (uri : String) (version : Nat) (text : Option String)
  | closed (uri : String)
  deriving DecidableEq, Repr

namespace DocumentNotice

def version? : Json → Option Nat
  | .integer (.ofNat n) => some n
  | _ => none

def wholeText? : Json → Option String
  | .array [change] =>
    match change.get? "range" with
    | some _ => none
    | none => (change.get? "text").bind string?
  | _ => none

def read? (method : String) (params : Json) : Option DocumentNotice := do
  let document ← params.get? "textDocument"
  let uri ← (← document.get? "uri").string?
  match method with
  | "textDocument/didOpen" =>
    return .opened uri (← version? (← document.get? "version"))
      (← (← document.get? "text").string?)
  | "textDocument/didChange" =>
    return .changed uri (← version? (← document.get? "version"))
      (wholeText? (← params.get? "contentChanges"))
  | "textDocument/didClose" => return .closed uri
  | _ => none

end DocumentNotice

theorem Json.get?_ofFields (key : String) (fields : List (String × Json)) :
    (ofFields fields).get? key = Table.get? key fields.reverse :=
  Table.get?_ofEntries key fields

namespace Frame

def documentNotice? : Frame → Option DocumentNotice
  | .notification method (some params) => DocumentNotice.read? method params
  | _ => none

def IsWhole (f : Frame) : Prop :=
  ∀ uri version, f.documentNotice? ≠ some (.changed uri version none)

theorem documentNotice?_didOpen (uri : String) (d : Document) :
    (didOpen uri d).documentNotice? = some (.opened uri d.version d.syncedText) := by
  simp [didOpen, documentNotice?, DocumentNotice.read?, DidOpenParams.toJson, DocumentItem.toJson,
    Json.get?_ofFields, Table.get?, string?, DocumentNotice.version?, Json.ofNat]

theorem documentNotice?_didClose (uri : String) :
    (didClose uri).documentNotice? = some (.closed uri) := rfl

theorem documentNotice?_didChange (b : Batch) (changes : List ContentChange) :
    (didChange b changes).documentNotice? = some (.changed b.uri b.version
      (DocumentNotice.wholeText? (.array (changes.map ContentChange.toJson)))) := by
  simp [didChange, documentNotice?, DocumentNotice.read?, DidChangeParams.toJson,
    VersionedDocumentId.toJson, Json.get?_ofFields, Table.get?, string?, DocumentNotice.version?,
    Json.ofNat]

end Frame

section Whole

theorem ContentChange.isSome_range_of_sequential? {edits : List Edit} {text : String}
    {changes : List ContentChange} (h : sequential? edits text = some changes) :
    ∀ c ∈ changes, c.range.isSome := by
  induction edits generalizing text changes with
  | nil =>
    cases h
    intro c hc
    cases hc
  | cons e rest ih =>
    rw [sequential?] at h
    obtain ⟨next, -, h⟩ := Option.bind_eq_some_iff.mp h
    obtain ⟨more, hmore, h⟩ := Option.bind_eq_some_iff.mp h
    cases h
    intro c hc
    cases hc with
    | head => rfl
    | tail _ hc => exact ih hmore c hc

theorem DocumentNotice.wholeText?_of_ranges {changes : List ContentChange}
    (h : ∀ c ∈ changes, c.range.isSome) :
    wholeText? (.array (changes.map ContentChange.toJson)) = none := by
  cases changes with
  | nil => rfl
  | cons c rest =>
    cases rest with
    | cons c' rest => rfl
    | nil =>
      obtain ⟨range, text⟩ := c
      obtain ⟨r, rfl⟩ := Option.isSome_iff_exists.mp (h ⟨range, text⟩ List.mem_cons_self)
      simp [wholeText?, ContentChange.toJson, Json.ofPresent, Json.get?_ofFields, Table.get?]

theorem Frame.documentNotice?_of_isWhole {b : Batch} {kind : SyncKind} {threshold : Nat}
    (h : (didChange b (b.contentChanges kind threshold)).IsWhole) :
    (didChange b (b.contentChanges kind threshold)).documentNotice? =
      some (.changed b.uri b.version (some b.text)) := by
  have hwhole : (didChange b [⟨none, b.text⟩]).documentNotice? =
      some (.changed b.uri b.version (some b.text)) := documentNotice?_didChange b _
  unfold Batch.contentChanges at h ⊢
  dsimp only at h ⊢
  split at h
  next hsize =>
    rw [if_pos hsize]
    cases hchanges : ContentChange.sequential? b.edits b.previousText with
    | none => exact hwhole
    | some changes =>
      rw [hchanges, Option.getD_some] at h
      have hnone := DocumentNotice.wholeText?_of_ranges
        (ContentChange.isSome_range_of_sequential? hchanges)
      exact absurd ((documentNotice?_didChange b changes).trans (by rw [hnone])) (h _ _)
  next hsize =>
    rw [if_neg hsize]
    exact hwhole

end Whole

abbrev Mirror := Table String (Nat × String)

namespace Mirror

def hear (m : Mirror) (f : Frame) : Mirror :=
  match f.documentNotice? with
  | some (.opened uri version text) => Table.put uri (version, text) m
  | some (.changed uri version text) =>
    Table.adjust uri (fun known => (version, text.getD known.2)) m
  | some (.closed uri) => Table.erase uri m
  | none => m

def ofFrames (fs : List Frame) : Mirror :=
  fs.foldl hear []

def InTurn : Mirror → List Frame → Prop
  | _, [] => True
  | m, f :: rest =>
    (∀ uri version text, f.documentNotice? = some (.changed uri version text) →
      ∃ known, Table.get? uri m = some known ∧ version = known.1 + 1) ∧ InTurn (m.hear f) rest

/-- A server knows exactly the open documents, as of their last sync. -/
def Agrees (m : Mirror) (s : Documents) : Prop :=
  ∀ uri, Table.get? uri m = (s.get? uri).map fun d => (d.version, d.syncedText)

theorem ofFrames_append (fs gs : List Frame) :
    ofFrames (fs ++ gs) = gs.foldl hear (ofFrames fs) :=
  List.foldl_append

theorem inTurn_append {m : Mirror} {fs gs : List Frame} :
    m.InTurn (fs ++ gs) ↔ m.InTurn fs ∧ (fs.foldl hear m).InTurn gs := by
  induction fs generalizing m with
  | nil => simp [InTurn]
  | cons f rest ih => simp [InTurn, ih, and_assoc]

theorem foldl_hear_of_silent {m : Mirror} {fs : List Frame}
    (h : ∀ f ∈ fs, f.documentNotice? = none) : fs.foldl hear m = m := by
  induction fs generalizing m with
  | nil => rfl
  | cons f rest ih =>
    have hf : m.hear f = m := by rw [hear, h f List.mem_cons_self]
    rw [List.foldl_cons, hf]
    exact ih fun f' h' => h f' (List.mem_cons_of_mem _ h')

theorem inTurn_of_unchanged {m : Mirror} {fs : List Frame}
    (h : ∀ f ∈ fs, ∀ uri version text, f.documentNotice? ≠ some (.changed uri version text)) :
    m.InTurn fs := by
  induction fs generalizing m with
  | nil => trivial
  | cons f rest ih =>
    refine ⟨?_, ih fun f' h' => h f' (List.mem_cons_of_mem _ h')⟩
    intro uri version text hf
    exact absurd hf (h f List.mem_cons_self uri version text)

theorem inTurn_of_silent {m : Mirror} {fs : List Frame}
    (h : ∀ f ∈ fs, f.documentNotice? = none) : m.InTurn fs := by
  apply inTurn_of_unchanged
  intro f hf uri version text hnotice
  rw [h f hf] at hnotice
  cases hnotice

section Hear

variable {m : Mirror} {f : Frame} {uri other : String} {version : Nat}

theorem hear_opened {text : String} (h : f.documentNotice? = some (.opened uri version text)) :
    m.hear f = Table.put uri (version, text) m := by
  rw [hear, h]

theorem hear_changed {text : String}
    (h : f.documentNotice? = some (.changed uri version (some text))) :
    m.hear f = Table.adjust uri (fun _ => (version, text)) m := by
  rw [hear, h]
  rfl

theorem hear_closed (h : f.documentNotice? = some (.closed uri)) :
    m.hear f = Table.erase uri m := by
  rw [hear, h]

end Hear

namespace Agrees

variable {m : Mirror} {s s' : Documents} {uri : String} (h : m.Agrees s)
include h

theorem put {d d' : Document} (hget : s.get? uri = some d) (hbaseline : d'.baseline = d.baseline) :
    m.Agrees (s.put uri d') := by
  obtain ⟨-, hversion, htext⟩ := Document.baseline_eq_iff.mp hbaseline
  intro other
  by_cases heq : uri = other
  · subst heq
    rw [h uri, hget, Documents.get?_put_self, Option.map_some, Option.map_some, hversion, htext]
  · rw [Documents.get?_put_of_ne heq]
    exact h other

theorem joinFile {languageId text : String} {holders : Nat}
    (hopen : s.openFile uri languageId text = .ok (.joined holders, s')) : m.Agrees s' := by
  obtain ⟨d, hget, -, rfl⟩ | ⟨-, hopened, -⟩ := Documents.openFile_cases hopen
  · exact h.put hget rfl
  · cases hopened

theorem openFile {languageId text : String} {d : Document}
    (hopen : s.openFile uri languageId text = .ok (.opened d, s')) :
    (m.hear (.didOpen uri d)).Agrees s' := by
  obtain ⟨d', -, hjoined, -⟩ | ⟨-, hopened, rfl⟩ := Documents.openFile_cases hopen
  · cases hjoined
  · cases hopened
    intro other
    rw [hear_opened (Frame.documentNotice?_didOpen uri _)]
    by_cases heq : uri = other
    · subst heq
      rw [Table.get?_put_self, Documents.get?_add_self]
      rfl
    · rw [Table.get?_put_of_ne heq, Documents.get?_add_of_ne heq]
      exact h other

theorem leaveFile {remaining : Nat}
    (hclose : s.closeFile uri = .ok (.released remaining, s')) : m.Agrees s' := by
  obtain ⟨d, hget, ⟨hclosed, -⟩ | ⟨-, rfl⟩⟩ := Documents.closeFile_cases hclose
  · cases hclosed
  · exact h.put hget rfl

theorem closeFile (hclose : s.closeFile uri = .ok (.closed, s')) :
    (m.hear (.didClose uri)).Agrees s' := by
  obtain ⟨d, -, ⟨-, rfl⟩ | ⟨hreleased, -⟩⟩ := Documents.closeFile_cases hclose
  · intro other
    rw [hear_closed (Frame.documentNotice?_didClose uri)]
    by_cases heq : uri = other
    · subst heq
      rw [Table.get?_erase_self, Documents.get?_erase_self]
      rfl
    · rw [Table.get?_erase_of_ne heq, Documents.get?_erase_of_ne heq]
      exact h other
  · cases hreleased

theorem updateFile {edits : List Edit} (hupdate : s.updateFile uri edits = .ok s') :
    m.Agrees s' := by
  obtain ⟨d, text, hget, -, rfl⟩ := Documents.updateFile_cases hupdate
  exact h.put hget rfl

end Agrees

section Rows

variable {m : Mirror} {t : Table String Document} (ht : t.Sorted)
include ht

theorem get?_foldl_didOpen (uri : String) :
    Table.get? uri ((t.map fun e => Frame.didOpen e.1 e.2).foldl hear m) =
      (Table.get? uri t).elim (Table.get? uri m) fun d => some (d.version, d.syncedText) := by
  rw [List.foldl_map]
  refine ht.foldl_at (fun (m : Mirror) e => m.hear (.didOpen e.1 e.2)) (fun m uri => Table.get? uri m)
    (fun _ d _ => some (d.version, d.syncedText)) ?_ ?_ m uri
  · intro m uri d
    rw [hear_opened (Frame.documentNotice?_didOpen uri d), Table.get?_put_self]
  · intro m uri d other hne
    rw [hear_opened (Frame.documentNotice?_didOpen uri d), Table.get?_put_of_ne hne]

variable {frame : String × Document → Frame}

theorem get?_foldl_changed
    (hframe : ∀ e ∈ t, (frame e).documentNotice? =
      some (.changed e.1 (e.2.version + 1) (some e.2.text))) (uri : String) :
    Table.get? uri ((t.map frame).foldl hear m) =
      (Table.get? uri t).elim (Table.get? uri m) fun d =>
        (Table.get? uri m).map fun _ => (d.version + 1, d.text) := by
  induction t generalizing m with
  | nil => rfl
  | cons e rest ih =>
    have hrest := fun e' he' => hframe e' (List.mem_cons_of_mem _ he')
    rw [List.map_cons, List.foldl_cons, ih (Table.sorted_cons.mp ht).2 hrest,
      hear_changed (hframe e List.mem_cons_self), Table.get?]
    by_cases heq : e.1 = uri
    · subst heq
      rw [Table.get?_eq_none ht.ne, Table.get?_adjust_self, if_pos rfl]
      rfl
    · rw [Table.get?_adjust_of_ne heq, if_neg heq]

theorem inTurn_changed
    (hframe : ∀ e ∈ t, (frame e).documentNotice? =
      some (.changed e.1 (e.2.version + 1) (some e.2.text)))
    (hknown : ∀ e ∈ t, ∃ known, Table.get? e.1 m = some known ∧ known.1 = e.2.version) :
    m.InTurn (t.map frame) := by
  induction t generalizing m with
  | nil => trivial
  | cons e rest ih =>
    have hrest := fun e' he' => hframe e' (List.mem_cons_of_mem _ he')
    refine ⟨?_, ih (Table.sorted_cons.mp ht).2 hrest ?_⟩
    · intro uri version text hnotice
      rw [hframe e List.mem_cons_self] at hnotice
      cases hnotice
      obtain ⟨known, hget, hversion⟩ := hknown e List.mem_cons_self
      exact ⟨known, hget, by rw [hversion]⟩
    · intro e' he'
      rw [hear_changed (hframe e List.mem_cons_self), Table.get?_adjust_of_ne (ht.ne e' he').symm]
      exact hknown e' (List.mem_cons_of_mem _ he')

end Rows

section Documents

variable {m : Mirror} {s : Documents} (hs : s.Sound)
include hs

theorem agrees_openFrames (hm : ∀ uri, s.get? uri = none → Table.get? uri m = none) :
    Agrees (s.openFrames.foldl hear m) s := by
  intro uri
  refine (get?_foldl_didOpen hs.sorted uri).trans ?_
  change (s.get? uri).elim _ _ = _
  cases hget : s.get? uri with
  | none => exact hm uri hget
  | some d => rfl

theorem Agrees.sync (h : m.Agrees s) {kind : SyncKind} {threshold : Nat}
    (hwhole : ∀ f ∈ s.sync.1.map fun b => Frame.didChange b (b.contentChanges kind threshold),
      f.IsWhole) :
    let fs := s.sync.1.map fun b => Frame.didChange b (b.contentChanges kind threshold)
    (fs.foldl hear m).Agrees s.sync.2 ∧ m.InTurn fs := by
  intro fs
  let frame : String × Document → Frame := fun e =>
    .didChange (e.2.batch e.1) ((e.2.batch e.1).contentChanges kind threshold)
  have hfs : fs = s.edited.map frame := List.map_map
  have hsorted : s.edited.Sorted := hs.sorted.filter _
  have hframe : ∀ e ∈ s.edited, (frame e).documentNotice? =
      some (.changed e.1 (e.2.version + 1) (some e.2.text)) := by
    intro e he
    have hmem : frame e ∈ fs := by
      rw [hfs]
      exact List.mem_map_of_mem he
    exact Frame.documentNotice?_of_isWhole (hwhole _ hmem)
  rw [hfs]
  constructor
  · intro uri
    rw [get?_foldl_changed hsorted hframe, Documents.get?_edited hs.sorted, Documents.get?_sync,
      h uri]
    cases s.get? uri with
    | none => rfl
    | some d =>
      cases hp : d.hasPending with
      | true => simp [Option.filter, hp, d.synced_of_hasPending hp]
      | false => simp [Option.filter, hp, d.synced_of_not_hasPending hp]
  · apply inTurn_changed hsorted hframe
    intro e he
    have hget : s.get? e.1 = some e.2 := hs.sorted.get?_of_mem (List.mem_filter.mp he).1
    exact ⟨(e.2.version, e.2.syncedText), by rw [h, hget]; rfl, rfl⟩

end Documents

end Mirror

end LanguageClient
