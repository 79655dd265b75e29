import LanguageClient.Proofs.Workspace.Documents

namespace LanguageClient

theorem Edit.applyAll_eq_error_iff {edits : List Edit} {text : String} {refusal : Refusal} :
    applyAll edits text = .error refusal ↔
      ∃ before e after middle, edits = before ++ e :: after ∧
        applyAll before text = .ok middle ∧ e.apply middle = .error refusal := by
  constructor
  · intro h
    induction edits generalizing text with
    | nil => cases h
    | cons e rest ih =>
      rw [applyAll, List.foldlM_cons] at h
      cases hnext : e.apply text with
      | error refusal' =>
        rw [hnext] at h
        cases h
        exact ⟨[], e, rest, text, rfl, rfl, hnext⟩
      | ok next =>
        rw [hnext] at h
        obtain ⟨before, e', after, middle, rfl, hbefore, hrefused⟩ := ih h
        refine ⟨e :: before, e', after, middle, rfl, ?_, hrefused⟩
        rw [applyAll, List.foldlM_cons, hnext]
        exact hbefore
  · rintro ⟨before, e, after, middle, rfl, hbefore, hrefused⟩
    rw [applyAll_append, hbefore]
    change applyAll (e :: after) middle = _
    rw [applyAll, List.foldlM_cons, hrefused]
    rfl

namespace Document

structure Sound (d : Document) : Prop where
  edited : Edit.applyAll d.pending d.syncedText = .ok d.text
  real : ∀ e ∈ d.pending, e.isEmpty = false
  held : 1 ≤ d.holders

variable {d d' : Document}

theorem sound_fresh (id : Nat) (languageId text : String) : (fresh id languageId text).Sound where
  edited := rfl
  real _ he := by cases he
  held := Nat.le_refl 1

theorem Sound.edit (hd : d.Sound) {more : List Edit} (hsynced : d'.syncedText = d.syncedText)
    (hpending : d'.pending = d.pending ++ more) (hreal : ∀ e ∈ more, e.isEmpty = false)
    (htext : Edit.applyAll more d.text = .ok d'.text) (hheld : 1 ≤ d.holders → 1 ≤ d'.holders) :
    d'.Sound where
  edited := by
    rw [hpending, hsynced, Edit.applyAll_append, hd.edited]
    exact htext
  real e he := by
    rw [hpending] at he
    exact (List.mem_append.mp he).elim (hd.real e) (hreal e)
  held := hheld hd.held

theorem Sound.synced (hd : d.Sound) : d.synced.Sound := by
  cases hp : d.hasPending with
  | false => rwa [d.synced_of_not_hasPending hp]
  | true =>
    rw [d.synced_of_hasPending hp]
    constructor
    case edited => rfl
    case real => exact fun _ he => absurd he List.not_mem_nil
    case held => exact hd.held

end Document

namespace Workspace

inductive Move
  | openFile (uri languageId text : String)
  | closeFile (uri : String)
  | updateFile (uri : String) (edits : List Edit)
  | replaceText (uri text : String)
  | sync

def move (w : Workspace) : Move → Workspace
  | .openFile uri languageId text => (w.openFile uri languageId text).toOption.elim w Prod.snd
  | .closeFile uri => (w.closeFile uri).toOption.elim w Prod.snd
  | .updateFile uri edits => (w.updateFile uri edits).toOption.getD w
  | .replaceText uri text => (w.replaceText uri text).toOption.getD w
  | .sync => w.sync.2

def run (w : Workspace) (moves : List Move) : Workspace :=
  moves.foldl move w

namespace Move

def asks? (w : Workspace) : Move → Option (String × List Edit)
  | .updateFile uri edits => some (uri, edits)
  | .replaceText uri text => (w.get? uri).map fun d => (uri, [⟨0, Text.size d.text, text⟩])
  | _ => none

def accepted (id : Nat) (w : Workspace) (mv : Move) : List Edit :=
  match mv.asks? w with
  | none => []
  | some (uri, edits) =>
    if (w.get? uri).any (·.id = id) ∧ (w.updateFile uri edits).toBool then
      edits.filter (!·.isEmpty)
    else []

def batches (id : Nat) (w : Workspace) : Move → List Batch
  | .sync => w.sync.1.filter (·.id = id)
  | _ => []

def openings (w : Workspace) : Move → List Nat
  | .openFile uri languageId text =>
    match w.openFile uri languageId text with
    | .ok (.opened d, _) => [d.id]
    | _ => []
  | _ => []

end Move

variable {w w' : Workspace} {uri : String} {d : Document} {mv : Move} {id : Nat}

/-- A batch of edits is refused for the first of them that the text before it does not take. -/
theorem updateFile_eq_error_iff {edits : List Edit} {error : WorkspaceError} :
    w.updateFile uri edits = .error error ↔
      (w.get? uri = none ∧ error = .notOpen uri) ∨
        ∃ d before e after middle refusal, w.get? uri = some d ∧
          edits.filter (!·.isEmpty) = before ++ e :: after ∧
          Edit.applyAll before d.text = .ok middle ∧ e.apply middle = .error refusal ∧
          error = .invalidEdit uri refusal.message := by
  constructor
  · intro h
    unfold updateFile Document.edit at h
    cases hget : w.get? uri with
    | none =>
      rw [hget] at h
      cases h
      exact .inl ⟨rfl, rfl⟩
    | some d =>
      rw [hget] at h
      dsimp only at h
      cases happly : Edit.applyAll (edits.filter (!·.isEmpty)) d.text with
      | ok text =>
        rw [happly] at h
        cases h
      | error refusal =>
        rw [happly] at h
        cases h
        obtain ⟨before, e, after, middle, hedits, hbefore, hrefused⟩ :=
          Edit.applyAll_eq_error_iff.mp happly
        exact .inr ⟨d, before, e, after, middle, refusal, rfl, hedits, hbefore, hrefused, rfl⟩
  · rintro (⟨hget, rfl⟩ | ⟨d, before, e, after, middle, refusal, hget, hedits, hbefore, hrefused, rfl⟩)
    · rw [updateFile, hget]
    · have happly : Edit.applyAll (edits.filter (!·.isEmpty)) d.text = .error refusal :=
        Edit.applyAll_eq_error_iff.mpr ⟨before, e, after, middle, hedits, hbefore, hrefused⟩
      unfold updateFile Document.edit
      rw [hget]
      dsimp only
      rw [happly]
      rfl

section Step

inductive Step (w : Workspace) : Move → Workspace → Prop
  | refused {mv : Move} (haccepted : ∀ id, mv.accepted id w = [])
      (hbatches : ∀ id, mv.batches id w = []) (hopenings : mv.openings w = []) : Step w mv w
  | changed {mv : Move} {uri : String} {d d' : Document} {more : List Edit}
      (haccepted : ∀ id, mv.accepted id w = if d.id = id then more else [])
      (hbatches : ∀ id, mv.batches id w = []) (hopenings : mv.openings w = [])
      (hget : w.get? uri = some d) (hbaseline : d'.baseline = d.baseline)
      (hpending : d'.pending = d.pending ++ more) (hreal : ∀ e ∈ more, e.isEmpty = false)
      (htext : Edit.applyAll more d.text = .ok d'.text) (hheld : 1 ≤ d.holders → 1 ≤ d'.holders) :
      Step w mv (w.put uri d')
  | opened {uri languageId text : String} (hnone : w.get? uri = none)
      (hopenings : (Move.openFile uri languageId text).openings w = [w.nextId]) :
      Step w (.openFile uri languageId text) (w.add uri languageId text)
  | closed {uri : String} : Step w (.closeFile uri) (w.erase uri)
  | synced : Step w .sync w.sync.2

theorem step_openFile (w : Workspace) (uri languageId text : String) :
    w.Step (.openFile uri languageId text) (w.move (.openFile uri languageId text)) := by
  rw [move]
  cases h : w.openFile uri languageId text with
  | error e => exact .refused (fun _ => rfl) (fun _ => rfl) (by rw [Move.openings, h])
  | ok res =>
    obtain ⟨outcome, w'⟩ := res
    obtain ⟨d, hget, rfl, rfl⟩ | ⟨hnone, rfl, rfl⟩ := openFile_cases h
    · exact .changed (fun _ => (ite_self []).symm) (fun _ => rfl) (by rw [Move.openings, h]) hget rfl
        (List.append_nil _).symm (fun _ he => by cases he) rfl fun _ => Nat.le_add_left 1 _
    · exact .opened hnone (by rw [Move.openings, h]; rfl)

theorem step_closeFile (w : Workspace) (uri : String) :
    w.Step (.closeFile uri) (w.move (.closeFile uri)) := by
  rw [move]
  cases h : w.closeFile uri with
  | error e => exact .refused (fun _ => rfl) (fun _ => rfl) rfl
  | ok res =>
    obtain ⟨outcome, w'⟩ := res
    obtain ⟨d, hget, ⟨-, rfl, rfl⟩ | ⟨hlt, rfl, rfl⟩⟩ := closeFile_cases h
    · exact .closed
    · exact .changed (fun _ => (ite_self []).symm) (fun _ => rfl) rfl hget rfl
        (List.append_nil _).symm (fun _ he => by cases he) rfl fun _ => Nat.le_sub_one_of_lt hlt

theorem step_edits {edits : List Edit} (hasks : mv.asks? w = some (uri, edits))
    (hbatches : ∀ id, mv.batches id w = []) (hopenings : mv.openings w = []) :
    w.Step mv ((w.updateFile uri edits).toOption.getD w) := by
  cases h : w.updateFile uri edits with
  | error e =>
    exact .refused (by simp [Move.accepted, hasks, h, Except.toBool]) hbatches hopenings
  | ok w' =>
    obtain ⟨d, text, hget, htext, rfl⟩ := updateFile_cases h
    refine .changed (fun id => ?_) hbatches hopenings hget rfl rfl (fun e he => ?_) htext fun h => h
    · simp [Move.accepted, hasks, h, hget, Except.toBool]
    · simpa using (List.mem_filter.mp he).2

theorem step_move (w : Workspace) (mv : Move) : w.Step mv (w.move mv) := by
  cases mv with
  | openFile uri languageId text => exact w.step_openFile uri languageId text
  | closeFile uri => exact w.step_closeFile uri
  | updateFile uri edits => exact step_edits rfl (fun _ => rfl) rfl
  | replaceText uri text =>
    rw [move, replaceText]
    cases hget : w.get? uri with
    | none =>
      exact .refused (fun _ => by simp [Move.accepted, Move.asks?, hget]) (fun _ => rfl) rfl
    | some d => exact step_edits (by simp [Move.asks?, hget]) (fun _ => rfl) rfl
  | sync => exact .synced

end Step

theorem get?_sync_cases (h : w.sync.2.get? uri = some d) :
    ∃ d₀, w.get? uri = some d₀ ∧ d₀.synced = d := by
  rw [get?_sync] at h
  exact Option.map_eq_some_iff.mp h

structure Sound (w : Workspace) : Prop where
  sorted : w.documents.Sorted
  each : ∀ {uri d}, w.get? uri = some d → d.Sound
  fresh : ∀ {uri d}, w.get? uri = some d → d.id < w.nextId
  apart : ∀ {uri uri' d d'}, w.get? uri = some d → w.get? uri' = some d' → d.id = d'.id → uri = uri'

theorem sound_new (policy : HolderPolicy) : (new policy).Sound where
  sorted := Table.sorted_nil
  each h := by cases h
  fresh h := by cases h
  apart h := by cases h

namespace Sound

variable (hs : w.Sound)
include hs

theorem put {d' : Document} (hget : w.get? uri = some d) (hid : d'.id = d.id) (hd' : d'.Sound) :
    (w.put uri d').Sound := by
  have hold : ∀ {uri' d''}, (w.put uri d').get? uri' = some d'' →
      ∃ d₀, w.get? uri' = some d₀ ∧ d₀.id = d''.id := by
    intro uri' d'' h
    obtain ⟨rfl, rfl⟩ | ⟨-, h⟩ := get?_put_cases h
    · exact ⟨d, hget, hid.symm⟩
    · exact ⟨d'', h, rfl⟩
  constructor
  case sorted => exact hs.sorted.put uri d'
  case each =>
    intro uri' d'' h
    obtain ⟨rfl, rfl⟩ | ⟨-, h⟩ := get?_put_cases h
    · exact hd'
    · exact hs.each h
  case fresh =>
    intro uri' d'' h
    obtain ⟨d₀, h₀, heq⟩ := hold h
    exact heq ▸ hs.fresh h₀
  case apart =>
    intro uri₁ uri₂ d₁ d₂ h₁ h₂ heq
    obtain ⟨d₁', h₁', heq₁⟩ := hold h₁
    obtain ⟨d₂', h₂', heq₂⟩ := hold h₂
    exact hs.apart h₁' h₂' (heq₁.trans (heq.trans heq₂.symm))

theorem add (languageId text : String) : (w.add uri languageId text).Sound := by
  constructor
  case sorted => exact hs.sorted.put uri _
  case each =>
    intro uri' d' h
    obtain ⟨rfl, rfl⟩ | ⟨-, h⟩ := get?_add_cases h
    · exact Document.sound_fresh _ _ _
    · exact hs.each h
  case fresh =>
    intro uri' d' h
    obtain ⟨rfl, rfl⟩ | ⟨-, h⟩ := get?_add_cases h
    · exact Nat.lt_succ_self _
    · exact Nat.lt_succ_of_lt (hs.fresh h)
  case apart =>
    intro uri₁ uri₂ d₁ d₂ h₁ h₂ heq
    obtain ⟨rfl, rfl⟩ | ⟨-, h₁⟩ := get?_add_cases h₁ <;>
      obtain ⟨rfl, rfl⟩ | ⟨-, h₂⟩ := get?_add_cases h₂
    · rfl
    · exact absurd heq (Nat.ne_of_gt (hs.fresh h₂))
    · exact absurd heq (Nat.ne_of_lt (hs.fresh h₁))
    · exact hs.apart h₁ h₂ heq

theorem erase : (w.erase uri).Sound where
  sorted := hs.sorted.erase uri
  each h := hs.each (get?_of_erase h).2
  fresh h := hs.fresh (get?_of_erase h).2
  apart h h' := hs.apart (get?_of_erase h).2 (get?_of_erase h').2

theorem sync : w.sync.2.Sound := by
  constructor
  case sorted => exact hs.sorted.map fun e => e.2.synced
  case each =>
    intro uri d h
    obtain ⟨d₀, h₀, rfl⟩ := get?_sync_cases h
    exact (hs.each h₀).synced
  case fresh =>
    intro uri d h
    obtain ⟨d₀, h₀, rfl⟩ := get?_sync_cases h
    exact d₀.id_synced ▸ hs.fresh h₀
  case apart =>
    intro uri₁ uri₂ d₁ d₂ h₁ h₂ heq
    obtain ⟨d₁', h₁', rfl⟩ := get?_sync_cases h₁
    obtain ⟨d₂', h₂', rfl⟩ := get?_sync_cases h₂
    rw [d₁'.id_synced, d₂'.id_synced] at heq
    exact hs.apart h₁' h₂' heq

theorem step (h : w.Step mv w') : w'.Sound := by
  cases h with
  | refused => exact hs
  | changed _ _ _ hget hbaseline hpending hreal htext hheld =>
    obtain ⟨hid, -, hsynced⟩ := Document.baseline_eq_iff.mp hbaseline
    exact hs.put hget hid ((hs.each hget).edit hsynced hpending hreal htext hheld)
  | opened => exact hs.add _ _
  | closed => exact hs.erase
  | synced => exact hs.sync

theorem run (moves : List Move) : (w.run moves).Sound := by
  induction moves generalizing w with
  | nil => exact hs
  | cons mv rest ih => exact ih (hs.step (w.step_move mv))

theorem batches_sync_of_forall (hgone : ∀ uri d, w.get? uri = some d → d.id ≠ id) :
    Move.sync.batches id w = [] := by
  rw [Move.batches, List.filter_eq_nil_iff]
  intro b hb
  obtain ⟨⟨uri, d⟩, he, rfl⟩ := List.mem_map.mp hb
  have hget : w.get? uri = some d := hs.sorted.get?_of_mem (List.mem_filter.mp he).1
  exact fun heq => hgone uri d hget (of_decide_eq_true heq)

theorem batches_sync (hget : w.get? uri = some d) :
    Move.sync.batches d.id w = if d.hasPending then [d.batch uri] else [] := by
  have hrest : Move.sync.batches d.id (w.erase uri) = [] := by
    apply hs.erase.batches_sync_of_forall
    intro uri' d' hget' heq
    obtain ⟨hne, hget'⟩ := get?_of_erase hget'
    exact hne (hs.apart hget hget' heq.symm)
  have hperm : (Move.sync.batches d.id w).Perm
      ((if d.hasPending then [d.batch uri] else []) ++ Move.sync.batches d.id (w.erase uri)) := by
    refine (((((hs.sorted.perm_erase hget).filter _).map _).filter _).trans (.of_eq ?_))
    cases hp : d.hasPending <;> simp [hp, Move.batches, Workspace.sync, Workspace.erase, Document.batch]
  rw [hrest, List.append_nil] at hperm
  split
  next hp =>
    rw [if_pos hp] at hperm
    exact hperm.eq_singleton
  next hp =>
    rw [if_neg hp] at hperm
    exact hperm.eq_nil

end Sound

end Workspace

end LanguageClient
