import LanguageClient.Proofs.Workspace.Chain
import LanguageClient.Proofs.Workspace.Sound

/-!
Following a document from a baseline.

While the scope of a mapping is live, the history and the pending edits of a document together account
for every edit since the baseline; once the document was closed, nothing opened later has its id. Each
move keeps the one or leads to the other.
-/

namespace LanguageClient.Documents

def Holds (s : Documents) (m : Mapping) : Prop :=
  Table.get? m.scope s.history.scopes = some (m.baseline.map fun e => (e.1, e.2.version))

/-- The document of a baseline is still open, and `edits` have been made since. -/
def Follows (s : Documents) (uri : String) (b : Baseline) (edits : List Edit) : Prop :=
  ∃ d synced, s.get? uri = some d ∧ d.id = b.id ∧ edits = synced ++ d.pending ∧
    Edit.applyAll synced b.text = .ok d.syncedText ∧
    History.Leads (s.history.entriesOf uri) (Text.size b.text) b.version d.version synced

def Gone (s : Documents) (uri : String) (b : Baseline) : Prop :=
  b.id < s.workspace.nextId ∧ ∀ d, s.get? uri = some d → d.id ≠ b.id

variable {s s' : Documents} {m : Mapping} {uri other : String} {b : Baseline} {edits : List Edit}

theorem Follows.exists_text (hs : s.Sound) (h : s.Follows uri b edits) :
    ∃ d, s.get? uri = some d ∧ Edit.applyAll edits b.text = .ok d.text := by
  obtain ⟨d, synced, hget, -, rfl, htext, -⟩ := h
  refine ⟨d, hget, ?_⟩
  rw [Edit.applyAll_append, htext]
  exact hs.edited hget

section Answer

variable (hb : Table.get? uri m.baseline = some b)
include hb

theorem Follows.changes (hs : s.Sound) (h : s.Follows uri b edits) :
    ∃ d, Delta.ofEdits (Text.size b.text) edits = .ok d ∧ m.changes s uri = .ok d := by
  obtain ⟨d, synced, hget, hid, rfl, htext, hleads⟩ := h
  obtain ⟨past, hpast, hchain⟩ := hleads.chain rfl
  obtain ⟨past', hpast', hlength⟩ := Delta.exists_ofEdits htext
  cases hpast.symm.trans hpast'
  obtain ⟨live, hlive, -⟩ := Delta.exists_ofEdits (hs.edited hget)
  rw [← hlength] at hlive
  obtain ⟨all, hall⟩ := Delta.exists_compose (Delta.oldLength_of_ofEdits hlive).symm
  refine ⟨all, ?_, ?_⟩
  · rw [Delta.ofEdits_append, hpast]
    change (do past.compose (← Delta.ofEdits past.newLength d.pending)) = _
    rw [hlive]
    exact hall
  · rw [hlength] at hlive
    change s.workspace.get? uri = some d at hget
    simp [Mapping.changes, Mapping.base, hb, hget, hid, hchain, hlive, hall, bind, Except.bind,
      pure, Except.pure]

theorem Gone.changes (h : s.Gone uri b) : m.changes s uri = .error (.documentClosed uri) := by
  cases hget : s.workspace.get? uri with
  | none => simp [Mapping.changes, Mapping.base, hb, hget, bind, Except.bind, throw, throwThe,
      MonadExceptOf.throw]
  | some d =>
    have hid := h.2 d hget
    simp [Mapping.changes, Mapping.base, hb, hget, hid, bind, Except.bind, throw, throwThe,
      MonadExceptOf.throw]

end Answer

theorem changes_of_unknown (hb : Table.get? uri m.baseline = none) (s : Documents) :
    m.changes s uri = .error (.unknownDocument uri) := by
  simp [Mapping.changes, Mapping.base, hb, bind, Except.bind]

section Start

theorem holds_startMapping (s : Documents) : s.startMapping.2.Holds s.startMapping.1 :=
  Table.get?_put_self _ _ _

theorem follows_startMapping (hs : s.Sound) (hb : Table.get? uri s.startMapping.1.baseline = some b) :
    ∃ d, s.get? uri = some d ∧ b = d.baseline ∧ s.startMapping.2.Follows uri b d.pending := by
  rw [get?_baseline] at hb
  obtain ⟨d, hget, rfl⟩ := Option.map_eq_some_iff.mp hb
  refine ⟨d, hget, rfl, d, [], hget, rfl, rfl, rfl, ?_⟩
  apply History.Leads.refl
  intro e he
  rw [history_startMapping, History.entriesOf_openScope _ _ hs.sorted_versions] at he
  obtain ⟨d', hget', hlt⟩ := hs.past he
  cases hget.symm.trans hget'
  exact hlt

end Start

section Step

variable {d d' : Document}

theorem Holds.step (h : s.Holds m) (hs : s.Sound) {mv : Move} (hmv : mv.released? ≠ some m.scope)
    (hstep : s.Step mv s') : s'.Holds m := by
  cases hstep with
  | refused | changed | opened | closed => exact h
  | synced =>
    obtain ⟨entries, hhistory⟩ := s.exists_history_sync
    rw [Holds, hhistory]
    exact h
  | mapped =>
    have hne : s.history.nextScope ≠ m.scope := by
      intro heq
      have := hs.history.get?_nextScope
      rw [heq, h] at this
      cases this
    exact (Table.get?_put_of_ne hne _ _).trans h
  | released m' =>
    have hne : m'.scope ≠ m.scope := fun heq => hmv (congrArg some heq)
    change Table.get? m.scope (s.history.releaseScope m'.scope).scopes = _
    cases hid : Table.get? m'.scope s.history.scopes with
    | none =>
      rw [s.history.releaseScope_of_none hid]
      exact h
    | some baseline =>
      rw [s.history.scopes_releaseScope hid, Table.get?_erase_of_ne hne]
      exact h

theorem Holds.exists_watermark_le (h : s.Holds m) (hs : s.Sound)
    (hb : Table.get? uri m.baseline = some b) :
    ∃ low, (s.history.marksOf uri).head? = some low ∧ low ≤ b.version := by
  refine hs.history.exists_watermark_le h ?_
  rw [Table.get?_map uri (fun _ (b : Baseline) => b.version), hb]
  rfl

namespace Follows

variable (h : s.Follows uri b edits)
include h

theorem put {more : List Edit} (hget : s.get? other = some d) (hbaseline : d'.baseline = d.baseline)
    (hpending : d'.pending = d.pending ++ more) :
    (s.put other d').Follows uri b (edits ++ if other = uri then more else []) := by
  obtain ⟨hid, hversion, htext⟩ := Document.baseline_eq_iff.mp hbaseline
  obtain ⟨d₀, synced, hget₀, hid₀, rfl, htext₀, hleads⟩ := h
  by_cases heq : other = uri
  · subst heq
    cases hget.symm.trans hget₀
    refine ⟨d', synced, get?_put_self, hid.trans hid₀, ?_, htext ▸ htext₀, hversion ▸ hleads⟩
    simp [hpending]
  · refine ⟨d₀, synced, (get?_put_of_ne heq).trans hget₀, hid₀, ?_, htext₀, hleads⟩
    simp [heq]

theorem add {languageId text : String} (hnone : s.get? other = none) :
    (s.add other languageId text).Follows uri b edits := by
  obtain ⟨d, synced, hget, hrest⟩ := h
  have hne : other ≠ uri := by
    rintro rfl
    rw [hget] at hnone
    cases hnone
  exact ⟨d, synced, (get?_add_of_ne hne).trans hget, hrest⟩

theorem erase (hne : other ≠ uri) : (s.erase other).Follows uri b edits := by
  obtain ⟨d, synced, hget, hid, hedits, htext, hleads⟩ := h
  refine ⟨d, synced, (get?_erase_of_ne hne).trans hget, hid, hedits, htext, ?_⟩
  change History.Leads ((s.history.forget other).row uri).entries _ _ _ _
  rw [s.history.row_forget_of_ne _ _ hne]
  exact hleads

theorem sync (hs : s.Sound) (hm : s.Holds m) (hb : Table.get? uri m.baseline = some b) :
    s.sync.2.Follows uri b edits := by
  obtain ⟨d, synced, hget, hid, rfl, htext, hleads⟩ := h
  refine ⟨d.synced, synced ++ d.pending, ?_, ?_, ?_, ?_, ?_⟩
  · rw [get?_sync, hget]
    rfl
  · rw [d.id_synced, hid]
  · rw [d.pending_synced, List.append_nil]
  · rw [Edit.applyAll_append, htext]
    change Edit.applyAll d.pending d.syncedText = _
    rw [hs.edited hget]
    cases hp : d.hasPending with
    | true => rw [d.synced_of_hasPending hp]
    | false =>
      have := hs.edited hget
      rw [d.pending_of_not_hasPending hp] at this
      rw [d.synced_of_not_hasPending hp, ← this]
      rfl
  · rw [← History.entries_row, row_sync hs.sorted, hget]
    cases hp : d.hasPending with
    | false =>
      rw [d.pending_of_not_hasPending hp, d.synced_of_not_hasPending hp, List.append_nil]
      simpa [Option.filter, hp] using hleads
    | true =>
      -- the scope of `m` is live, so the watermark is not above the baseline and the batch is kept
      obtain ⟨low, hlow, hle⟩ := hm.exists_watermark_le hs hb
      obtain ⟨past, hpast, hlength⟩ := Delta.exists_ofEdits htext
      obtain ⟨step, hstep, -⟩ := Delta.exists_ofEdits (hs.edited hget)
      have hkept : (History.Row.keep (d.batch uri) (s.history.row uri)).entries =
          s.history.entriesOf uri ++ [⟨d.version, step⟩] := by
        have hle' := Nat.le_trans hle hleads.le
        simp [History.Row.keep, hlow, Document.batch, hstep, hle']
      rw [d.synced_of_hasPending hp]
      simp only [Option.filter, hp, if_true, Option.elim]
      rw [hkept]
      exact hleads.snoc hpast (hlength ▸ hstep)

theorem startMapping (hs : s.Sound) : s.startMapping.2.Follows uri b edits := by
  obtain ⟨d, synced, hget, hid, hedits, htext, hleads⟩ := h
  refine ⟨d, synced, hget, hid, hedits, htext, ?_⟩
  rw [history_startMapping, History.entriesOf_openScope _ _ hs.sorted_versions]
  exact hleads

/-- Another scope is released: its marks go, and the batches from the live one's mark on stay. -/
theorem release {m' : Mapping} (hs : s.Sound) (hm : (s.release m').Holds m)
    (hb : Table.get? uri m.baseline = some b) : (s.release m').Follows uri b edits := by
  -- the watermark after the release, as that is what the batches are trimmed to
  obtain ⟨low, hlow, hle⟩ := hm.exists_watermark_le (hs.release m') hb
  obtain ⟨d, synced, hget, hid, hedits, htext, hleads⟩ := h
  refine ⟨d, synced, hget, hid, hedits, htext, ?_⟩
  change History.Leads ((s.history.releaseScope m'.scope).entriesOf uri) _ _ _ _
  change ((s.history.releaseScope m'.scope).row uri).marks.head? = some low at hlow
  rw [← History.entries_row]
  cases hscope : Table.get? m'.scope s.history.scopes with
  | none =>
    rw [s.history.releaseScope_of_none hscope]
    exact hleads
  | some baseline =>
    have hb' := hs.history.baselines _ (Table.mem_of_get? hscope)
    rw [s.history.row_releaseScope uri hscope hb'] at hlow ⊢
    cases hmark : Table.get? uri baseline with
    | none => exact hleads
    | some version =>
      rw [hmark] at hlow
      simp only [Option.elim, History.Row.marks_unmark] at hlow
      simp only [Option.elim, History.Row.unmark, History.Row.trim, hlow]
      exact hleads.dropWhile hle

theorem step {mv : Move} (hs : s.Sound) (hm : s.Holds m) (hmv : mv.released? ≠ some m.scope)
    (hb : Table.get? uri m.baseline = some b) (hopen : mv.closes s uri = false)
    (hstep : s.Step mv s') : s'.Follows uri b (edits ++ mv.edits s uri) := by
  have hm' := hm.step hs hmv hstep
  have hnothing : mv.edits s uri = [] → s'.Follows uri b edits →
      s'.Follows uri b (edits ++ mv.edits s uri) := by
    intro hedits h'
    rw [hedits, List.append_nil]
    exact h'
  cases hstep with
  | refused _ hedits => exact hnothing (hedits uri) h
  | changed _ hedits hget hbaseline hpending _ =>
    rw [hedits]
    exact h.put hget hbaseline hpending
  | opened hnone => exact hnothing rfl (h.add hnone)
  | closed hcloses =>
    rw [hcloses] at hopen
    exact hnothing rfl (h.erase (of_decide_eq_false hopen))
  | synced => exact hnothing rfl (h.sync hs hm hb)
  | mapped => exact hnothing rfl (h.startMapping hs)
  | released m' => exact hnothing rfl (h.release hs hm' hb)

theorem gone {mv : Move} (hs : s.Sound) (hclose : mv.closes s uri = true) (hstep : s.Step mv s') :
    s'.Gone uri b := by
  cases hstep with
  | refused hcloses | changed hcloses =>
    rw [hcloses] at hclose
    cases hclose
  | closed hcloses =>
    rw [hcloses] at hclose
    cases of_decide_eq_true hclose
    obtain ⟨d, synced, hget, hid, -⟩ := h
    refine ⟨hid ▸ hs.fresh hget, ?_⟩
    intro d' hd'
    rw [get?_erase_self] at hd'
    cases hd'
  | _ => cases hclose

end Follows

namespace Gone

variable (h : s.Gone uri b)
include h

theorem step {mv : Move} (hstep : s.Step mv s') : s'.Gone uri b := by
  cases hstep with
  | refused => exact h
  | changed _ _ hget hbaseline =>
    refine ⟨h.1, ?_⟩
    intro d₀ hd₀
    cases get?_put_cases hd₀ with
    | inl heq =>
      obtain ⟨rfl, rfl⟩ := heq
      rw [(Document.baseline_eq_iff.mp hbaseline).1]
      exact h.2 _ hget
    | inr hne => exact h.2 d₀ hne.2
  | opened =>
    refine ⟨Nat.lt_succ_of_lt h.1, ?_⟩
    intro d hd
    cases get?_add_cases hd with
    | inl heq =>
      rw [heq.2]
      exact Nat.ne_of_gt h.1
    | inr hne => exact h.2 d hne.2
  | closed => exact ⟨h.1, fun d hd => h.2 d (get?_of_erase hd).2⟩
  | synced =>
    refine ⟨h.1, ?_⟩
    intro d hd
    rw [get?_sync] at hd
    obtain ⟨d', hget, rfl⟩ := Option.map_eq_some_iff.mp hd
    rw [Document.id_synced]
    exact h.2 d' hget
  | mapped => exact h
  | released => exact h

end Gone

end Step

section Pending

theorem pending_of_step {mv : Move} {d' : Document} (hstep : s.Step mv s')
    (h : s'.get? uri = some d') :
    d'.pending = [] ∨ ∃ d, s.get? uri = some d ∧ d'.baseline = d.baseline ∧
      d'.pending = d.pending ++ mv.edits s uri := by
  have hsame : ∀ {d}, s.get? uri = some d → mv.edits s uri = [] → d.pending = [] ∨
      ∃ d₀, s.get? uri = some d₀ ∧ d.baseline = d₀.baseline ∧
        d.pending = d₀.pending ++ mv.edits s uri := by
    intro d hd hedits
    exact .inr ⟨d, hd, rfl, by simp [hedits]⟩
  cases hstep with
  | refused _ hedits => exact hsame h (hedits uri)
  | changed _ hedits hget hbaseline hpending =>
    cases get?_put_cases h with
    | inl heq =>
      obtain ⟨rfl, rfl⟩ := heq
      exact .inr ⟨_, hget, hbaseline, by rw [hedits, if_pos rfl, hpending]⟩
    | inr hne => exact hsame hne.2 (by rw [hedits, if_neg hne.1])
  | opened =>
    cases get?_add_cases h with
    | inl heq =>
      rw [heq.2]
      exact .inl rfl
    | inr hne => exact hsame hne.2 rfl
  | closed => exact hsame (get?_of_erase h).2 rfl
  | synced =>
    rw [get?_sync] at h
    obtain ⟨d, -, rfl⟩ := Option.map_eq_some_iff.mp h
    exact .inl d.pending_synced
  | mapped => exact hsame h rfl
  | released => exact hsame h rfl

end Pending

section Run

def run (s : Documents) (moves : List Move) : Documents :=
  moves.foldl move s

def closesIn (uri : String) : List Move → Documents → Bool
  | [], _ => false
  | mv :: rest, s => mv.closes s uri || closesIn uri rest (s.move mv)

def editsIn (uri : String) : List Move → Documents → List Edit
  | [], _ => []
  | mv :: rest, s => mv.edits s uri ++ editsIn uri rest (s.move mv)

theorem closesIn_of_isQuiet {moves : List Move} (h : ∀ mv ∈ moves, mv.isQuiet = true) :
    closesIn uri moves s = false := by
  induction moves generalizing s with
  | nil => rfl
  | cons mv rest ih =>
    have hmv := h mv List.mem_cons_self
    rw [closesIn, ih fun mv' h' => h mv' (List.mem_cons_of_mem _ h')]
    cases mv <;> first | rfl | cases hmv

theorem editsIn_of_isQuiet {moves : List Move} (h : ∀ mv ∈ moves, mv.isQuiet = true) :
    editsIn uri moves s = [] := by
  induction moves generalizing s with
  | nil => rfl
  | cons mv rest ih =>
    have hmv := h mv List.mem_cons_self
    rw [editsIn, ih fun mv' h' => h mv' (List.mem_cons_of_mem _ h')]
    cases mv <;> first | rfl | cases hmv

theorem pending_of_run {moves : List Move} (hquiet : ∀ mv ∈ moves, mv.isQuiet = true)
    {d' : Document} (h : (s.run moves).get? uri = some d') :
    d'.pending = [] ∨ ∃ d, s.get? uri = some d ∧ d'.baseline = d.baseline ∧
      d'.pending = d.pending := by
  induction moves generalizing s with
  | nil => exact .inr ⟨d', h, rfl, rfl⟩
  | cons mv rest ih =>
    cases ih (fun mv' h' => hquiet mv' (List.mem_cons_of_mem _ h')) h with
    | inl hnil => exact .inl hnil
    | inr hsome =>
      obtain ⟨d₁, hget, hbaseline, hpending⟩ := hsome
      have hedits : mv.edits s uri = [] := by
        have hmv := hquiet mv List.mem_cons_self
        cases mv <;> first | rfl | cases hmv
      rw [hbaseline, hpending]
      cases pending_of_step (s.step_move mv) hget with
      | inl hnil => exact .inl hnil
      | inr hsome =>
        rw [hedits] at hsome
        simpa using Or.inr hsome

variable (moves more : List Move)

theorem run_append : s.run (moves ++ more) = (s.run moves).run more :=
  List.foldl_append

theorem closesIn_append :
    closesIn uri (moves ++ more) s = (closesIn uri moves s || closesIn uri more (s.run moves)) := by
  induction moves generalizing s with
  | nil => rfl
  | cons mv rest ih =>
    rw [List.cons_append, closesIn, ih, closesIn, Bool.or_assoc]
    rfl

theorem editsIn_append :
    editsIn uri (moves ++ more) s = editsIn uri moves s ++ editsIn uri more (s.run moves) := by
  induction moves generalizing s with
  | nil => rfl
  | cons mv rest ih =>
    rw [List.cons_append, editsIn, ih, editsIn, List.append_assoc]
    rfl

variable {moves}

theorem Sound.run (hs : s.Sound) : (s.run moves).Sound := by
  induction moves generalizing s with
  | nil => exact hs
  | cons mv rest ih => exact ih (hs.step (s.step_move mv))

theorem Gone.run (h : s.Gone uri b) : (s.run moves).Gone uri b := by
  induction moves generalizing s with
  | nil => exact h
  | cons mv rest ih => exact ih (h.step (s.step_move mv))

theorem Holds.run (hs : s.Sound) (hm : s.Holds m)
    (hfree : ∀ mv ∈ moves, mv.released? ≠ some m.scope) : (s.run moves).Holds m := by
  induction moves generalizing s with
  | nil => exact hm
  | cons mv rest ih =>
    exact ih (hs.step (s.step_move mv)) (hm.step hs (hfree mv List.mem_cons_self) (s.step_move mv))
      fun mv' h' => hfree mv' (List.mem_cons_of_mem _ h')

variable (hs : s.Sound) (hm : s.Holds m) (hfree : ∀ mv ∈ moves, mv.released? ≠ some m.scope)
  (hb : Table.get? uri m.baseline = some b)
include hs hm hfree hb

theorem Follows.run (h : s.Follows uri b edits) (hopen : closesIn uri moves s = false) :
    (s.run moves).Follows uri b (edits ++ editsIn uri moves s) := by
  induction moves generalizing s edits with
  | nil =>
    rw [editsIn, List.append_nil]
    exact h
  | cons mv rest ih =>
    rw [closesIn, Bool.or_eq_false_iff] at hopen
    have hmv := hfree mv List.mem_cons_self
    have hstep := s.step_move mv
    rw [editsIn, ← List.append_assoc]
    exact ih (hs.step hstep) (hm.step hs hmv hstep)
      (fun mv' h' => hfree mv' (List.mem_cons_of_mem _ h')) (h.step hs hm hmv hb hopen.1 hstep) hopen.2

theorem Follows.gone_run (h : s.Follows uri b edits) (hclosed : closesIn uri moves s = true) :
    (s.run moves).Gone uri b := by
  induction moves generalizing s edits with
  | nil => cases hclosed
  | cons mv rest ih =>
    have hmv := hfree mv List.mem_cons_self
    have hstep := s.step_move mv
    cases hclose : mv.closes s uri with
    | true => exact (h.gone hs hclose hstep).run
    | false =>
      rw [closesIn, hclose, Bool.false_or] at hclosed
      exact ih (hs.step hstep) (hm.step hs hmv hstep)
        (fun mv' h' => hfree mv' (List.mem_cons_of_mem _ h')) (h.step hs hm hmv hb hclose hstep) hclosed

end Run

end LanguageClient.Documents
