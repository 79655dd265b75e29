import LanguageClient.Proofs.Workspace.Chain
import LanguageClient.Proofs.Workspace.Scopes
import Mathlib.Data.List.Induction

/-!
What a history keeps.

A document's batches are numbered by the versions that they apply to, and the history keeps those from
the document's watermark on, whatever scopes were opened and released, stale ones included. So each
scope that was opened since the document was last forgotten finds all the batches after its baseline.
-/

namespace LanguageClient.History

inductive Move
  | openScope (baselines : List (String × Nat))
  | releaseScope (id : Nat)
  | record (uri : String) (version : Nat) (delta : Delta)
  | forget (uri : String)
  deriving DecidableEq

def move (h : History) : Move → History
  | .openScope baselines => (h.openScope (Table.ofEntries baselines)).2
  | .releaseScope id => h.releaseScope id
  | .record uri version delta => h.record uri version delta
  | .forget uri => h.forget uri

def run (h : History) (moves : List Move) : History :=
  moves.foldl move h

def Move.extend (uri : String) (batches : List Delta) : Move → List Delta
  | .record uri' _ delta => if uri' = uri then batches ++ [delta] else batches
  | .forget uri' => if uri' = uri then [] else batches
  | _ => batches

def batches (uri : String) (moves : List Move) : List Delta :=
  moves.foldl (Move.extend uri) []

def version (uri : String) (moves : List Move) : Nat :=
  (batches uri moves).length

def Move.Counts (past : List Move) : Move → Prop
  | .openScope baselines => ∀ e ∈ baselines, e.2 = version e.1 past
  | .record uri v _ => v = version uri past
  | _ => True

/-- Batches and baselines come with the version that their document has by then. -/
def Counted (moves : List Move) : Prop :=
  ∀ past mv rest, moves = past ++ mv :: rest → mv.Counts past

instance (past : List Move) : (mv : Move) → Decidable (mv.Counts past)
  | .openScope _ => inferInstanceAs (Decidable (∀ e ∈ _, _))
  | .record _ _ _ => inferInstanceAs (Decidable (_ = _))
  | .releaseScope _ | .forget _ => inferInstanceAs (Decidable True)

theorem counted_iff {moves : List Move} :
    Counted moves ↔ ∀ i : Fin moves.length, (moves.get i).Counts (moves.take i) := by
  constructor
  · intro h i
    exact h _ _ (moves.drop (i + 1)) (by simp)
  · rintro h past mv rest rfl
    simpa using h ⟨past.length, by simp⟩

instance (moves : List Move) : Decidable (Counted moves) :=
  decidable_of_iff' _ counted_iff

/-- The scope `id` was opened with these baselines and not released since. -/
def IsOpen (moves : List Move) (id : Nat) (baseline : Table String Nat) : Prop :=
  ∃ past baselines rest, moves = past ++ .openScope baselines :: rest ∧
    .releaseScope id ∉ rest ∧ baseline = Table.ofEntries baselines ∧
    id = ((empty.run past).openScope baseline).1

def Fits : Nat → List Delta → Prop
  | _, [] => True
  | length, d :: rest => d.oldLength = length ∧ Fits d.newLength rest

def numbered (batches : List Delta) : List HistoryEntry :=
  batches.mapIdx HistoryEntry.mk

section Numbered

variable {bs : List Delta}

theorem numbered_concat (bs : List Delta) (d : Delta) :
    numbered (bs ++ [d]) = numbered bs ++ [⟨bs.length, d⟩] :=
  List.mapIdx_concat

@[simp] theorem length_numbered (bs : List Delta) : (numbered bs).length = bs.length :=
  List.length_mapIdx

theorem deltas_numbered (bs : List Delta) : (numbered bs).map (·.delta) = bs := by
  induction bs using List.reverseRecOn with
  | nil => rfl
  | append_singleton bs d ih => rw [numbered_concat, List.map_append, ih]; rfl

theorem versions_numbered (bs : List Delta) :
    (numbered bs).map (·.version) = List.range bs.length := by
  induction bs using List.reverseRecOn with
  | nil => rfl
  | append_singleton bs d ih =>
    rw [numbered_concat, List.map_append, ih, List.length_append, List.length_singleton,
      List.range_succ]
    rfl

theorem versions_drop (bs : List Delta) (n : Nat) :
    ((numbered bs).drop n).map (·.version) = List.range' n (bs.length - n) := by
  rw [List.map_drop, versions_numbered, List.range_eq_range', List.drop_range']
  simp

theorem dropWhile_of_versions {entries : List HistoryEntry} {start : Nat} (n : Nat)
    (h : entries.map (·.version) = List.range' start entries.length) :
    entries.dropWhile (·.version < n) = entries.drop (n - start) := by
  induction entries generalizing start with
  | nil => rw [List.drop_nil]; rfl
  | cons e rest ih =>
    obtain ⟨hversion, hrest⟩ := List.cons.inj h
    by_cases hlt : start < n
    · rw [List.dropWhile_cons_of_pos (by simpa [hversion] using hlt), ih hrest,
        ← Nat.sub_sub, ← Nat.sub_add_cancel (Nat.sub_pos_of_lt hlt)]
      rfl
    · rw [List.dropWhile_cons_of_neg (by simpa [hversion] using hlt),
        Nat.sub_eq_zero_of_le (Nat.le_of_not_lt hlt), List.drop_zero]

theorem dropWhile_numbered {low n : Nat} (h : low ≤ n) :
    ((numbered bs).drop low).dropWhile (·.version < n) = (numbered bs).drop n := by
  have hversions : ((numbered bs).drop low).map (·.version) =
      List.range' low ((numbered bs).drop low).length := by
    rw [versions_drop, List.length_drop, length_numbered]
  rw [dropWhile_of_versions n hversions, List.drop_drop, Nat.add_sub_cancel' h]

theorem numbered_drop_eq_nil {n : Nat} (h : bs.length ≤ n) : (numbered bs).drop n = [] :=
  List.drop_eq_nil_of_le (by simpa using h)

theorem deltas_drop (bs : List Delta) (n : Nat) :
    ((numbered bs).drop n).map (·.delta) = bs.drop n := by
  rw [List.map_drop, deltas_numbered]

end Numbered

namespace Row

def record (version : Nat) (delta : Delta) (r : Row) : Row :=
  match r.marks.head? with
  | some low => if low ≤ version then { r with entries := r.entries ++ [⟨version, delta⟩] } else r
  | none => r

def Keeps (r : Row) (bs : List Delta) : Prop :=
  r.entries = r.marks.head?.elim [] fun low => (numbered bs).drop low

variable {r : Row} {bs : List Delta}

theorem keeps_of_nil (h : r.marks.head? = none) : r.Keeps bs ↔ r.entries = [] := by
  rw [Keeps, h]
  rfl

theorem keeps_of_low {low : Nat} (h : r.marks.head? = some low) :
    r.Keeps bs ↔ r.entries = (numbered bs).drop low := by
  rw [Keeps, h]
  rfl

namespace Keeps

variable (h : r.Keeps bs)
include h

theorem mark : (r.mark bs.length).Keeps bs := by
  obtain ⟨marks, entries⟩ := r
  cases marks with
  | nil =>
    obtain rfl := (keeps_of_nil rfl).mp h
    exact (keeps_of_low rfl).mpr (numbered_drop_eq_nil (Nat.le_refl _)).symm
  | cons low rest =>
    obtain rfl := (keeps_of_low rfl).mp h
    by_cases hle : bs.length ≤ low
    · have hhead : (insertMark bs.length (low :: rest)).head? = some bs.length := by
        simp [insertMark, hle]
      refine (keeps_of_low hhead).mpr ?_
      rw [numbered_drop_eq_nil (Nat.le_refl _)]
      exact numbered_drop_eq_nil hle
    · have hhead : (insertMark bs.length (low :: rest)).head? = some low := by
        simp [insertMark, hle]
      exact (keeps_of_low hhead).mpr rfl

theorem unmark (hrising : r.marks.Pairwise (· ≤ ·)) (version : Nat) : (r.unmark version).Keeps bs := by
  cases hhead : (r.unmark version).marks.head? with
  | none =>
    rw [keeps_of_nil hhead, Row.unmark, trim]
    rw [marks_unmark] at hhead
    rw [hhead]
  | some low =>
    rw [keeps_of_low hhead, Row.unmark, trim]
    rw [marks_unmark] at hhead
    rw [hhead]
    have hmem : low ∈ r.marks := List.erase_subset (List.mem_of_mem_head? hhead)
    cases hmarks : r.marks with
    | nil =>
      rw [hmarks] at hmem
      cases hmem
    | cons low' rest =>
      have hhead' : r.marks.head? = some low' := by rw [hmarks]; rfl
      have hle : low' ≤ low := by
        rw [hmarks] at hmem hrising
        cases hmem with
        | head => exact Nat.le_refl _
        | tail _ hmem => exact (List.pairwise_cons.mp hrising).1 low hmem
      dsimp only
      rw [(keeps_of_low hhead').mp h]
      exact dropWhile_numbered hle

theorem record (d : Delta) : (r.record bs.length d).Keeps (bs ++ [d]) := by
  cases hhead : r.marks.head? with
  | none =>
    have hsame : r.record bs.length d = r := by rw [Row.record, hhead]
    rw [hsame]
    exact (keeps_of_nil hhead).mpr ((keeps_of_nil hhead).mp h)
  | some low =>
    have hentries := (keeps_of_low hhead).mp h
    rw [Row.record, hhead]
    dsimp only
    split
    next hle =>
      rw [keeps_of_low (by exact hhead), hentries, numbered_concat,
        List.drop_append_of_le_length (by simpa using hle)]
    next hlt =>
      have hlen : bs.length < low := Nat.lt_of_not_le hlt
      rw [keeps_of_low hhead, hentries, numbered_drop_eq_nil (Nat.le_of_lt hlen),
        numbered_drop_eq_nil (by rw [List.length_append]; exact hlen)]

omit h in
theorem forget (r : Row) : r.forget.Keeps [] := by
  cases hhead : r.forget.marks.head? with
  | none => exact (keeps_of_nil hhead).mpr rfl
  | some low => exact (keeps_of_low hhead).mpr List.drop_nil.symm

end Keeps

end Row

section Move

variable {h : History} {uri : String} {moves past : List Move} {mv : Move} {id : Nat}
  {baseline : Table String Nat}

theorem row_record (h : History) (uri : String) (version : Nat) (d : Delta) :
    (h.record uri version d).row uri = (h.row uri).record version d := by
  unfold record Row.record
  cases hlow : h.watermark uri with
  | none =>
    have hhead : (h.row uri).marks.head? = none := hlow
    rw [hhead]
  | some low =>
    have hhead : (h.row uri).marks.head? = some low := hlow
    rw [hhead]
    by_cases hle : low ≤ version <;> simp [hle, row, marksOf, entriesOf]

theorem row_record_of_ne (h : History) {uri other : String} (hne : uri ≠ other) (version : Nat)
    (d : Delta) : (h.record uri version d).row other = h.row other := by
  unfold record
  cases hlow : h.watermark uri with
  | none => rfl
  | some low =>
    by_cases hle : low ≤ version <;> simp [hle, row, marksOf, entriesOf, Table.get?_put_of_ne hne]

theorem Sound.move (hs : h.Sound) (mv : Move) : (h.move mv).Sound := by
  cases mv with
  | openScope baselines => exact hs.openScope (Table.sorted_ofEntries baselines)
  | releaseScope id => exact hs.releaseScope id
  | record uri version delta =>
    obtain ⟨entries, hentries⟩ := h.exists_record uri version delta
    rw [History.move, hentries]
    exact hs.withEntries entries
  | forget uri => exact hs.withEntries _

theorem run_concat (h : History) (moves : List Move) (mv : Move) :
    h.run (moves ++ [mv]) = (h.run moves).move mv :=
  List.foldl_append

theorem batches_concat (uri : String) (moves : List Move) (mv : Move) :
    batches uri (moves ++ [mv]) = mv.extend uri (batches uri moves) :=
  List.foldl_append

theorem sound_run (moves : List Move) : (empty.run moves).Sound := by
  induction moves using List.reverseRecOn with
  | nil => exact sound_empty
  | append_singleton moves mv ih => rw [run_concat]; exact ih.move mv

theorem Row.Keeps.move {bs : List Delta} (hs : h.Sound) (hkeeps : (h.row uri).Keeps bs)
    (hopen : ∀ baselines, mv = .openScope baselines → ∀ e ∈ baselines, e.1 = uri → e.2 = bs.length)
    (hrecord : ∀ v d, mv = .record uri v d → v = bs.length) :
    ((h.move mv).row uri).Keeps (mv.extend uri bs) := by
  cases mv with
  | openScope baselines =>
    have hsorted := Table.sorted_ofEntries baselines
    rw [History.move, row_openScope h uri hsorted]
    cases hget : Table.get? uri (Table.ofEntries baselines) with
    | none => exact hkeeps
    | some v =>
      rw [Table.get?_ofEntries] at hget
      have hmem := List.mem_reverse.mp (Table.mem_of_get? hget)
      obtain rfl : v = bs.length := hopen baselines rfl (uri, v) hmem rfl
      exact hkeeps.mark
  | releaseScope id =>
    cases hid : Table.get? id h.scopes with
    | none =>
      rw [History.move, h.releaseScope_of_none hid]
      exact hkeeps
    | some baseline =>
      rw [History.move, row_releaseScope h uri hid (hs.baselines _ (Table.mem_of_get? hid))]
      cases Table.get? uri baseline with
      | none => exact hkeeps
      | some v => exact hkeeps.unmark (hs.rising uri) v
  | record uri' v d =>
    by_cases huri : uri' = uri
    · subst huri
      obtain rfl := hrecord v d rfl
      rw [History.move, row_record, Move.extend, if_pos rfl]
      exact hkeeps.record d
    · rw [History.move, row_record_of_ne h huri, Move.extend, if_neg huri]
      exact hkeeps
  | forget uri' =>
    by_cases huri : uri' = uri
    · subst huri
      rw [History.move, row_forget, Move.extend, if_pos rfl]
      exact .forget _
    · rw [History.move, row_forget_of_ne _ _ _ huri, Move.extend, if_neg huri]
      exact hkeeps

theorem Counted.of_concat (h : Counted (moves ++ [mv])) : Counted moves ∧ mv.Counts moves :=
  ⟨fun past mv' rest heq => h past mv' (rest ++ [mv]) (by simp [heq]), h moves mv [] rfl⟩

theorem keeps_run (hcount : Counted moves) (uri : String) :
    ((empty.run moves).row uri).Keeps (batches uri moves) := by
  induction moves using List.reverseRecOn with
  | nil => exact (Row.keeps_of_nil rfl).mpr rfl
  | append_singleton moves mv ih =>
    obtain ⟨hmoves, hmv⟩ := hcount.of_concat
    rw [run_concat, batches_concat]
    refine (ih hmoves).move (sound_run moves) ?_ ?_
    · rintro baselines rfl e he rfl
      exact hmv e he
    · rintro v d rfl
      exact hmv

theorem scopes_record (h : History) (uri : String) (version : Nat) (d : Delta) :
    (h.record uri version d).scopes = h.scopes := by
  obtain ⟨entries, hentries⟩ := h.exists_record uri version d
  rw [hentries]

theorem isOpen_concat :
    IsOpen (moves ++ [mv]) id baseline ↔
      (IsOpen moves id baseline ∧ mv ≠ .releaseScope id) ∨
        ∃ baselines, mv = .openScope baselines ∧ baseline = Table.ofEntries baselines ∧
          id = (empty.run moves).nextScope := by
  constructor
  · rintro ⟨past, baselines, rest, hmoves, hkept, hbaseline, hid⟩
    obtain rfl | ⟨rest, mv', rfl⟩ := rest.eq_nil_or_concat
    · obtain ⟨rfl, hlast⟩ := List.append_inj' hmoves rfl
      exact .inr ⟨baselines, List.singleton_inj.mp hlast, hbaseline, hid⟩
    · rw [List.concat_eq_append] at hmoves hkept
      rw [← List.cons_append, ← List.append_assoc] at hmoves
      obtain ⟨rfl, hlast⟩ := List.append_inj' hmoves rfl
      obtain rfl := List.singleton_inj.mp hlast
      rw [List.mem_append, not_or] at hkept
      refine .inl ⟨⟨past, baselines, rest, rfl, hkept.1, hbaseline, hid⟩, ?_⟩
      rintro rfl
      exact hkept.2 List.mem_cons_self
  · rintro (⟨⟨past, baselines, rest, rfl, hkept, hbaseline, hid⟩, hne⟩ |
      ⟨baselines, rfl, hbaseline, hid⟩)
    · refine ⟨past, baselines, rest ++ [mv], by simp, ?_, hbaseline, hid⟩
      rw [List.mem_append, List.mem_singleton, not_or]
      exact ⟨hkept, hne.symm⟩
    · exact ⟨moves, baselines, [], rfl, List.not_mem_nil, hbaseline, hid⟩

theorem get?_scopes_run :
    Table.get? id (empty.run moves).scopes = some baseline ↔ IsOpen moves id baseline := by
  induction moves using List.reverseRecOn with
  | nil =>
    constructor
    · intro h
      cases h
    · rintro ⟨past, baselines, rest, hmoves, -⟩
      cases past <;> cases hmoves
  | append_singleton moves mv ih =>
    have hs := sound_run moves
    rw [run_concat, isOpen_concat, ← ih]
    generalize empty.run moves = h at hs
    cases mv with
    | openScope baselines =>
      change Table.get? id (Table.put h.nextScope (Table.ofEntries baselines) h.scopes) = _ ↔ _
      by_cases hid : h.nextScope = id
      · subst hid
        simp [hs.get?_nextScope, eq_comm]
      · simp [Table.get?_put_of_ne hid, Ne.symm hid]
    | releaseScope id' =>
      cases hid' : Table.get? id' h.scopes with
      | none =>
        rw [History.move, h.releaseScope_of_none hid']
        by_cases hid : id' = id
        · subst hid
          simp [hid']
        · simp [hid]
      | some baseline' =>
        rw [History.move, h.scopes_releaseScope hid']
        by_cases hid : id' = id
        · subst hid
          simp
        · simp [Table.get?_erase_of_ne hid, hid]
    | record uri version delta => simp [History.move, scopes_record]
    | forget uri => simp [History.move, History.forget]

theorem mem_marksOf_run {uri : String} {v : Nat} :
    v ∈ (empty.run moves).marksOf uri ↔
      ∃ id baseline, IsOpen moves id baseline ∧ Table.get? uri baseline = some v := by
  have hs := sound_run moves
  rw [(hs.marked uri).mem_iff, held, List.mem_filterMap]
  constructor
  · rintro ⟨⟨id, baseline⟩, hmem, hget⟩
    exact ⟨id, baseline, get?_scopes_run.mp (hs.sorted.get?_of_mem hmem), hget⟩
  · rintro ⟨id, baseline, hopen, hget⟩
    exact ⟨(id, baseline), Table.mem_of_get? (get?_scopes_run.mpr hopen), hget⟩

theorem Sound.watermark_eq_some_iff (hs : h.Sound) {uri : String} {low : Nat} :
    h.watermark uri = some low ↔ low ∈ h.marksOf uri ∧ ∀ v ∈ h.marksOf uri, low ≤ v := by
  have hrising := hs.rising uri
  rw [watermark]
  cases hmarks : h.marksOf uri with
  | nil => simp
  | cons first rest =>
    rw [hmarks] at hrising
    have hfirst : ∀ v ∈ first :: rest, first ≤ v := by
      intro v hv
      cases hv with
      | head => exact Nat.le_refl _
      | tail _ hv => exact (List.pairwise_cons.mp hrising).1 v hv
    constructor
    · intro heq
      cases heq
      exact ⟨List.mem_cons_self, hfirst⟩
    · rintro ⟨hmem, hle⟩
      exact congrArg some (Nat.le_antisymm (hfirst low hmem) (hle first List.mem_cons_self))

end Move

section Chain

variable {uri : String} {past rest : List Move}

theorem Move.extend_append {mv : Move} (hmv : mv ≠ .forget uri) (bs more : List Delta) :
    mv.extend uri (bs ++ more) = bs ++ mv.extend uri more := by
  cases mv with
  | record uri' version delta =>
    by_cases huri : uri' = uri <;> simp [Move.extend, huri]
  | forget uri' =>
    have huri : uri' ≠ uri := by
      rintro rfl
      exact hmv rfl
    simp [Move.extend, huri]
  | openScope | releaseScope => rfl

theorem batches_append (hrest : .forget uri ∉ rest) :
    batches uri (past ++ rest) = batches uri past ++ batches uri rest := by
  induction rest using List.reverseRecOn with
  | nil => simp [batches]
  | append_singleton rest mv ih =>
    rw [List.mem_append, List.mem_singleton, not_or] at hrest
    rw [← List.append_assoc, batches_concat, batches_concat, ih hrest.1,
      Move.extend_append (Ne.symm hrest.2)]

theorem exists_composeAll {sofar : Delta} {deltas : List Delta}
    (h : Fits sofar.newLength deltas) : ∃ d, deltas.foldlM Delta.compose sofar = .ok d := by
  induction deltas generalizing sofar with
  | nil => exact ⟨sofar, rfl⟩
  | cons delta rest ih =>
    obtain ⟨hlength, hrest⟩ := h
    obtain ⟨next, hnext⟩ := Delta.exists_compose hlength.symm
    rw [← Delta.newLength_of_compose hnext] at hrest
    obtain ⟨d, hd⟩ := ih hrest
    refine ⟨d, ?_⟩
    rw [List.foldlM_cons, hnext]
    exact hd

theorem entriesOf_of_keeps {h : History} {bs : List Delta} (hkeeps : (h.row uri).Keeps bs) :
    h.entriesOf uri = (h.watermark uri).elim [] fun low => (numbered bs).drop low :=
  hkeeps

theorem chain_of_keeps {h : History} {bs more : List Delta} {low : Nat}
    (hkeeps : (h.row uri).Keeps (bs ++ more)) (hlow : h.watermark uri = some low)
    (hle : low ≤ bs.length) (length : Nat) :
    h.chain uri bs.length (bs ++ more).length length =
      (more.foldlM Delta.compose (.identity length)).mapError .delta := by
  have hentries := entriesOf_of_keeps hkeeps
  rw [hlow, Option.elim_some] at hentries
  have hdrop : (h.entriesOf uri).dropWhile (·.version < bs.length) =
      (numbered (bs ++ more)).drop bs.length := by
    rw [hentries, dropWhile_numbered hle]
  have hdeltas : ((numbered (bs ++ more)).drop bs.length).map (·.delta) = more := by
    rw [deltas_drop, List.drop_left]
  rw [chain_eq (by simp) (by rw [hdrop, versions_drop]), hdrop, composeAll]
  conv => rhs; rw [← hdeltas, List.foldlM_map]

end Chain

/-- A history keeps of each document what the live scopes need and nothing else. -/
theorem retention_exact (moves : List Move) (hcount : Counted moves) (uri : String) :
    let h := empty.run moves
    (∀ low, h.watermark uri = some low ↔
      (∃ id baseline, IsOpen moves id baseline ∧ Table.get? uri baseline = some low) ∧
        ∀ id baseline v, IsOpen moves id baseline → Table.get? uri baseline = some v → low ≤ v) ∧
      (h.watermark uri = none ↔
        ∀ id baseline, IsOpen moves id baseline → Table.get? uri baseline = none) ∧
      (∀ low, h.watermark uri = some low →
        h.entriesOf uri = (numbered (batches uri moves)).drop low ∧
          ∀ e ∈ h.entriesOf uri, low ≤ e.version) ∧
      (h.watermark uri = none → h.retained uri = 0) ∧
      ∀ past baselines rest start, moves = past ++ .openScope baselines :: rest →
        let baseline := Table.ofEntries baselines
        .releaseScope ((empty.run past).openScope baseline).1 ∉ rest → .forget uri ∉ rest →
        Table.get? uri baseline = some start → ∀ length,
          let composed := (batches uri rest).foldlM Delta.compose (.identity length)
          h.chain uri start (version uri moves) length = composed.mapError .delta ∧
            (Fits length (batches uri rest) →
              ∃ d, composed = .ok d ∧ h.chain uri start (version uri moves) length = .ok d) := by
  intro h
  have hs : h.Sound := sound_run moves
  have hkeeps : (h.row uri).Keeps (batches uri moves) := keeps_run hcount uri
  refine ⟨?_, ?_, ?_, ?_, ?_⟩
  · intro low
    rw [hs.watermark_eq_some_iff, mem_marksOf_run]
    refine and_congr_right fun _ => ⟨?_, ?_⟩
    · intro hle id baseline v hopen hget
      exact hle v (mem_marksOf_run.mpr ⟨id, baseline, hopen, hget⟩)
    · intro hle v hv
      obtain ⟨id, baseline, hopen, hget⟩ := mem_marksOf_run.mp hv
      exact hle id baseline v hopen hget
  · rw [watermark, List.head?_eq_none_iff, List.eq_nil_iff_forall_not_mem]
    constructor
    · intro hnone id baseline hopen
      rw [Option.eq_none_iff_forall_ne_some]
      intro v hget
      exact hnone v (mem_marksOf_run.mpr ⟨id, baseline, hopen, hget⟩)
    · intro hnone v hv
      obtain ⟨id, baseline, hopen, hget⟩ := mem_marksOf_run.mp hv
      cases (hnone id baseline hopen).symm.trans hget
  · intro low hlow
    have hentries := entriesOf_of_keeps hkeeps
    rw [hlow, Option.elim_some] at hentries
    refine ⟨hentries, ?_⟩
    intro e he
    have hversion := List.mem_map_of_mem (f := HistoryEntry.version) he
    rw [hentries, versions_drop, List.mem_range'_1] at hversion
    exact hversion.1
  · intro hnone
    rw [retained, entriesOf_of_keeps hkeeps, hnone]
    rfl
  · intro past baselines rest start hmoves baseline hkept hremembered hget length composed
    have hopen : IsOpen moves _ baseline := ⟨past, baselines, rest, hmoves, hkept, rfl, rfl⟩
    have hstart : start = (batches uri past).length := by
      rw [Table.get?_ofEntries] at hget
      exact hcount past _ rest hmoves _ (List.mem_reverse.mp (Table.mem_of_get? hget))
    have hbatches : batches uri moves = batches uri past ++ batches uri rest := by
      rw [hmoves, ← batches_append hremembered]
      simp [batches, Move.extend]
    obtain ⟨low, hlow, hle⟩ := hs.exists_watermark_le (get?_scopes_run.mpr hopen) hget
    have hchain : h.chain uri start (version uri moves) length = composed.mapError .delta := by
      rw [hbatches] at hkeeps
      rw [version, hbatches, hstart]
      exact chain_of_keeps hkeeps hlow (hstart ▸ hle) length
    refine ⟨hchain, fun hfits => ?_⟩
    rw [← Delta.newLength_identity length] at hfits
    obtain ⟨d, hd⟩ := exists_composeAll hfits
    refine ⟨d, hd, ?_⟩
    rw [hchain]
    exact congrArg _ hd

theorem retention_exact_of_stale_scopes :
    let first : Delta := ⟨[.replaced 0 1, .kept 1]⟩
    let second : Delta := ⟨[.kept 2, .replaced 0 1]⟩
    let opened : List Move := [.openScope [("u", 0)], .record "u" 0 first, .record "u" 1 second,
      .openScope [("u", 2)], .forget "u", .openScope [("u", 0)], .record "u" 0 first]
    let rest : List Move := [.releaseScope 0, .releaseScope 2, .releaseScope 2, .record "u" 1 second]
    let moves := opened ++ .openScope [("u", 1)] :: rest
    let h := empty.run moves
    Counted moves ∧ h.watermark "u" = some 1 ∧ h.entriesOf "u" = [⟨1, second⟩] ∧
      h.chain "u" 1 2 2 = .ok second := by
  intro first second opened rest moves h
  have hcount : Counted moves := by decide
  obtain ⟨-, -, hkept, -, hchain⟩ := retention_exact moves hcount "u"
  have hlow : h.watermark "u" = some 1 := by decide
  have hnumbered : (numbered (batches "u" moves)).drop 1 = [⟨1, second⟩] := by decide
  have hnormal : second.IsNormal := by
    simp [second, Delta.IsNormal, Span.Normal, Span.IsEmpty, Span.isKept, Span.oldLength,
      Span.newLength]
  have hcomposed : (batches "u" rest).foldlM Delta.compose (.identity second.oldLength) =
      .ok second := by
    have hbatches : batches "u" rest = [second] := by decide
    rw [hbatches, List.foldlM_cons, Delta.identity_compose hnormal]
    rfl
  obtain ⟨htold, -⟩ := hchain opened [("u", 1)] rest 1 rfl (by decide) (by decide) rfl 2
  refine ⟨hcount, hlow, (hkept 1 hlow).1.trans hnumbered, htold.trans ?_⟩
  exact congrArg (Except.mapError WorkspaceError.delta) hcomposed

end LanguageClient.History
