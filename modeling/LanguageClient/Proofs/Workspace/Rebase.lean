import LanguageClient.Proofs.Delta.Track
import LanguageClient.Proofs.Text.Weave
import LanguageClient.Proofs.Workspace.Follow

namespace LanguageClient

open Text (bytes IsBoundary offsetAt)

namespace Mapping

def offsets (text : String) (e : TextEdit) : Nat × Nat :=
  (offsetAt text e.range.start, offsetAt text e.range.stop)

def Apart (r r' : Nat × Nat) : Prop :=
  r.2 ≤ r'.1 ∨ r'.2 ≤ r.1

instance (r r' : Nat × Nat) : Decidable (Apart r r') :=
  inferInstanceAs (Decidable (_ ∨ _))

structure Moved where
  origin : Nat × Nat
  edit : Edit

def present? (text : String) (d : Delta) (e : TextEdit) : Option Edit :=
  (d.trackRange (offsets text e).1 (offsets text e).2).map fun r => ⟨r.1, r.2, e.newText⟩

def moved (text : String) (d : Delta) (edits : List TextEdit) : List Moved :=
  edits.filterMap fun e => (present? text d e).map (⟨offsets text e, ·⟩)

def Moved.precedes (x y : Moved) : Bool :=
  x.origin.1 < y.origin.1 || (x.origin.1 == y.origin.1 && x.origin.2 ≤ y.origin.2)

def inOrder (kept : List Moved) : List Edit :=
  (kept.mergeSort Moved.precedes).map Moved.edit

def backward (kept : List Moved) : List Edit :=
  (kept.map Moved.edit).mergeSort backToFront

variable {text text' : String} {d : Delta} {edits : List TextEdit} {kept : List Moved}
  {x y : Moved}

section Orders

theorem backToFront_iff {e f : Edit} :
    backToFront e f = true ↔ f.start < e.start ∨ f.start = e.start ∧ f.stop ≤ e.stop := by
  simp [backToFront]

theorem backToFront_trans (e f g : Edit) (hef : backToFront e f = true)
    (hfg : backToFront f g = true) : backToFront e g = true := by
  rw [backToFront_iff] at *
  omega

theorem backToFront_total (e f : Edit) : (backToFront e f || backToFront f e) = true := by
  rw [Bool.or_eq_true, backToFront_iff, backToFront_iff]
  omega

theorem Moved.precedes_iff :
    x.precedes y = true ↔
      x.origin.1 < y.origin.1 ∨ x.origin.1 = y.origin.1 ∧ x.origin.2 ≤ y.origin.2 := by
  simp [precedes]

theorem Moved.precedes_trans (x y z : Moved) (hxy : x.precedes y = true)
    (hyz : y.precedes z = true) : x.precedes z = true := by
  rw [precedes_iff] at *
  omega

theorem Moved.precedes_total (x y : Moved) : (x.precedes y || y.precedes x) = true := by
  rw [Bool.or_eq_true, precedes_iff, precedes_iff]
  omega

theorem pairwise_mergeSort_and {α : Type} {le : α → α → Bool} {R : α → α → Prop} {xs : List α}
    (trans : ∀ a b c, le a b = true → le b c = true → le a c = true)
    (total : ∀ a b, (le a b || le b a) = true) (symm : ∀ {a b}, R a b → R b a)
    (h : xs.Pairwise R) : (xs.mergeSort le).Pairwise fun a b => le a b = true ∧ R a b :=
  (List.pairwise_mergeSort trans total xs).and ((List.mergeSort_perm xs le).symm.pairwise h symm)

theorem Apart.symm {r r' : Nat × Nat} (h : Apart r r') : Apart r' r :=
  Or.symm h

theorem backward_perm (kept : List Moved) : (backward kept).Perm (kept.map Moved.edit) :=
  List.mergeSort_perm _ _

theorem inOrder_perm (kept : List Moved) : (inOrder kept).Perm (kept.map Moved.edit) :=
  (List.mergeSort_perm kept Moved.precedes).map _

end Orders

section Ties

theorem insertions_backward (kept : List Moved) (k : Nat) :
    (backward kept).filter (fun e => e.start == k && e.isInsertion) =
      (kept.map Moved.edit).filter (fun e => e.start == k && e.isInsertion) := by
  have hties : ((kept.map Moved.edit).filter fun e => e.start == k && e.isInsertion).Pairwise
      fun e f => backToFront e f = true := by
    refine List.pairwise_of_forall_mem_list ?_
    intro e he f hf
    simp only [List.mem_filter, Edit.isInsertion, Bool.and_eq_true, beq_iff_eq] at he hf
    rw [backToFront_iff]
    omega
  have hsublist := (List.sublist_mergeSort backToFront_trans backToFront_total hties
    List.filter_sublist).filter fun e => e.start == k && e.isInsertion
  rw [List.filter_filter] at hsublist
  simp only [Bool.and_self] at hsublist
  exact (hsublist.eq_of_length ((backward_perm kept).filter _).length_eq.symm).symm

/-- A batch makes the insertions at one place in the reverse order of their list. -/
theorem landing_backward (kept : List Moved) (k : Nat) :
    Edit.landing k ((backward kept).reverse.filter Edit.isInsertion) =
      Edit.landing k ((kept.map Moved.edit).reverse.filter Edit.isInsertion) := by
  rw [Edit.landing, Edit.landing, List.filter_filter, List.filter_filter, List.filter_reverse,
    List.filter_reverse, insertions_backward]

end Ties

section Kept

structure Moved.Tracks (text : String) (d : Delta) (x : Moved) : Prop where
  ordered : x.origin.1 ≤ x.origin.2
  start : IsBoundary text.toList x.origin.1
  stop : IsBoundary text.toList x.origin.2
  range : d.trackRange x.origin.1 x.origin.2 = some (x.edit.start, x.edit.stop)

theorem tracks_moved (hordered : ∀ e ∈ edits, (offsets text e).1 ≤ (offsets text e).2) :
    ∀ x ∈ moved text d edits, x.Tracks text d := by
  intro x hx
  obtain ⟨e, he, hmoved⟩ := List.mem_filterMap.mp hx
  obtain ⟨_, hpresent, rfl⟩ := Option.map_eq_some_iff.mp hmoved
  obtain ⟨r, hr, rfl⟩ := Option.map_eq_some_iff.mp hpresent
  exact ⟨hordered e he, Text.isBoundary_offsetAt text e.range.start,
    Text.isBoundary_offsetAt text e.range.stop, hr⟩

theorem pairwise_moved (h : edits.Pairwise fun e f => Apart (offsets text e) (offsets text f)) :
    (moved text d edits).Pairwise fun x y => Apart x.origin y.origin := by
  refine List.pairwise_filterMap.mpr (h.imp ?_)
  intro e f hapart x hx y hy
  obtain ⟨r, -, rfl⟩ := Option.map_eq_some_iff.mp hx
  obtain ⟨r', -, rfl⟩ := Option.map_eq_some_iff.mp hy
  exact hapart

theorem origins_moved (hordered : ∀ e ∈ edits, (offsets text e).1 ≤ (offsets text e).2)
    (hlength : d.oldLength = Text.size text) :
    (moved text d edits).map Moved.origin =
      (edits.map (offsets text)).filter fun r => !d.touches r.1 r.2 := by
  induction edits with
  | nil => rfl
  | cons e rest ih =>
    have hrest := ih fun e' he' => hordered e' (List.mem_cons_of_mem e he')
    have hstop : (offsets text e).2 ≤ d.oldLength :=
      hlength ▸ Text.le_of_isBoundary (Text.isBoundary_offsetAt text e.range.stop)
    have hnone := Delta.trackRange_eq_none_iff (hordered e List.mem_cons_self) hstop
    rw [moved, List.filterMap_cons, List.map_cons]
    cases hrange : d.trackRange (offsets text e).1 (offsets text e).2 with
    | none =>
      rw [present?, hrange, List.filter_cons_of_neg (by simp [hnone.mp hrange])]
      exact hrest
    | some r =>
      have hfree : d.touches (offsets text e).1 (offsets text e).2 = false :=
        (Delta.trackRange_eq_some_iff.mp hrange).1
      rw [present?, hrange, List.filter_cons_of_pos (by simp [hfree])]
      exact congrArg _ hrest

end Kept

section Batch

theorem Moved.Tracks.start_le_stop (hx : x.Tracks text d) : x.edit.start ≤ x.edit.stop :=
  Delta.le_of_trackRange hx.range

theorem Moved.Tracks.stop_le (hx : x.Tracks text d) (hy : y.Tracks text d)
    (hle : x.origin.2 ≤ y.origin.1) : x.edit.stop ≤ y.edit.start :=
  Delta.trackRange_le hx.range hy.range hx.ordered hle

theorem Moved.Tracks.fits (hx : x.Tracks text d)
    (hcarries : Span.Carries d.spans text.toList text'.toList) : x.edit.Fits text' := by
  obtain ⟨hstart, hstop⟩ := Delta.isBoundary_trackRange hx.range hcarries hx.start hx.stop
  exact ⟨hx.start_le_stop, hstart, hstop⟩

variable (htracks : ∀ x ∈ kept, x.Tracks text d)
  (hapart : kept.Pairwise fun x y => Apart x.origin y.origin)
include htracks hapart

theorem ascends_inOrder : Edit.Ascends (inOrder kept) where
  ordered := by
    intro e he
    obtain ⟨x, hx, rfl⟩ := List.mem_map.mp he
    exact (htracks x (List.mem_mergeSort.mp hx)).start_le_stop
  apart := by
    refine List.pairwise_map.mpr (List.Pairwise.imp_of_mem ?_ (pairwise_mergeSort_and
      Moved.precedes_trans Moved.precedes_total Apart.symm hapart))
    rintro x y hx hy ⟨hprecedes, hapart⟩
    have hx := htracks x (List.mem_mergeSort.mp hx)
    have hy := htracks y (List.mem_mergeSort.mp hy)
    have hle : x.origin.2 ≤ y.origin.1 := by
      have := hx.ordered
      have := hy.ordered
      rw [Moved.precedes_iff] at hprecedes
      rw [Apart] at hapart
      omega
    exact hx.stop_le hy hle

theorem pairwise_edits : (kept.map Moved.edit).Pairwise fun e f =>
    Apart (e.start, e.stop) (f.start, f.stop) := by
  refine List.pairwise_map.mpr (hapart.imp_of_mem ?_)
  intro x y hx hy hapart
  have hx := htracks x hx
  have hy := htracks y hy
  exact hapart.imp (hx.stop_le hy) (hy.stop_le hx)

theorem ascends_backward : Edit.Ascends (backward kept).reverse where
  ordered := by
    intro e he
    obtain ⟨x, hx, rfl⟩ :=
      List.mem_map.mp ((backward_perm kept).mem_iff.mp (List.mem_reverse.mp he))
    exact (htracks x hx).start_le_stop
  apart := by
    refine List.pairwise_reverse.mpr (List.Pairwise.imp_of_mem ?_ (pairwise_mergeSort_and
      backToFront_trans backToFront_total Apart.symm (pairwise_edits htracks hapart)))
    rintro e f he hf ⟨hsorted, hapart⟩
    obtain ⟨x, hx, rfl⟩ := List.mem_map.mp (List.mem_mergeSort.mp he)
    obtain ⟨y, hy, rfl⟩ := List.mem_map.mp (List.mem_mergeSort.mp hf)
    have := (htracks x hx).start_le_stop
    have := (htracks y hy).start_le_stop
    rw [backToFront_iff] at hsorted
    simp only [Apart] at hapart
    omega

/-- The batch makes all edits at once. The insertions at one place come out in the reverse order of their
list; the text is that of the baseline order if both orders insert the same at each place. -/
theorem exists_applyAll_backward (hcarries : Span.Carries d.spans text.toList text'.toList) :
    ∃ result, Edit.applyAll (backward kept) text' = .ok result ∧
      bytes result = Edit.weave (backward kept).reverse 0 (bytes text') ∧
      (bytes result = Edit.weave (inOrder kept) 0 (bytes text') ↔
        ∀ k, Edit.landing k ((kept.map Moved.edit).reverse.filter Edit.isInsertion) =
          Edit.landing k ((inOrder kept).filter Edit.isInsertion)) := by
  have hfits : ∀ e ∈ backward kept, e.Fits text' := by
    intro e he
    obtain ⟨x, hx, rfl⟩ := List.mem_map.mp ((backward_perm kept).mem_iff.mp he)
    exact (htracks x hx).fits hcarries
  have hperm : (backward kept).reverse.Perm (inOrder kept) :=
    (List.reverse_perm _).trans ((backward_perm kept).trans (inOrder_perm kept).symm)
  have hback := ascends_backward htracks hapart
  obtain ⟨result, happly, hbytes⟩ := Edit.exists_applyAll hfits hback
  refine ⟨result, happly, hbytes, ?_⟩
  rw [hbytes, Edit.weave_bytes_eq_iff hback (ascends_inOrder htracks hapart) hperm
    fun e he => hfits e (List.mem_reverse.mp he)]
  simp only [landing_backward]

end Batch

section Answer

variable {m : Mapping} {s : Documents} {uri : String} {b : Baseline}

theorem rebase_eq {e : TextEdit} (h : (offsets text e).1 ≤ (offsets text e).2) :
    rebase uri text d e = .ok (present? text d e) :=
  if_neg (Nat.not_lt_of_le h)

theorem mapM_rebase (hordered : ∀ e ∈ edits, (offsets text e).1 ≤ (offsets text e).2) :
    edits.mapM (rebase uri text d) = .ok (edits.map (present? text d)) := by
  induction edits with
  | nil => rfl
  | cons e rest ih =>
    have hrest := ih fun e' he' => hordered e' (List.mem_cons_of_mem e he')
    rw [List.mapM_cons, hrest, rebase_eq (hordered e List.mem_cons_self)]
    rfl

theorem edits_moved (text : String) (d : Delta) (edits : List TextEdit) :
    (moved text d edits).map Moved.edit = (edits.map (present? text d)).filterMap id := by
  rw [moved, List.map_filterMap, List.filterMap_map]
  congr 1
  funext e
  simp [Function.comp_def]

theorem mapEdits_eq (hb : Table.get? uri m.baseline = some b) (hd : m.changes s uri = .ok d)
    (hordered : ∀ e ∈ edits, (offsets b.text e).1 ≤ (offsets b.text e).2) :
    m.mapEdits s uri edits = .ok (backward (moved b.text d edits)) := by
  have hbase : m.base uri = .ok b := by rw [base, hb]
  rw [backward, edits_moved]
  simp only [mapEdits, hbase, hd, bind, Except.bind, pure, Except.pure]
  rw [mapM_rebase hordered]

end Answer

end Mapping

end LanguageClient
