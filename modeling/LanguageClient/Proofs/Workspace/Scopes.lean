import LanguageClient.Proofs.Workspace.History

namespace LanguageClient.History

theorem insertMark_perm (version : Nat) (marks : List Nat) :
    (insertMark version marks).Perm (version :: marks) := by
  induction marks with
  | nil => exact .refl _
  | cons v rest ih =>
    rw [insertMark]
    split
    next => exact .refl _
    next => exact (ih.cons v).trans (.swap _ _ _)

theorem pairwise_insertMark (version : Nat) {marks : List Nat} (h : marks.Pairwise (· ≤ ·)) :
    (insertMark version marks).Pairwise (· ≤ ·) := by
  induction marks with
  | nil => exact List.pairwise_singleton _ _
  | cons v rest ih =>
    obtain ⟨hle, hrest⟩ := List.pairwise_cons.mp h
    rw [insertMark]
    split
    next hv =>
      refine List.pairwise_cons.mpr ⟨?_, h⟩
      intro w hw
      cases hw with
      | head => exact hv
      | tail _ hw => exact Nat.le_trans hv (hle w hw)
    next hv =>
      refine List.pairwise_cons.mpr ⟨?_, ih hrest⟩
      intro w hw
      cases (insertMark_perm version rest).mem_iff.mp hw with
      | head => exact Nat.le_of_not_le hv
      | tail _ hw => exact hle w hw

def held (h : History) (uri : String) : List Nat :=
  h.scopes.filterMap fun scope => Table.get? uri scope.2

structure Sound (h : History) : Prop where
  rising : ∀ uri, (h.marksOf uri).Pairwise (· ≤ ·)
  marked : ∀ uri, (h.marksOf uri).Perm (h.held uri)
  sorted : h.scopes.Sorted
  fresh : ∀ scope ∈ h.scopes, scope.1 < h.nextScope
  baselines : ∀ scope ∈ h.scopes, scope.2.Sorted

namespace Sound

variable {h : History} (hs : h.Sound)
include hs

theorem get?_nextScope : Table.get? h.nextScope h.scopes = none :=
  Table.get?_eq_none fun scope hscope => Nat.ne_of_lt (hs.fresh scope hscope)

theorem withEntries (entries : Table String (List HistoryEntry)) : { h with entries }.Sound where
  rising := hs.rising
  marked := hs.marked
  sorted := hs.sorted
  fresh := hs.fresh
  baselines := hs.baselines

theorem openScope {baseline : Table String Nat} (hb : baseline.Sorted) :
    (h.openScope baseline).2.Sound := by
  have hput : (Table.put h.nextScope baseline h.scopes).Perm
      ((h.nextScope, baseline) :: h.scopes) := Table.put_perm hs.get?_nextScope baseline
  have hmarks : ∀ uri, (h.openScope baseline).2.marksOf uri =
      (Table.get? uri baseline).elim (h.marksOf uri) fun v => insertMark v (h.marksOf uri) := by
    intro uri
    have := congrArg Row.marks (row_openScope h uri hb)
    cases hget : Table.get? uri baseline <;> simpa [hget, Row.mark] using this
  constructor
  case rising =>
    intro uri
    rw [hmarks]
    cases Table.get? uri baseline with
    | none => exact hs.rising uri
    | some v => exact pairwise_insertMark v (hs.rising uri)
  case marked =>
    intro uri
    have hheld : ((h.openScope baseline).2.held uri).Perm
        (((h.nextScope, baseline) :: h.scopes).filterMap fun scope => Table.get? uri scope.2) :=
      hput.filterMap _
    rw [hmarks]
    refine .trans ?_ hheld.symm
    cases hget : Table.get? uri baseline with
    | none => simpa [hget, held] using hs.marked uri
    | some v => simpa [hget, held] using (insertMark_perm v _).trans ((hs.marked uri).cons v)
  case sorted => exact hs.sorted.put _ _
  case fresh =>
    intro scope hscope
    cases hput.mem_iff.mp hscope with
    | head => exact Nat.lt_succ_self _
    | tail _ hscope => exact Nat.lt_succ_of_lt (hs.fresh scope hscope)
  case baselines =>
    intro scope hscope
    cases hput.mem_iff.mp hscope with
    | head => exact hb
    | tail _ hscope => exact hs.baselines scope hscope

theorem releaseScope (id : Nat) : (h.releaseScope id).Sound := by
  cases hid : Table.get? id h.scopes with
  | none => exact (h.releaseScope_of_none hid).symm ▸ hs
  | some baseline =>
    have hb : baseline.Sorted := hs.baselines _ (Table.mem_of_get? hid)
    have hscopes : (h.releaseScope id).scopes = Table.erase id h.scopes :=
      h.scopes_releaseScope hid
    have hsub : ∀ scope ∈ (h.releaseScope id).scopes, scope ∈ h.scopes := by
      intro scope hscope
      rw [hscopes] at hscope
      exact (Table.erase_sublist id h.scopes).subset hscope
    have hmarks : ∀ uri, (h.releaseScope id).marksOf uri =
        (Table.get? uri baseline).elim (h.marksOf uri) fun v => (h.marksOf uri).erase v := by
      intro uri
      have := congrArg Row.marks (row_releaseScope h uri hid hb)
      cases hget : Table.get? uri baseline <;> simpa [hget] using this
    constructor
    case rising =>
      intro uri
      rw [hmarks]
      cases Table.get? uri baseline with
      | none => exact hs.rising uri
      | some v => exact (hs.rising uri).sublist List.erase_sublist
    case marked =>
      intro uri
      have hheld : (h.held uri).Perm
          (((id, baseline) :: Table.erase id h.scopes).filterMap
            fun scope => Table.get? uri scope.2) :=
        (hs.sorted.perm_erase hid).filterMap _
      have hmarked := (hs.marked uri).trans hheld
      rw [hmarks, held, hscopes]
      cases hget : Table.get? uri baseline with
      | none => simpa [hget] using hmarked
      | some v => simpa [hget] using hmarked.erase v
    case sorted => exact hscopes ▸ hs.sorted.erase id
    case fresh =>
      intro scope hscope
      rw [nextScope_releaseScope]
      exact hs.fresh scope (hsub scope hscope)
    case baselines =>
      intro scope hscope
      exact hs.baselines scope (hsub scope hscope)

theorem exists_watermark_le {id : Nat} {baseline : Table String Nat} {uri : String} {version : Nat}
    (hid : Table.get? id h.scopes = some baseline)
    (hget : Table.get? uri baseline = some version) :
    ∃ low, (h.marksOf uri).head? = some low ∧ low ≤ version := by
  have hheld : version ∈ h.held uri :=
    List.mem_filterMap.mpr ⟨(id, baseline), Table.mem_of_get? hid, hget⟩
  have hmem := (hs.marked uri).mem_iff.mpr hheld
  have hrising := hs.rising uri
  cases hmarks : h.marksOf uri with
  | nil =>
    rw [hmarks] at hmem
    cases hmem
  | cons low rest =>
    rw [hmarks] at hmem hrising
    refine ⟨low, rfl, ?_⟩
    cases hmem with
    | head => exact Nat.le_refl _
    | tail _ hmem => exact (List.pairwise_cons.mp hrising).1 version hmem

end Sound

theorem sound_empty : empty.Sound where
  rising _ := List.Pairwise.nil
  marked _ := .refl _
  sorted := Table.sorted_nil
  fresh _ h := by cases h
  baselines _ h := by cases h

end LanguageClient.History
