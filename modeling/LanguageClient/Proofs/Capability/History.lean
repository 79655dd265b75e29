import LanguageClient.Proofs.Capability.Registered
import Mathlib.Data.List.Induction
import Mathlib.Data.String.Basic

namespace LanguageClient

def Registration.Declares (r : Registration) (kind : SyncKind) : Prop :=
  r.method = "textDocument/didChange" ∧ ∃ options v, r.options = some options ∧
    options.get? "syncKind" = some v ∧ SyncKind.read? v = some kind

namespace Gate

inductive Change
  | set (capabilities : ServerCapabilities)
  | clear
  | register (registrations : List Registration)
  | unregister (unregistrations : List Unregistration)

def change (g : Gate) : Change → Gate
  | .set capabilities => g.set capabilities
  | .clear => g.clear
  | .register rs => g.register rs
  | .unregister us => g.unregister us

def run (g : Gate) (changes : List Change) : Gate :=
  changes.foldl change g

inductive Note
  | made (r : Registration)
  | revoked (id : String)

namespace Note

def id : Note → String
  | made r => r.id
  | revoked id => id

/-- Whether a note takes a registration away, and does not make another one for its method. -/
def Ends (r : Registration) : Note → Prop
  | made r' => r'.id = r.id ∧ r'.method ≠ r.method
  | revoked id => id = r.id

end Note

namespace Change

def resets : Change → Bool
  | set _ | clear => true
  | register _ | unregister _ => false

def notes : Change → List Note
  | set _ | clear => []
  | register rs => rs.map .made
  | unregister us => us.map (.revoked ·.id)

end Change

/-- The registration was made, and its id was not named again. -/
def Stands (notes : List Note) (r : Registration) : Prop :=
  ∃ before after, notes = before ++ .made r :: after ∧ ∀ n ∈ after, n.id ≠ r.id

def Offers (notes : List Note) (method : String) : Prop :=
  ∃ before r after, notes = before ++ .made r :: after ∧ r.method = method ∧
    ∀ n ∈ after, ¬ n.Ends r

def Unheard (changes : List Change) : Prop :=
  (∀ c, .set c ∉ changes) ∨
    ∃ before after, changes = before ++ .clear :: after ∧ ∀ c, .set c ∉ after

/-- The last answer, and what the server has done since. -/
def LastAnswer (changes : List Change) (c : ServerCapabilities) (since : List Change) : Prop :=
  (∃ before, changes = before ++ .set c :: since) ∧ ∀ x ∈ since, x.resets = false

structure Tells (g : Gate) (c : ServerCapabilities) (notes : List Note) : Prop where
  feature : ∀ f : Feature, ∃ b, g.supports f = some b ∧ (b = true ↔
    (∃ v, Table.get? f.capability c.fields = some v ∧ v ≠ .bool false ∧ v ≠ .null) ∨
      Offers notes f.method)
  declared : ∀ r kind, Stands notes r → r.Declares kind →
    (∀ r' kind', Stands notes r' → r'.Declares kind' → r' = r) → g.syncKind = some kind
  advertised : (∀ r kind, Stands notes r → ¬ r.Declares kind) → g.syncKind = some c.syncKind

def note (rs : List Registration) : Note → List Registration
  | .made r => registerOne rs r
  | .revoked id => rs.filter (·.id != id)

variable {g : Gate} {r : Registration} {notes : List Note} {changes : List Change} {n : Note}
  {method : String} {f : Feature} {c : ServerCapabilities} {kind : SyncKind}

section Notes

theorem mem_note {rs : List Registration} : r ∈ note rs n ↔ r ∈ rs ∧ n.id ≠ r.id ∨ n = .made r := by
  cases n with
  | made r' => simp [note, mem_registerOne, Note.id, eq_comm]
  | revoked id => simp [note, Note.id, ne_comm]

theorem stands_concat : Stands (notes ++ [n]) r ↔ Stands notes r ∧ n.id ≠ r.id ∨ n = .made r := by
  constructor
  · rintro ⟨before, after, heq, hlater⟩
    obtain rfl | ⟨after, last, rfl⟩ := after.eq_nil_or_concat
    · exact .inr (List.append_inj_right' heq rfl |> List.singleton_inj.mp)
    · rw [List.concat_eq_append] at heq hlater
      rw [← List.cons_append, ← List.append_assoc] at heq
      obtain ⟨hnotes, hlast⟩ := List.append_inj' heq rfl
      obtain rfl := List.singleton_inj.mp hlast
      exact .inl ⟨⟨before, after, hnotes, fun m hm => hlater m (List.mem_append_left _ hm)⟩,
        hlater n (List.mem_append_right _ List.mem_cons_self)⟩
  · rintro (⟨⟨before, after, rfl, hlater⟩, hne⟩ | rfl)
    · refine ⟨before, after ++ [n], by simp, ?_⟩
      simpa [or_imp, forall_and] using ⟨hlater, hne⟩
    · exact ⟨notes, [], rfl, by simp⟩

theorem mem_foldl_note : r ∈ notes.foldl note [] ↔ Stands notes r := by
  induction notes using List.reverseRecOn with
  | nil => simp [Stands]
  | append_singleton notes n ih => rw [List.foldl_concat, mem_note, ih, stands_concat]

theorem exists_mem_foldl_note {rs : List Registration} (hr : r ∈ rs) (h : ∀ n ∈ notes, ¬ n.Ends r) :
    ∃ r' ∈ notes.foldl note rs, r'.id = r.id ∧ r'.method = r.method := by
  -- a registration for the same method may take the place of `r`, so `r` is not fixed
  have hheld : ∃ r' ∈ rs, r'.id = r.id ∧ r'.method = r.method := ⟨r, hr, rfl, rfl⟩
  clear hr
  induction notes generalizing rs with
  | nil => exact hheld
  | cons n notes ih =>
    refine ih (fun m hm => h m (List.mem_cons_of_mem _ hm)) ?_
    have hn := h n List.mem_cons_self
    obtain ⟨r', hr', hid, hmethod⟩ := hheld
    by_cases hsame : n.id = r.id
    · cases n with
      | revoked id => exact absurd hsame hn
      | made r'' =>
        have hmethod'' : r''.method = r.method := by
          by_contra hne
          exact hn ⟨hsame, hne⟩
        exact ⟨r'', mem_note.mpr (.inr rfl), hsame, hmethod''⟩
    · exact ⟨r', mem_note.mpr (.inl ⟨hr', hid ▸ hsame⟩), hid, hmethod⟩

theorem offers_iff : Offers notes method ↔ ∃ r, Stands notes r ∧ r.method = method := by
  constructor
  · rintro ⟨before, r, after, rfl, rfl, hlater⟩
    have hr : r ∈ note (before.foldl note []) (.made r) := mem_note.mpr (.inr rfl)
    obtain ⟨r', hr', -, hmethod⟩ := exists_mem_foldl_note hr hlater
    refine ⟨r', mem_foldl_note.mp ?_, hmethod⟩
    rwa [List.foldl_append, List.foldl_cons]
  · rintro ⟨r, ⟨before, after, rfl, hlater⟩, rfl⟩
    refine ⟨before, r, after, rfl, rfl, fun n hn hends => hlater n hn ?_⟩
    cases n with
    | made r' => exact hends.1
    | revoked id => exact hends

end Notes

section Run

theorem run_append (g : Gate) (changes more : List Change) :
    g.run (changes ++ more) = (g.run changes).run more :=
  List.foldl_append

theorem register_eq (g : Gate) (rs : List Registration) :
    g.register rs = ⟨g.capabilities, (rs.map Note.made).foldl note g.registered⟩ := by
  rw [List.foldl_map]
  rfl

theorem unregister_eq (g : Gate) (us : List Unregistration) :
    g.unregister us =
      ⟨g.capabilities, (us.map fun u => Note.revoked u.id).foldl note g.registered⟩ := by
  rw [List.foldl_map]
  rfl

theorem run_of_not_resets (h : ∀ x ∈ changes, x.resets = false) :
    g.run changes = ⟨g.capabilities, (changes.flatMap Change.notes).foldl note g.registered⟩ := by
  induction changes generalizing g with
  | nil => rfl
  | cons x changes ih =>
    obtain ⟨hx, hrest⟩ := List.forall_mem_cons.mp h
    rw [run, List.foldl_cons, ← run, ih hrest, List.flatMap_cons, List.foldl_append]
    cases x with
    | set | clear => cases hx
    | register rs => rw [change, register_eq, Change.notes]
    | unregister us => rw [change, unregister_eq, Change.notes]

theorem capabilities_run_of_not_set (hg : g.capabilities = none) (h : ∀ c, .set c ∉ changes) :
    (g.run changes).capabilities = none := by
  induction changes generalizing g with
  | nil => exact hg
  | cons x changes ih =>
    refine ih ?_ fun c hc => h c (List.mem_cons_of_mem _ hc)
    cases x with
    | set c => exact absurd List.mem_cons_self (h c)
    | clear => rfl
    | register rs => exact hg
    | unregister us => exact hg

theorem run_of_set (g : Gate) (before : List Change) (c : ServerCapabilities) {after : List Change}
    (h : ∀ x ∈ after, x.resets = false) :
    g.run (before ++ .set c :: after) =
      ⟨some c, (after.flatMap Change.notes).foldl note []⟩ := by
  rw [run_append, run, List.foldl_cons, ← run, run_of_not_resets h]
  rfl

theorem exists_last_reset (changes : List Change) :
    (∀ x ∈ changes, x.resets = false) ∨ ∃ before x after, changes = before ++ x :: after ∧
      x.resets = true ∧ ∀ y ∈ after, y.resets = false := by
  induction changes with
  | nil => simp
  | cons x changes ih =>
    obtain hrest | ⟨before, y, after, rfl, hy, hafter⟩ := ih
    · cases hx : x.resets with
      | false => exact .inl (List.forall_mem_cons.mpr ⟨hx, hrest⟩)
      | true => exact .inr ⟨[], x, changes, rfl, hx, hrest⟩
    · exact .inr ⟨x :: before, y, after, rfl, hy, hafter⟩

theorem not_set_of_not_resets (h : ∀ x ∈ changes, x.resets = false) (c : ServerCapabilities) :
    .set c ∉ changes :=
  fun hc => Bool.noConfusion (h _ hc)

theorem unheard_or_lastAnswer (changes : List Change) :
    Unheard changes ∨ ∃ c since, LastAnswer changes c since := by
  obtain hrest | ⟨before, x, after, rfl, hx, hafter⟩ := exists_last_reset changes
  · exact .inl (.inl (not_set_of_not_resets hrest))
  · cases x with
    | set c => exact .inr ⟨c, after, ⟨before, rfl⟩, hafter⟩
    | clear => exact .inl (.inr ⟨before, after, rfl, not_set_of_not_resets hafter⟩)
    | register | unregister => cases hx

theorem capabilities_run_eq_none_iff :
    (unknown.run changes).capabilities = none ↔ Unheard changes := by
  constructor
  · intro hnone
    refine (unheard_or_lastAnswer changes).resolve_right ?_
    rintro ⟨c, since, ⟨before, rfl⟩, hsince⟩
    rw [run_of_set unknown before c hsince] at hnone
    cases hnone
  · rintro (hnever | ⟨before, after, rfl, hafter⟩)
    · exact capabilities_run_of_not_set rfl hnever
    · rw [run_append]
      exact capabilities_run_of_not_set (g := unknown) rfl hafter

end Run

section Path

open String

theorem splitOnAux_of_not_mem (l r : List Char) (h : '.' ∉ r) :
    (ofList (l ++ r)).splitOnAux "." 0 ⟨utf8Len l⟩ 0 [] = [ofList (l ++ r)] := by
  induction r generalizing l with
  | nil =>
    have hend := extract_of_valid [] l []
    rw [splitOnAux.eq_1, if_pos ((atEnd_of_valid l []).mpr rfl)]
    simpa using hend
  | cons c r ih =>
    obtain ⟨hc, hr⟩ := not_or.mp (List.mem_cons.not.mp h)
    have hnext := ih (l ++ [c]) hr
    rw [List.append_assoc, List.singleton_append, utf8Len_append] at hnext
    have hget : Pos.Raw.get (ofList (l ++ c :: r)) ⟨utf8Len l⟩ = c := get_of_valid l (c :: r)
    have hdot : Pos.Raw.get "." 0 = '.' := rfl
    rw [splitOnAux.eq_1, if_neg (fun hend => nomatch (atEnd_of_valid l (c :: r)).mp hend), hget, hdot,
      if_neg (by simpa using Ne.symm hc)]
    refine Eq.trans (congrArg (fun i => splitOnAux _ "." 0 i 0 []) ?_) hnext
    simpa [Pos.Raw.unoffsetBy] using next_of_valid l c r

theorem splitOn_of_not_mem {s : String} (h : '.' ∉ s.toList) : s.splitOn "." = [s] := by
  have hall := splitOnAux_of_not_mem [] s.toList h
  rw [List.nil_append, ofList_toList] at hall
  rw [splitOn, if_neg (by decide)]
  exact hall

theorem dot_not_mem_capability (f : Feature) : '.' ∉ f.capability.toList := by
  cases f <;> decide

theorem get?_capability (c : ServerCapabilities) (f : Feature) :
    c.get? f.capability = Table.get? f.capability c.fields := by
  rw [ServerCapabilities.get?, splitOn_of_not_mem (dot_not_mem_capability f)]
  cases h : Table.get? f.capability c.fields with
  | none => simp [ServerCapabilities.toJson, Json.get?, h]
  | some v => simp [ServerCapabilities.toJson, Json.get?, h]

theorem isEnabled_iff {v : Json} : isEnabled v = true ↔ v ≠ .bool false ∧ v ≠ .null := by
  cases v with
  | bool b => cases b <;> simp [isEnabled]
  | _ => simp [isEnabled]

theorem advertises_capability_iff : advertises c f.capability = true ↔
    ∃ v, Table.get? f.capability c.fields = some v ∧ v ≠ .bool false ∧ v ≠ .null := by
  rw [advertises, get?_capability, Option.any_eq_true]
  simp only [isEnabled_iff]

end Path

section Queries

theorem ofMethod?_method (f : Feature) : Feature.ofMethod? f.method = some f := by
  cases f <;> decide

theorem supportsMethod_method (g : Gate) (f : Feature) : g.supportsMethod f.method = g.supports f := by
  rw [supportsMethod, ofMethod?_method]

theorem hasCapability_capability (g : Gate) (f : Feature) :
    g.hasCapability f.capability = g.supports f := by
  rw [hasCapability, ofCapability?_capability]
  rfl

theorem supports_eq_none_iff : g.supports f = none ↔ g.capabilities = none := by
  rw [supports, Option.map_eq_none_iff]

theorem isRegistered_foldl_note_iff (c? : Option ServerCapabilities) :
    Gate.isRegistered ⟨c?, notes.foldl note []⟩ f = true ↔ Offers notes f.method := by
  simp [isRegistered, offers_iff, mem_foldl_note]

theorem registeredSyncKind?_eq_some_iff : registeredSyncKind? r = some kind ↔ r.Declares kind := by
  rw [registeredSyncKind?, Registration.Declares]
  split
  next hmethod => simp [hmethod, Option.bind_eq_some_iff]
  next hmethod => simp [hmethod]

theorem findSome?_registeredSyncKind?_eq_none
    (hnone : ∀ r kind, Stands notes r → ¬ r.Declares kind) :
    (notes.foldl note []).findSome? registeredSyncKind? = none := by
  refine List.findSome?_eq_none_iff.mpr fun r hr => Option.eq_none_iff_forall_ne_some.mpr ?_
  intro kind hkind
  exact hnone r kind (mem_foldl_note.mp hr) (registeredSyncKind?_eq_some_iff.mp hkind)

theorem tells (c : ServerCapabilities) (notes : List Note) :
    Tells ⟨some c, notes.foldl note []⟩ c notes where
  feature f := ⟨_, rfl, by
    rw [Bool.or_eq_true, advertises_capability_iff, isRegistered_foldl_note_iff]⟩
  declared r kind hr hkind honly := by
    refine (honors_of_mem rfl (mem_foldl_note.mpr hr)).kind kind
      (registeredSyncKind?_eq_some_iff.mpr hkind) fun r' hr' hsome => ?_
    obtain ⟨kind', hkind'⟩ := Option.isSome_iff_exists.mp hsome
    exact honly r' kind' (mem_foldl_note.mp hr') (registeredSyncKind?_eq_some_iff.mp hkind')
  advertised hnone := by
    rw [syncKind, findSome?_registeredSyncKind?_eq_none hnone]
    rfl

/-- The three questions about a feature have one answer after any history: none while the server is
unheard of, and otherwise what the last answer and the registrations since then say. -/
theorem queries_agree (changes : List Change) :
    (∀ f : Feature, (unknown.run changes).supportsMethod f.method = (unknown.run changes).supports f ∧
      (unknown.run changes).hasCapability f.capability = (unknown.run changes).supports f) ∧
    (∀ f, (unknown.run changes).supports f = none ↔ Unheard changes) ∧
    (¬ Unheard changes → ∃ c since, LastAnswer changes c since ∧
      (unknown.run changes).Tells c (since.flatMap Change.notes)) := by
  refine ⟨fun f => ⟨supportsMethod_method _ f, hasCapability_capability _ f⟩, fun f => ?_,
    fun hheard => ?_⟩
  · rw [supports_eq_none_iff, capabilities_run_eq_none_iff]
  · obtain ⟨c, since, ⟨before, rfl⟩, hsince⟩ := (unheard_or_lastAnswer changes).resolve_left hheard
    refine ⟨c, since, ⟨⟨before, rfl⟩, hsince⟩, ?_⟩
    rw [run_of_set unknown before c hsince]
    exact tells c _

/-- An id that is used again for another request takes its feature away. -/
def reusedId : List Change :=
  [.register [⟨"1", "textDocument/rename", none⟩], .set ⟨[("textDocumentSync", .ofNat 1)]⟩,
    .register [⟨"1", "textDocument/hover", none⟩],
    .register [⟨"1", "textDocument/didChange", some (.object [("syncKind", .ofNat 2)])⟩]]

theorem queries_agree_of_reused_id : ¬ Unheard reusedId ∧ ∃ c since, LastAnswer reusedId c since ∧
    (unknown.run reusedId).Tells c (since.flatMap Change.notes) := by
  have hheard : ¬ Unheard reusedId := fun h => by
    cases supports_eq_none_iff.mp (((queries_agree reusedId).2.1 .hover).mpr h)
  exact ⟨hheard, (queries_agree reusedId).2.2 hheard⟩

end Queries

end Gate

end LanguageClient
