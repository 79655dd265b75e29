import LanguageClient.Capability.Gate

namespace LanguageClient.Gate

def Lacks (g : Gate) (id : String) : Prop :=
  ∀ r ∈ g.registered, r.id ≠ id

/-- A registration does what it is for: its feature is supported, by whatever name it is asked for, and
changes are sent the way it says unless another registration says something about that too. -/
structure Honors (g : Gate) (r : Registration) : Prop where
  method : g.supportsMethod r.method = some true
  feature : ∀ f : Feature, f.method = r.method →
    g.supports f = some true ∧ g.hasCapability f.capability = some true
  kind : ∀ kind, registeredSyncKind? r = some kind →
    (∀ r' ∈ g.registered, (registeredSyncKind? r').isSome → r' = r) → g.syncKind = some kind

variable {g : Gate} {r : Registration} {id : String}

section Register

theorem mem_registerOne {rs : List Registration} {r' : Registration} :
    r ∈ registerOne rs r' ↔ r ∈ rs ∧ r.id ≠ r'.id ∨ r = r' := by
  simp [registerOne]

theorem mem_register_of_mem {rs : List Registration} (h : r ∈ g.registered)
    (hids : ∀ r' ∈ rs, r'.id ≠ r.id) : r ∈ (g.register rs).registered := by
  rw [register]
  generalize g.registered = registered at h
  induction rs generalizing registered with
  | nil => exact h
  | cons r' rest ih =>
    refine ih (fun r'' hr'' => hids r'' (List.mem_cons_of_mem _ hr'')) _ ?_
    exact mem_registerOne.mpr (.inl ⟨h, (hids r' List.mem_cons_self).symm⟩)

theorem mem_register {earlier later : List Registration} (hlater : ∀ r' ∈ later, r'.id ≠ r.id) :
    r ∈ (g.register (earlier ++ r :: later)).registered := by
  have hsplit : g.register (earlier ++ r :: later) = ((g.register earlier).register [r]).register later := by
    simp [register]
  rw [hsplit]
  exact mem_register_of_mem (mem_registerOne.mpr (.inr rfl)) hlater

theorem Lacks.register {rs : List Registration} (h : g.Lacks id) (hids : ∀ r ∈ rs, r.id ≠ id) :
    (g.register rs).Lacks id := by
  rw [Lacks, Gate.register] at *
  generalize g.registered = registered at h
  induction rs generalizing registered with
  | nil => exact h
  | cons r rest ih =>
    refine ih (fun r' hr' => hids r' (List.mem_cons_of_mem _ hr')) _ fun r' hr' => ?_
    obtain ⟨hr', -⟩ | rfl := mem_registerOne.mp hr'
    · exact h r' hr'
    · exact hids r' List.mem_cons_self

theorem mem_unregister {us : List Unregistration} :
    r ∈ (g.unregister us).registered ↔ r ∈ g.registered ∧ ∀ u ∈ us, u.id ≠ r.id := by
  rw [unregister]
  generalize g.registered = registered
  induction us generalizing registered with
  | nil => simp
  | cons u rest ih =>
    rw [List.foldl_cons, ih]
    simp [and_assoc, ne_comm]

theorem Lacks.unregister (h : g.Lacks id) (us : List Unregistration) : (g.unregister us).Lacks id :=
  fun r hr => h r (mem_unregister.mp hr).1

end Register

section Advertises

theorem splitOnAux_ne_nil (s sep : String) (b i j : String.Pos.Raw) (parts : List String) :
    s.splitOnAux sep b i j parts ≠ [] := by
  fun_induction String.splitOnAux s sep b i j parts with
  | case1 => simp
  | _ => assumption

theorem splitOn_ne_nil (s sep : String) : s.splitOn sep ≠ [] := by
  rw [String.splitOn]
  split
  · exact List.cons_ne_nil _ _
  · exact splitOnAux_ne_nil s sep 0 0 0 []

theorem advertises_nothing (path : String) : advertises ⟨[]⟩ path = false := by
  rw [advertises, ServerCapabilities.get?]
  cases h : path.splitOn "." with
  | nil => exact absurd h (splitOn_ne_nil path ".")
  | cons key rest => rfl

end Advertises

section Honors

theorem method_of_ofMethod? {method : String} {f : Feature} (h : Feature.ofMethod? method = some f) :
    f.method = method := by
  rw [Feature.ofMethod?] at h
  exact eq_of_beq (List.find?_some h :)

theorem ofCapability?_capability (f : Feature) : Feature.ofCapability? f.capability = some f := by
  cases f <;> decide

theorem isRegistered_of_mem (hr : r ∈ g.registered) {f : Feature} (hf : f.method = r.method) :
    g.isRegistered f = true :=
  List.any_eq_true.mpr ⟨r, hr, beq_iff_eq.mpr hf.symm⟩

theorem honors_of_mem (hknown : g.isKnown = true) (hr : r ∈ g.registered) : g.Honors r := by
  obtain ⟨c, hc⟩ := Option.isSome_iff_exists.mp hknown
  have hsupports : ∀ f : Feature, f.method = r.method → g.supports f = some true := fun f hf => by
    rw [supports, hc, Option.map_some, isRegistered_of_mem hr hf, Bool.or_true]
  refine ⟨?_, fun f hf => ⟨hsupports f hf, ?_⟩, fun kind hkind honly => ?_⟩
  · rw [supportsMethod]
    cases hmethod : Feature.ofMethod? r.method with
    | none => exact if_pos hknown
    | some f => exact hsupports f (method_of_ofMethod? hmethod)
  · rw [hasCapability, hc, Option.map_some, ofCapability?_capability, Option.any_some,
      isRegistered_of_mem hr hf, Bool.or_true]
  · have hfound : g.registered.findSome? registeredSyncKind? = some kind := by
      cases hfind : g.registered.findSome? registeredSyncKind? with
      | none => cases (List.findSome?_eq_none_iff.mp hfind r hr).symm.trans hkind
      | some kind' =>
        obtain ⟨r', hr', hkind'⟩ := List.exists_of_findSome?_eq_some hfind
        rw [honly r' hr' (Option.isSome_iff_exists.mpr ⟨_, hkind'⟩)] at hkind'
        exact hkind'.symm.trans hkind
    rw [syncKind, hc, Option.map_some, hfound]
    rfl

end Honors

end LanguageClient.Gate
