import LanguageClient.Json.Record
import LanguageClient.Proofs.Table
import Mathlib.Data.List.Nodup

namespace LanguageClient

namespace Table

variable {κ α : Type} [DecidableEq κ]

theorem get?_eq_some_iff {t : Table κ α} (ht : (keys t).Nodup) {k : κ} {v : α} :
    get? k t = some v ↔ (k, v) ∈ t := by
  refine ⟨mem_of_get?, fun h => ?_⟩
  induction t with
  | nil => cases h
  | cons e rest ih =>
    obtain ⟨hfresh, hrest⟩ := List.nodup_cons.mp ht
    cases h with
    | head => simp [get?]
    | tail _ h =>
      have hne : e.1 ≠ k := fun heq => hfresh (heq ▸ List.mem_map_of_mem h)
      rw [get?, if_neg hne]
      exact ih hrest h

theorem get?_reverse {t : Table κ α} (ht : (keys t).Nodup) (k : κ) :
    get? k t.reverse = get? k t := by
  have hreverse : (keys t.reverse).Nodup := by
    rw [keys, List.map_reverse, List.nodup_reverse]
    exact ht
  refine Option.ext fun v => ?_
  rw [get?_eq_some_iff hreverse, get?_eq_some_iff ht, List.mem_reverse]

theorem get?_ofEntries_of_nodup [LT κ] [DecidableLT κ] {t : Table κ α} (ht : (keys t).Nodup) (k : κ) :
    get? k (ofEntries t) = get? k t := by
  rw [get?_ofEntries, get?_reverse ht]

def present (t : Table κ (Option α)) : Table κ α :=
  t.filterMap fun e => e.2.map (e.1, ·)

omit [DecidableEq κ] in
theorem keys_present_sublist (t : Table κ (Option α)) : (keys t.present).Sublist (keys t) := by
  induction t with
  | nil => exact .slnil
  | cons e rest ih =>
    obtain ⟨k, o⟩ := e
    cases o with
    | none => exact ih.cons k
    | some v => exact ih.cons_cons k

theorem get?_present {t : Table κ (Option α)} (ht : (keys t).Nodup) (k : κ) :
    get? k t.present = (get? k t).join := by
  refine Option.ext fun v => ?_
  rw [get?_eq_some_iff (ht.sublist t.keys_present_sublist), Option.join_eq_some_iff,
    get?_eq_some_iff ht]
  simp [present]

end Table

namespace Json

variable {α : Type} {decode : Json → Option α} {encode : α → Json}

def nonNull (v? : Option Json) : Option Json :=
  v?.filter (· ≠ null)

@[simp] theorem nonNull_none : nonNull none = none := rfl

@[simp] theorem nonNull_null : nonNull (some null) = none := rfl

theorem nonNull_of_ne {v : Json} (h : v ≠ null) : nonNull (some v) = some v :=
  Option.filter_some_pos (decide_eq_true h)

@[simp] theorem nonNull_nonNull (v? : Option Json) : nonNull (nonNull v?) = nonNull v? := by
  rw [nonNull, nonNull, Option.filter_filter]
  simp

theorem ofPresent_ne_null (fields : List (String × Option Json)) : ofPresent fields ≠ null :=
  Json.noConfusion

/-- What was read is read again from what is written for it, and that is not null. -/
structure Tidies (decode : Json → Option α) (encode : α → Json) : Prop where
  again : ∀ {v a}, decode v = some a → decode (encode a) = some a
  present : ∀ {v a}, decode v = some a → encode a ≠ null

namespace Record

variable {r : Record} {name : String} {a : α} {o : Option α}

theorem need_eq_some_iff : r.need name decode = some a ↔
    ∃ v, Table.get? name r = some v ∧ decode v = some a :=
  Option.bind_eq_some_iff

theorem optional_of_get? {v? : Option Json} (h : Table.get? name r = v?) :
    r.optional name decode = (nonNull v?).elim (some none) fun v => (decode v).map some := by
  rw [optional, h]
  cases v? with
  | none => rfl
  | some v => cases v <;> rfl

theorem optional_any : r.optional name any? = some (nonNull (Table.get? name r)) := by
  rw [optional_of_get? rfl]
  cases nonNull (Table.get? name r) <;> rfl

theorem optional_map {β : Type} {o : Option β} {encode : β → Json} (f : β → α)
    (hname : Table.get? name r = o.map encode)
    (h : ∀ b ∈ o, decode (encode b) = some (f b) ∧ encode b ≠ null) :
    r.optional name decode = some (o.map f) := by
  rw [optional_of_get? hname]
  cases o with
  | none => rfl
  | some b =>
    obtain ⟨hread, hpresent⟩ := h b rfl
    rw [Option.map_some, nonNull_of_ne hpresent, Option.elim_some, hread, Option.map_some,
      Option.map_some]

theorem optional_of_map (hname : Table.get? name r = o.map encode)
    (h : ∀ a ∈ o, decode (encode a) = some a ∧ encode a ≠ null) : r.optional name decode = some o := by
  rw [optional_map id hname h, Option.map_id]
  rfl

theorem optional_of_elim (hname : Table.get? name r = some (o.elim null encode))
    (h : ∀ a ∈ o, decode (encode a) = some a ∧ encode a ≠ null) : r.optional name decode = some o := by
  rw [optional_of_get? hname]
  cases o with
  | none => rfl
  | some a =>
    obtain ⟨hagain, hpresent⟩ := h a rfl
    rw [Option.elim_some, nonNull_of_ne hpresent, Option.elim_some, hagain, Option.map_some]

end Record

theorem get?_ofPresent {fields : Table String (Option Json)} (h : (Table.keys fields).Nodup)
    (name : String) : (ofPresent fields).get? name = (Table.get? name fields).join :=
  (Table.get?_ofEntries_of_nodup (h.sublist fields.keys_present_sublist) name).trans
    (Table.get?_present h name)

section Tidies

variable {r : Record} {name : String} {a : α} {o : Option α}

theorem record?_ofPresent {β : Type} {names : List Field} {fields : Table String (Option Json)}
    {next : Record → Option β} {b : β} (h : (Table.keys fields).Nodup)
    (hnext : ∀ r : Record, (∀ name, Table.get? name r = (Table.get? name fields).join) →
      next r = some b) : (record? names (.ofPresent fields)).bind next = some b :=
  hnext (Table.ofEntries fields.present) (get?_ofPresent h)

theorem Tidies.of_present {names : List Field} {fields : α → Table String (Option Json)}
    {next : Record → Option α} (hnames : ∀ a, (Table.keys (fields a)).Nodup)
    (hnext : ∀ r a, next r = some a → ∀ r' : Record,
      (∀ name, Table.get? name r' = (Table.get? name (fields a)).join) → next r' = some a) :
    Tidies (fun v => (record? names v).bind next) fun a => .ofPresent (fields a) where
  again {v a} h := by
    obtain ⟨r, -, hr⟩ := Option.bind_eq_some_iff.mp h
    exact record?_ofPresent (hnames a) (hnext r a hr)
  present _ := nofun

theorem Tidies.of_fields {names : List Field} {fields : α → Table String Json}
    {next : Record → Option α} (hnames : ∀ a, (Table.keys (fields a)).Nodup)
    (hnext : ∀ r a, next r = some a → ∀ r' : Record,
      (∀ name, Table.get? name r' = Table.get? name (fields a)) → next r' = some a) :
    Tidies (fun v => (record? names v).bind next) fun a => .ofFields (fields a) where
  again {v a} h := by
    obtain ⟨r, -, hr⟩ := Option.bind_eq_some_iff.mp h
    exact hnext r a hr (Table.ofEntries (fields a)) (Table.get?_ofEntries_of_nodup (hnames a))
  present _ := nofun

theorem Tidies.need (ht : Tidies decode encode) (h : r.need name decode = some a) :
    decode (encode a) = some a := by
  obtain ⟨v, -, hv⟩ := Record.need_eq_some_iff.mp h
  exact ht.again hv

theorem Tidies.optional (ht : Tidies decode encode) (h : r.optional name decode = some o) :
    ∀ a ∈ o, decode (encode a) = some a ∧ encode a ≠ null := by
  rintro a rfl
  rw [Record.optional_of_get? rfl] at h
  cases hv : nonNull (Table.get? name r) with
  | none =>
    rw [hv] at h
    cases h
  | some v =>
    rw [hv] at h
    obtain ⟨a', ha', heq⟩ := Option.map_eq_some_iff.mp h
    cases heq
    exact ⟨ht.again ha', ht.present ha'⟩

theorem string_tidies : Tidies string? string where
  again _ := rfl
  present _ := nofun

theorem natural_tidies (bound : Nat) : Tidies (natural? bound) ofNat where
  again {v n} h := by
    cases v with
    | integer i =>
      cases i with
      | ofNat n' =>
        obtain ⟨hlt, heq⟩ := Option.ite_none_right_eq_some.mp h
        cases heq
        exact if_pos hlt
      | negSucc n' => cases h
    | _ => cases h
  present _ := nofun

theorem signed32_tidies : Tidies signed32? integer where
  again {v n} h := by
    cases v with
    | integer n' =>
      obtain ⟨hbounds, heq⟩ := Option.ite_none_right_eq_some.mp h
      cases heq
      exact if_pos hbounds
    | _ => cases h
  present _ := nofun

theorem list_tidies (ht : Tidies decode encode) :
    Tidies (list? decode) fun as => array (as.map encode) where
  again {v as} h := by
    cases v with
    | array items =>
      change items.mapM decode = some as at h
      change (as.map encode).mapM decode = some as
      induction items generalizing as with
      | nil =>
        cases h
        rfl
      | cons item items ih =>
        simp only [List.mapM_cons, Option.bind_eq_bind, Option.bind_eq_some_iff, Option.pure_def,
          Option.some.injEq] at h
        obtain ⟨a, ha, as, has, rfl⟩ := h
        simp [ht.again ha, ih has]
    | _ => cases h
  present _ := nofun

end Tidies

end Json

end LanguageClient
