import LanguageClient.Text.Edit
import LanguageClient.Text.Utf8

namespace LanguageClient

theorem exists_of_bind_eq_ok {ε α β : Type} {x : Except ε α} {f : α → Except ε β} {b : β}
    (h : x >>= f = .ok b) : ∃ a, x = .ok a ∧ f a = .ok b := by
  cases x with
  | error e => cases h
  | ok a => exact ⟨a, rfl, h⟩

namespace Text

def bytes (text : String) : List UInt8 :=
  Utf8.encode text.toList

@[simp] theorem length_encode (cs : List Char) : (Utf8.encode cs).length = byteLength cs := by
  induction cs with
  | nil => rfl
  | cons c cs ih => simp_all [Utf8.encode, String.length_utf8EncodeChar]

@[simp] theorem length_bytes (text : String) : (bytes text).length = size text :=
  length_encode text.toList

@[simp] theorem encode_append (a b : List Char) :
    Utf8.encode (a ++ b) = Utf8.encode a ++ Utf8.encode b := by
  simp [Utf8.encode]

theorem eq_nil_of_byteLength {cs : List Char} (h : byteLength cs = 0) : cs = [] := by
  cases cs with
  | nil => rfl
  | cons c cs =>
    have := c.utf8Size_pos
    simp only [byteLength_cons] at h
    omega

theorem cut?_eq_some_iff {n : Nat} {cs before after : List Char} :
    cut? n cs = some (before, after) ↔ cs = before ++ after ∧ byteLength before = n := by
  fun_induction cut? n cs generalizing before with
  | case1 cs =>
    constructor
    · intro h
      cases h
      exact ⟨rfl, rfl⟩
    · rintro ⟨rfl, h⟩
      simp [eq_nil_of_byteLength h]
  | case2 n =>
    constructor
    · intro h
      cases h
    · rintro ⟨h, hlen⟩
      simp_all
  | case3 n c cs hle ih =>
    constructor
    · intro h
      obtain ⟨⟨p, q⟩, hp, heq⟩ := Option.map_eq_some_iff.mp h
      cases heq
      obtain ⟨rfl, hlen⟩ := ih.mp hp
      exact ⟨rfl, by simp only [byteLength_cons]; omega⟩
    · rintro ⟨h, hlen⟩
      cases before with
      | nil => simp at hlen
      | cons b before =>
        obtain ⟨rfl, rfl⟩ := List.cons.inj h
        simp only [byteLength_cons] at hlen
        exact Option.map_eq_some_iff.mpr ⟨(before, after), ih.mpr ⟨rfl, by omega⟩, rfl⟩
  | case4 n c cs hlt =>
    constructor
    · intro h
      cases h
    · rintro ⟨h, hlen⟩
      cases before with
      | nil => simp at hlen
      | cons b before =>
        obtain ⟨rfl, rfl⟩ := List.cons.inj h
        simp only [byteLength_cons] at hlen
        omega

theorem exists_of_append_eq {a a' b b' : List Char} (h : a ++ a' = b ++ b')
    (hle : byteLength a ≤ byteLength b) : ∃ c, b = a ++ c ∧ a' = c ++ b' := by
  obtain ⟨c, hb, ha'⟩ | ⟨c, ha, hb'⟩ := List.append_eq_append_iff.mp h
  · exact ⟨c, hb, ha'⟩
  · have hc : c = [] := by
      apply eq_nil_of_byteLength
      rw [ha, byteLength_append] at hle
      omega
    rw [hc, List.append_nil] at ha
    exact ⟨[], by rw [ha, List.append_nil], by rw [hb', hc]; rfl⟩

end Text

namespace Edit

open Text (byteLength bytes)

theorem splice?_eq_some_iff {e : Edit} {cs cs' : List Char} :
    e.splice? cs = some cs' ↔
      ∃ before removed after, cs = before ++ removed ++ after ∧ byteLength before = e.start ∧
        byteLength removed = e.stop - e.start ∧ cs' = before ++ e.insert.toList ++ after := by
  simp only [splice?, Option.bind_eq_bind, Option.bind_eq_some_iff, Prod.exists]
  constructor
  · rintro ⟨before, rest, hbefore, removed, after, hremoved, h⟩
    obtain ⟨rfl, hstart⟩ := Text.cut?_eq_some_iff.mp hbefore
    obtain ⟨rfl, hlen⟩ := Text.cut?_eq_some_iff.mp hremoved
    exact ⟨before, removed, after, by simp, hstart, hlen, (Option.some.inj h).symm⟩
  · rintro ⟨before, removed, after, rfl, hstart, hlen, rfl⟩
    refine ⟨before, removed ++ after, Text.cut?_eq_some_iff.mpr ⟨by simp, hstart⟩, removed, after,
      Text.cut?_eq_some_iff.mpr ⟨rfl, hlen⟩, rfl⟩

theorem apply_eq_ok_iff {e : Edit} {text text' : String} :
    e.apply text = .ok text' ↔
      ∃ before removed after, text.toList = before ++ removed ++ after ∧
        byteLength before = e.start ∧ byteLength before + byteLength removed = e.stop ∧
        text' = String.ofList (before ++ e.insert.toList ++ after) := by
  constructor
  · intro h
    unfold apply at h
    split at h
    next => cases h
    next hle =>
      split at h
      next => cases h
      next hstop =>
        split at h
        next cs hcs =>
          obtain ⟨before, removed, after, htext, hstart, hlen, rfl⟩ := splice?_eq_some_iff.mp hcs
          exact ⟨before, removed, after, htext, hstart, by omega, (Except.ok.inj h).symm⟩
        next => cases h
  · rintro ⟨before, removed, after, htext, hstart, hstop, rfl⟩
    have hsize : Text.size text = byteLength before + byteLength removed + byteLength after := by
      simp [Text.size, htext, Nat.add_assoc]
    have hsplice : e.splice? text.toList = some (before ++ e.insert.toList ++ after) :=
      splice?_eq_some_iff.mpr ⟨before, removed, after, htext, hstart, by omega, rfl⟩
    rw [apply, if_neg (by omega), if_neg (by omega), hsplice]

theorem exists_of_applyAll_cons {e : Edit} {rest : List Edit} {text text' : String}
    (h : applyAll (e :: rest) text = .ok text') :
    ∃ next, e.apply text = .ok next ∧ applyAll rest next = .ok text' := by
  rw [applyAll, List.foldlM_cons] at h
  exact exists_of_bind_eq_ok h

section Apply

variable {e : Edit} {text text' : String} (h : e.apply text = .ok text')
include h

theorem bounds_of_apply : e.start ≤ e.stop ∧ e.stop ≤ Text.size text := by
  obtain ⟨before, removed, after, htext, hstart, hstop, -⟩ := apply_eq_ok_iff.mp h
  simp [Text.size, htext]
  omega

theorem bytes_of_apply :
    bytes text' = (bytes text).take e.start ++ bytes e.insert ++ (bytes text).drop e.stop := by
  obtain ⟨before, removed, after, htext, hstart, hstop, rfl⟩ := apply_eq_ok_iff.mp h
  simp [bytes, htext, ← hstart, ← hstop, List.drop_append]

theorem size_of_apply :
    Text.size text' = e.start + Text.size e.insert + (Text.size text - e.stop) := by
  have := bounds_of_apply h
  rw [← Text.length_bytes, bytes_of_apply h]
  simp
  omega

end Apply

end Edit

end LanguageClient
