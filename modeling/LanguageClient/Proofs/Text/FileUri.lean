import LanguageClient.Proofs.Text.Bytes
import LanguageClient.Proofs.Text.Utf8
import LanguageClient.Text.FileUri

namespace LanguageClient.FileUri

def Unreserved (c : Char) : Prop :=
  ('A' ≤ c ∧ c ≤ 'Z') ∨ ('a' ≤ c ∧ c ≤ 'z') ∨ ('0' ≤ c ∧ c ≤ '9') ∨
    c ∈ ['/', '.', '-', '_', '~']

def hexDigits : List Char :=
  "0123456789ABCDEF".toList

/-- A name, made only of unreserved characters and of percent signs with two digits, and its bytes. -/
inductive Spells : List Char → List UInt8 → Prop
  | nil : Spells [] []
  | plain {c : Char} {name : List Char} {bytes : List UInt8} (hc : Unreserved c)
      (hrest : Spells name bytes) : Spells (c :: name) (.ofNat c.toNat :: bytes)
  | escaped {h l : Char} {high low : Nat} {name : List Char} {bytes : List UInt8}
      (hhigh : hexDigits[high]? = some h) (hlow : hexDigits[low]? = some l)
      (hrest : Spells name bytes) : Spells ('%' :: h :: l :: name) (.ofNat (16 * high + low) :: bytes)

section Characters

variable {c : Char} {n : Nat}

theorem isPlain_iff_unreserved : isPlain c ↔ Unreserved c := by
  have halphanum : c.isAlphanum = (c.isUpper || c.isLower || c.isDigit) := rfl
  have hupper : c.isUpper ↔ 'A' ≤ c ∧ c ≤ 'Z' := decide_eq_true_iff
  have hlower : c.isLower ↔ 'a' ≤ c ∧ c ≤ 'z' :=
    Bool.and_eq_true_iff.trans (and_congr decide_eq_true_iff decide_eq_true_iff)
  have hdigit : c.isDigit ↔ '0' ≤ c ∧ c ≤ '9' := Char.isDigit_iff_toNat
  simp only [isPlain, Unreserved, halphanum, hupper, hlower, hdigit, Bool.or_eq_true, beq_iff_eq,
    List.mem_cons, List.not_mem_nil, or_false, or_assoc]

theorem lt_of_unreserved (h : Unreserved c) : c.toNat < 0x80 := by
  obtain ⟨-, hle⟩ | ⟨-, hle⟩ | ⟨-, hle⟩ | hmem := h
  · exact Nat.lt_of_le_of_lt hle (by decide)
  · exact Nat.lt_of_le_of_lt hle (by decide)
  · exact Nat.lt_of_le_of_lt hle (by decide)
  · simp only [List.mem_cons, List.not_mem_nil, or_false] at hmem
    rcases hmem with rfl | rfl | rfl | rfl | rfl <;> decide

theorem ne_percent_of_isPlain (h : isPlain c) : c ≠ '%' := by
  rintro rfl
  exact absurd h (by decide)

theorem getElem?_hexDigits (hn : n < 16) : hexDigits[n]? = some (hexDigit n) := by
  have hplace : ∀ n < 16, hexDigits[n]? = some (hexDigit n) := by decide +kernel
  exact hplace n hn

theorem hexValue?_hexDigit (hn : n < 16) : hexValue? (hexDigit n) = some n := by
  have hvalue : ∀ n < 16, hexValue? (hexDigit n) = some n := by decide +kernel
  exact hvalue n hn

theorem hexDigit_of_hexValue? (h : hexValue? c = some n) : n < 16 ∧ hexDigit n = c := by
  unfold hexValue? at h
  split at h
  next hdigit =>
    obtain ⟨hlow, hhigh⟩ : 48 ≤ c.toNat ∧ c.toNat ≤ 57 := Char.isDigit_iff_toNat.mp hdigit
    obtain rfl := Option.some.inj h
    refine ⟨by omega, ?_⟩
    rw [hexDigit, if_pos (by omega), Nat.add_sub_cancel' hlow, Char.ofNat_toNat]
  next =>
    split at h
    next hletter =>
      rw [Bool.and_eq_true, decide_eq_true_eq, decide_eq_true_eq] at hletter
      obtain ⟨hlow, hhigh⟩ : 65 ≤ c.toNat ∧ c.toNat ≤ 70 := hletter
      obtain rfl := Option.some.inj h
      refine ⟨by omega, ?_⟩
      rw [hexDigit, if_neg (by omega), Nat.add_sub_cancel' (by omega), Char.ofNat_toNat]
    next => cases h

theorem hexValue?_eq_some_iff : hexValue? c = some n ↔ hexDigits[n]? = some c := by
  constructor
  · intro h
    obtain ⟨hn, rfl⟩ := hexDigit_of_hexValue? h
    exact getElem?_hexDigits hn
  · intro h
    obtain ⟨hn, -⟩ := List.getElem?_eq_some_iff.mp h
    rw [getElem?_hexDigits hn] at h
    rw [← Option.some.inj h, hexValue?_hexDigit hn]

end Characters

section Spelling

variable {name name' : List Char} {bytes bytes' : List UInt8}

theorem Spells.append (h : Spells name bytes) (h' : Spells name' bytes') :
    Spells (name ++ name') (bytes ++ bytes') := by
  induction h with
  | nil => exact h'
  | plain hc hrest ih => exact .plain hc ih
  | escaped hhigh hlow hrest ih => exact .escaped hhigh hlow ih

theorem decode?_cons {c : Char} (hc : c ≠ '%') :
    decode? (c :: name) =
      if isPlain c then (decode? name).map (c.toNat.toUInt8 :: ·) else none := by
  rw [decode?]
  rintro h l rest rfl
  exact absurd rfl hc

theorem decode?_eq_some_iff : decode? name = some bytes ↔ Spells name bytes := by
  constructor
  · intro h
    fun_induction decode? name generalizing bytes with
    | case1 =>
      cases h
      exact .nil
    | case2 h l rest ih =>
      simp only [Option.bind_eq_bind, Option.bind_eq_some_iff, Option.pure_def,
        Option.some.injEq] at h
      obtain ⟨high, hhigh, low, hlow, bytes', hrest, rfl⟩ := h
      exact .escaped (hexValue?_eq_some_iff.mp hhigh) (hexValue?_eq_some_iff.mp hlow) (ih hrest)
    | case3 c rest hform hplain ih =>
      obtain ⟨bytes', hrest, rfl⟩ := Option.map_eq_some_iff.mp h
      exact .plain (isPlain_iff_unreserved.mp hplain) (ih hrest)
    | case4 => cases h
  · intro h
    induction h with
    | nil => rfl
    | @plain c name bytes hc hrest ih =>
      have hplain := isPlain_iff_unreserved.mpr hc
      rw [decode?_cons (ne_percent_of_isPlain hplain), if_pos hplain, ih]
      rfl
    | @escaped h l high low name bytes hhigh hlow hrest ih =>
      simp [decode?, hexValue?_eq_some_iff.mpr hhigh, hexValue?_eq_some_iff.mpr hlow, ih]

theorem spells_escapeByte (b : UInt8) : Spells (escapeByte b) [b] := by
  have hb := b.toNat_lt
  have hbyte : b = .ofNat (16 * (b.toNat / 16) + b.toNat % 16) := by
    rw [Nat.div_add_mod, UInt8.ofNat_toNat]
  have h := Spells.escaped (getElem?_hexDigits (n := b.toNat / 16) (by omega))
    (getElem?_hexDigits (n := b.toNat % 16) (by omega)) .nil
  rwa [← hbyte] at h

theorem spells_escapeBytes (bytes : List UInt8) : Spells (bytes.flatMap escapeByte) bytes := by
  induction bytes with
  | nil => exact .nil
  | cons b bytes ih => exact (spells_escapeByte b).append ih

theorem encodeChar_of_unreserved {c : Char} (h : Unreserved c) :
    String.utf8EncodeChar c = [.ofNat c.toNat] := by
  have hbytes := (Utf8.Sequence.one (lt_of_unreserved h)).encodeChar
  rwa [Char.ofNat_toNat] at hbytes

theorem spells_escape (c : Char) : Spells (escape c) (String.utf8EncodeChar c) := by
  unfold escape
  split
  next hplain =>
    have hunreserved := isPlain_iff_unreserved.mp hplain
    rw [encodeChar_of_unreserved hunreserved]
    exact .plain hunreserved .nil
  next => exact spells_escapeBytes _

theorem spells_encode (path : List Char) : Spells (encode path) (Utf8.encode path) := by
  induction path with
  | nil => exact .nil
  | cons c path ih => exact (spells_escape c).append ih

end Spelling

@[simp] theorem decode?_encode (path : List Char) : decode? (encode path) = some (Utf8.encode path) :=
  decode?_eq_some_iff.mpr (spells_encode path)

theorem encode_injective : Function.Injective encode := by
  intro path path' h
  have hdecode := decode?_encode path
  rw [h, decode?_encode] at hdecode
  exact (Utf8.encode_injective (Option.some.inj hdecode)).symm

theorem ofPath_inj {path path' : String} : ofPath path = ofPath path' ↔ path = path' := by
  constructor
  · intro h
    have hlist := congrArg String.toList h
    simp only [ofPath, String.toList_append, String.toList_ofList] at hlist
    exact String.toList_inj.mp (encode_injective (List.append_cancel_left hlist))
  · intro h
    rw [h]

/-- Behind `file://` the name of a file is made only of unreserved characters and escaped bytes, and it
spells the bytes of the path. So it is the name of no other path. -/
theorem name_spells_path (path : String) :
    (∃ name, ofPath path = "file://" ++ String.ofList name ∧ Spells name (Text.bytes path) ∧
        decode? name = some (Text.bytes path)) ∧
      ∀ other, ofPath other = ofPath path ↔ other = path := by
  refine ⟨⟨encode path.toList, rfl, ?_, ?_⟩, fun other => ofPath_inj⟩
  · exact spells_encode path.toList
  · exact decode?_encode path.toList

example : ofPath "/work/50% é.rs" = "file:///work/50%25%20%C3%A9.rs" := by decide

end LanguageClient.FileUri
