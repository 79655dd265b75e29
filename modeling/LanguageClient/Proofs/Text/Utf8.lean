import LanguageClient.Text.Utf8
import Mathlib.Tactic.IntervalCases

namespace LanguageClient.Utf8

/-- The bytes of a character, by their shape, and its number. -/
inductive Sequence : List UInt8 → Nat → Prop
  | one {w : Nat} (hw : w < 0x80) : Sequence [.ofNat w] w
  | two {w x : Nat} (hw : w < 0x20) (hx : x < 0x40) (hlong : 2 ≤ w) :
      Sequence [.ofNat (w + 0xC0), .ofNat (x + 0x80)] (64 * w + x)
  | three {w x y : Nat} (hw : w < 0x10) (hx : x < 0x40) (hy : y < 0x40) (hlong : w = 0 → 0x20 ≤ x)
      (hsurrogate : w = 13 → x < 0x20) :
      Sequence [.ofNat (w + 0xE0), .ofNat (x + 0x80), .ofNat (y + 0x80)] (64 * (64 * w + x) + y)
  | four {w x y z : Nat} (hw : w < 5) (hx : x < 0x40) (hy : y < 0x40) (hz : z < 0x40)
      (hlong : w = 0 → 0x10 ≤ x) (hlast : w = 4 → x < 0x10) :
      Sequence [.ofNat (w + 0xF0), .ofNat (x + 0x80), .ofNat (y + 0x80), .ofNat (z + 0x80)]
        (64 * (64 * (64 * w + x) + y) + z)

section Byte

variable {n : Nat}

theorem toNat_ofNat (h : n < 256) : (UInt8.ofNat n).toNat = n := by
  rw [UInt8.toNat_ofNat', Nat.mod_eq_of_lt h]

theorem eq_ofNat {b : UInt8} {k : Nat} (h : k ≤ b.toNat) : b = .ofNat (b.toNat - k + k) := by
  rw [Nat.sub_add_cancel h, UInt8.ofNat_toNat]

theorem encodeChar_ofNat (hn : n.isValidChar) :
    String.utf8EncodeChar (Char.ofNat n) =
      if n ≤ 0x7F then [.ofNat n]
      else if n ≤ 0x7FF then [.ofNat (n / 64 % 32 + 192), .ofNat (n % 64 + 128)]
      else if n ≤ 0xFFFF then
        [.ofNat (n / 4096 % 16 + 224), .ofNat (n / 64 % 64 + 128), .ofNat (n % 64 + 128)]
      else
        [.ofNat (n / 262144 % 8 + 240), .ofNat (n / 4096 % 64 + 128), .ofNat (n / 64 % 64 + 128),
          .ofNat (n % 64 + 128)] := by
  have hval : (Char.ofNat n).val.toNat = n :=
    congrArg (fun c : Char => c.val.toNat) (dif_pos hn)
  rw [String.utf8EncodeChar, hval]

end Byte

namespace Sequence

variable {bytes : List UInt8} {n : Nat}

theorem isValidChar (h : Sequence bytes n) : n.isValidChar := by
  cases h with
  | one => exact .inl (by omega)
  | two => exact .inl (by omega)
  | three => unfold Nat.isValidChar; omega
  | four => exact .inr (by omega)

theorem not_mem_of_ne (h : Sequence bytes n) {b : Nat} (hb : b < 0x80) (hne : n ≠ b) :
    UInt8.ofNat b ∉ bytes := by
  have hother : ∀ k < 256, k ≠ b → UInt8.ofNat b ≠ .ofNat k := by
    intro k hk hkb heq
    have hnat := congrArg UInt8.toNat heq
    rw [toNat_ofNat (by omega), toNat_ofNat hk] at hnat
    exact hkb hnat.symm
  cases h with
  | one hw =>
    simp only [List.mem_singleton]
    exact hother n (by omega) hne
  | two hw hx hlong =>
    simp only [List.mem_cons, List.not_mem_nil, or_false, not_or]
    exact ⟨hother _ (by omega) (by omega), hother _ (by omega) (by omega)⟩
  | three hw hx hy hlong hsurrogate =>
    simp only [List.mem_cons, List.not_mem_nil, or_false, not_or]
    exact ⟨hother _ (by omega) (by omega), hother _ (by omega) (by omega),
      hother _ (by omega) (by omega)⟩
  | four hw hx hy hz hlong hlast =>
    simp only [List.mem_cons, List.not_mem_nil, or_false, not_or]
    exact ⟨hother _ (by omega) (by omega), hother _ (by omega) (by omega),
      hother _ (by omega) (by omega), hother _ (by omega) (by omega)⟩

theorem encodeChar (h : Sequence bytes n) : String.utf8EncodeChar (Char.ofNat n) = bytes := by
  rw [encodeChar_ofNat h.isValidChar]
  cases h with
  | one => rw [if_pos (by omega)]
  | @two w x hw hx hlong =>
    have hfirst : (64 * w + x) / 64 % 32 = w := by omega
    have hsecond : (64 * w + x) % 64 = x := by omega
    rw [if_neg (by omega), if_pos (by omega), hfirst, hsecond]
  | @three w x y hw hx hy hlong hsurrogate =>
    have hfirst : (64 * (64 * w + x) + y) / 4096 % 16 = w := by omega
    have hsecond : (64 * (64 * w + x) + y) / 64 % 64 = x := by omega
    have hthird : (64 * (64 * w + x) + y) % 64 = y := by omega
    rw [if_neg (by omega), if_neg (by omega), if_pos (by omega), hfirst, hsecond, hthird]
  | @four w x y z hw hx hy hz hlong hlast =>
    have hfirst : (64 * (64 * (64 * w + x) + y) + z) / 262144 % 8 = w := by omega
    have hsecond : (64 * (64 * (64 * w + x) + y) + z) / 4096 % 64 = x := by omega
    have hthird : (64 * (64 * (64 * w + x) + y) + z) / 64 % 64 = y := by omega
    have hfourth : (64 * (64 * (64 * w + x) + y) + z) % 64 = z := by omega
    rw [if_neg (by omega), if_neg (by omega), if_neg (by omega), hfirst, hsecond, hthird, hfourth]

end Sequence

theorem exists_sequence_of_isValidChar {n : Nat} (hn : n.isValidChar) :
    ∃ bytes, Sequence bytes n := by
  unfold Nat.isValidChar at hn
  by_cases hone : n < 0x80
  · exact ⟨_, .one hone⟩
  · by_cases htwo : n < 0x800
    · have h := Sequence.two (w := n / 64) (x := n % 64) (by omega) (by omega) (by omega)
      rw [show 64 * (n / 64) + n % 64 = n by omega] at h
      exact ⟨_, h⟩
    · by_cases hthree : n < 0x10000
      · have h := Sequence.three (w := n / 4096) (x := n / 64 % 64) (y := n % 64) (by omega) (by omega)
          (by omega) (by omega) (by omega)
        rw [show 64 * (64 * (n / 4096) + n / 64 % 64) + n % 64 = n by omega] at h
        exact ⟨_, h⟩
      · have h := Sequence.four (w := n / 262144) (x := n / 4096 % 64) (y := n / 64 % 64) (z := n % 64)
          (by omega) (by omega) (by omega) (by omega) (by omega) (by omega)
        rw [show 64 * (64 * (64 * (n / 262144) + n / 4096 % 64) + n / 64 % 64) + n % 64 = n by omega]
          at h
        exact ⟨_, h⟩

theorem sequence_encodeChar (c : Char) : Sequence (String.utf8EncodeChar c) c.toNat := by
  obtain ⟨bytes, h⟩ := exists_sequence_of_isValidChar c.valid
  have hbytes : String.utf8EncodeChar (Char.ofNat c.toNat) = bytes := h.encodeChar
  rw [Char.ofNat_toNat] at hbytes
  exact hbytes ▸ h

section Begin

variable {i b w : Nat}

theorem begin?_two (hw : w < 0x20) (hlong : 2 ≤ w) :
    begin? i (w + 0xC0) = some ⟨i, 1, 1, 0x80, 0xBF, w⟩ := by
  rw [begin?, if_neg (by omega), if_pos (by omega), Nat.add_sub_cancel]

theorem begin?_three (hw : w < 0x10) :
    begin? i (w + 0xE0) = some ⟨i, 1, 2, if w = 0 then 0xA0 else 0x80,
      if w = 13 then 0x9F else 0xBF, w⟩ := by
  interval_cases w <;> rfl

theorem begin?_four (hw : w < 5) :
    begin? i (w + 0xF0) = some ⟨i, 1, 3, if w = 0 then 0x90 else 0x80,
      if w = 4 then 0x8F else 0xBF, w⟩ := by
  interval_cases w <;> rfl

theorem bounds_of_begin? {p : Begun} (h : begin? i b = some p) : 0xC2 ≤ b ∧ b ≤ 0xF4 := by
  constructor
  · by_contra hlow
    rw [begin?, if_pos (by omega)] at h
    cases h
  · by_contra hhigh
    simp only [begin?] at h
    rw [if_neg (by omega), if_neg (by omega), if_neg (by omega), if_neg (by omega),
      if_neg (by omega), if_neg (by omega), if_neg (by omega), if_neg (by omega)] at h
    cases h

end Begin

section Step

variable {i : Nat} {p : Begun} {rest : List UInt8} {cs : List Char}

def Begun.next (p : Begun) (x : Nat) : Begun :=
  { p with had := p.had + 1, owed := p.owed - 1, low := 0x80, high := 0xBF, bits := 64 * p.bits + x }

@[simp] theorem Begun.next_low (p : Begun) (x : Nat) : (p.next x).low = 0x80 := rfl

@[simp] theorem Begun.next_high (p : Begun) (x : Nat) : (p.next x).high = 0xBF := rfl

@[simp] theorem Begun.next_owed (p : Begun) (x : Nat) : (p.next x).owed = p.owed - 1 := rfl

theorem decodeFrom_begin {b : Nat} (hb : b < 256) (h : begin? i b = some p) :
    decodeFrom i none (.ofNat b :: rest) = decodeFrom (i + 1) (some p) rest := by
  obtain ⟨hlow, -⟩ := bounds_of_begin? h
  rw [decodeFrom, toNat_ofNat hb, if_neg (by omega), h]

section Tail

variable {x : Nat} (hx : x < 0x40) (hlow : p.low ≤ x + 0x80) (hhigh : x + 0x80 ≤ p.high)
include hx hlow hhigh

theorem decodeFrom_next (howed : p.owed ≠ 1) :
    decodeFrom i (some p) (.ofNat (x + 0x80) :: rest) = decodeFrom (i + 1) (some (p.next x)) rest := by
  rw [decodeFrom, toNat_ofNat (by omega), if_pos ⟨hlow, hhigh⟩, if_neg howed, Nat.add_sub_cancel]
  rfl

theorem decodeFrom_last (howed : p.owed = 1) :
    decodeFrom i (some p) (.ofNat (x + 0x80) :: rest) =
      (decodeFrom (i + 1) none rest).map (Char.ofNat (64 * p.bits + x) :: ·) := by
  rw [decodeFrom, toNat_ofNat (by omega), if_pos ⟨hlow, hhigh⟩, if_pos howed, Nat.add_sub_cancel]

end Tail

theorem exists_tail {bytes : List UInt8} (h : decodeFrom i (some p) bytes = .ok cs)
    (hlow : 0x80 ≤ p.low) (hhigh : p.high ≤ 0xBF) :
    ∃ x rest, bytes = .ofNat (x + 0x80) :: rest ∧ x < 0x40 ∧ p.low ≤ x + 0x80 ∧ x + 0x80 ≤ p.high := by
  cases bytes with
  | nil => cases h
  | cons b rest =>
    rw [decodeFrom] at h
    split at h
    next hb => exact ⟨b.toNat - 0x80, rest, by rw [← eq_ofNat (by omega)], by omega, by omega, by omega⟩
    next => cases h

theorem exists_of_map {c : Char} {r : Except Fault (List Char)} (h : r.map (c :: ·) = .ok cs) :
    ∃ cs', r = .ok cs' ∧ cs = c :: cs' := by
  cases r with
  | error e => cases h
  | ok cs' =>
    cases h
    exact ⟨cs', rfl, rfl⟩

end Step

theorem Sequence.decodeFrom_append {bytes : List UInt8} {n : Nat} (h : Sequence bytes n) (i : Nat)
    (rest : List UInt8) :
    decodeFrom i none (bytes ++ rest) =
      (decodeFrom (i + bytes.length) none rest).map (Char.ofNat n :: ·) := by
  cases h with
  | one hw => rw [List.singleton_append, decodeFrom, toNat_ofNat (by omega), if_pos hw]; rfl
  | two hw hx hlong =>
    exact (decodeFrom_begin (by omega) (begin?_two hw hlong)).trans
      (decodeFrom_last hx (by dsimp only; omega) (by dsimp only; omega) rfl)
  | three hw hx hy hlong hsurrogate =>
    refine (decodeFrom_begin (by omega) (begin?_three hw)).trans ?_
    refine (decodeFrom_next hx ?_ ?_ (by simp)).trans ?_
    · dsimp only
      split <;> omega
    · dsimp only
      split <;> omega
    · exact decodeFrom_last hy (by simp) (by simp; omega) rfl
  | four hw hx hy hz hlong hlast =>
    refine (decodeFrom_begin (by omega) (begin?_four hw)).trans ?_
    refine (decodeFrom_next hx ?_ ?_ (by simp)).trans ?_
    · dsimp only
      split <;> omega
    · dsimp only
      split <;> omega
    · refine (decodeFrom_next hy (by simp) (by simp; omega) (by simp)).trans ?_
      exact decodeFrom_last hz (by simp) (by simp; omega) rfl

theorem begin?_cases {i b : Nat} {p : Begun} (h : begin? i b = some p) :
    (∃ w < 0x20, 2 ≤ w ∧ b = w + 0xC0) ∨ (∃ w < 0x10, b = w + 0xE0) ∨ ∃ w < 5, b = w + 0xF0 := by
  obtain ⟨hlow, hhigh⟩ := bounds_of_begin? h
  by_cases htwo : b < 0xE0
  · exact .inl ⟨b - 0xC0, by omega, by omega, by omega⟩
  · by_cases hthree : b < 0xF0
    · exact .inr (.inl ⟨b - 0xE0, by omega, by omega⟩)
    · exact .inr (.inr ⟨b - 0xF0, by omega, by omega⟩)

section Sequences

variable {i j w : Nat} {bytes : List UInt8} {cs : List Char}

theorem exists_sequence_two (hw : w < 0x20) (hlong : 2 ≤ w)
    (h : decodeFrom j (some ⟨i, 1, 1, 0x80, 0xBF, w⟩) bytes = .ok cs) :
    ∃ front n rest, .ofNat (w + 0xC0) :: bytes = front ++ rest ∧ Sequence front n := by
  obtain ⟨x, rest, rfl, hx, -, -⟩ := exists_tail h (Nat.le_refl _) (Nat.le_refl _)
  exact ⟨_, _, rest, rfl, .two hw hx hlong⟩

theorem exists_sequence_three (hw : w < 0x10)
    (h : decodeFrom j (some ⟨i, 1, 2, if w = 0 then 0xA0 else 0x80, if w = 13 then 0x9F else 0xBF, w⟩)
      bytes = .ok cs) :
    ∃ front n rest, .ofNat (w + 0xE0) :: bytes = front ++ rest ∧ Sequence front n := by
  obtain ⟨x, more, rfl, hx, hlow, hhigh⟩ :=
    exists_tail h (by dsimp only; split <;> omega) (by dsimp only; split <;> omega)
  rw [decodeFrom_next hx hlow hhigh (by simp)] at h
  obtain ⟨y, rest, rfl, hy, -, -⟩ := exists_tail h (by simp) (by simp)
  dsimp only at hlow hhigh
  refine ⟨_, _, rest, rfl, .three hw hx hy (fun h0 => ?_) fun h13 => ?_⟩
  · rw [if_pos h0] at hlow
    omega
  · rw [if_pos h13] at hhigh
    omega

theorem exists_sequence_four (hw : w < 5)
    (h : decodeFrom j (some ⟨i, 1, 3, if w = 0 then 0x90 else 0x80, if w = 4 then 0x8F else 0xBF, w⟩)
      bytes = .ok cs) :
    ∃ front n rest, .ofNat (w + 0xF0) :: bytes = front ++ rest ∧ Sequence front n := by
  obtain ⟨x, more, rfl, hx, hlow, hhigh⟩ :=
    exists_tail h (by dsimp only; split <;> omega) (by dsimp only; split <;> omega)
  rw [decodeFrom_next hx hlow hhigh (by simp)] at h
  obtain ⟨y, more, rfl, hy, hlow', hhigh'⟩ := exists_tail h (by simp) (by simp)
  rw [decodeFrom_next hy hlow' hhigh' (by simp)] at h
  obtain ⟨z, rest, rfl, hz, -, -⟩ := exists_tail h (by simp) (by simp)
  dsimp only at hlow hhigh
  refine ⟨_, _, rest, rfl, .four hw hx hy hz (fun h0 => ?_) fun h4 => ?_⟩
  · rw [if_pos h0] at hlow
    omega
  · rw [if_pos h4] at hhigh
    omega

theorem exists_sequence {b : UInt8} (h : decodeFrom i none (b :: bytes) = .ok cs) :
    ∃ front n rest, b :: bytes = front ++ rest ∧ Sequence front n := by
  rw [decodeFrom] at h
  split at h
  next hone =>
    refine ⟨[b], b.toNat, bytes, rfl, ?_⟩
    have hsequence := Sequence.one hone
    rwa [UInt8.ofNat_toNat] at hsequence
  next hone =>
    split at h
    next p hp =>
      rw [← UInt8.ofNat_toNat (x := b)]
      obtain ⟨w, hw, hlong, hb⟩ | ⟨w, hw, hb⟩ | ⟨w, hw, hb⟩ := begin?_cases hp
      · rw [hb, begin?_two hw hlong] at hp
        cases hp
        exact hb ▸ exists_sequence_two hw hlong h
      · rw [hb, begin?_three hw] at hp
        cases hp
        exact hb ▸ exists_sequence_three hw h
      · rw [hb, begin?_four hw] at hp
        cases hp
        exact hb ▸ exists_sequence_four hw h
    next => cases h

end Sequences

theorem decodeFrom_eq_ok_iff {i : Nat} {bytes : List UInt8} {cs : List Char} :
    decodeFrom i none bytes = .ok cs ↔ bytes = encode cs := by
  constructor
  · intro h
    induction hlen : bytes.length using Nat.strongRecOn generalizing bytes i cs with
    | ind k ih =>
      cases bytes with
      | nil => cases h; rfl
      | cons b bytes =>
        obtain ⟨front, n, rest, hsplit, hfront⟩ := exists_sequence h
        rw [hsplit, hfront.decodeFrom_append] at h
        obtain ⟨cs', hrest, rfl⟩ := exists_of_map h
        have hshort : rest.length < k := by
          rw [← hlen, hsplit, List.length_append]
          cases hfront <;> simp
        rw [hsplit, ih _ hshort hrest rfl, encode, encode, List.flatMap_cons, hfront.encodeChar]
  · rintro rfl
    induction cs generalizing i with
    | nil => rfl
    | cons c cs ih =>
      rw [encode, List.flatMap_cons, (sequence_encodeChar c).decodeFrom_append, Char.ofNat_toNat]
      change Except.map _ (decodeFrom _ none (encode cs)) = _
      rw [ih]
      rfl

theorem decode_eq_ok_iff {bytes : List UInt8} {cs : List Char} :
    decode bytes = .ok cs ↔ bytes = encode cs :=
  decodeFrom_eq_ok_iff

@[simp] theorem decode_encode (cs : List Char) : decode (encode cs) = .ok cs :=
  decode_eq_ok_iff.mpr rfl

theorem encode_injective : Function.Injective encode := by
  intro cs cs' h
  have hdecode := decode_encode cs
  rw [h, decode_encode] at hdecode
  exact (Except.ok.inj hdecode).symm

end LanguageClient.Utf8
