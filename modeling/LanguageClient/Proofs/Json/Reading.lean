import LanguageClient.Json.Printer
import LanguageClient.Json.Reader
import LanguageClient.Proofs.Table
import LanguageClient.Wire.Message
import Mathlib.Data.List.Forall2
import Mathlib.Data.List.TakeWhile

/-!
Reading back what was written.

A value that is written without blanks is read as itself again, if the format can say it exactly: no
reals in it, whole numbers of 64 bits, the keys of every object in rising order. The reader is two
machines, and each has its half: the characters of a value become its tokens, and its tokens become
the value.
-/

namespace LanguageClient

namespace Table

variable {κ α : Type}

instance [LT κ] [DecidableLT κ] (t : Table κ α) : Decidable (Sorted t) :=
  inferInstanceAs (Decidable (t.Pairwise fun e e' => e.1 < e'.1))

theorem put_of_forall_lt [DecidableEq κ] [LT κ] [DecidableLT κ] [Std.Asymm (α := κ) (· < ·)]
    {k : κ} {t : Table κ α} (h : ∀ e ∈ t, e.1 < k) (v : α) : put k v t = t ++ [(k, v)] := by
  induction t with
  | nil => rfl
  | cons e rest ih =>
    have hlt : e.1 < k := h e List.mem_cons_self
    have hne : k ≠ e.1 := fun heq => Std.lt_irrefl (heq ▸ hlt)
    rw [put, if_neg (Std.Asymm.asymm _ _ hlt), if_neg hne,
      ih fun e' he' => h e' (List.mem_cons_of_mem _ he')]
    rfl

end Table

namespace Json

mutual

/-- The format says the value exactly, and it has at most `room` values inside one another. -/
def isKept (room : Nat) : Json → Bool
  | real _ => false
  | integer n => decide (-(Nat.pow 2 63 : Nat) ≤ n ∧ n ≤ maxNatural)
  | array items => decide (0 < room) && isKeptItems (room - 1) items
  | object fields => decide (0 < room ∧ Table.Sorted fields) && isKeptFields (room - 1) fields
  | _ => true

def isKeptItems (room : Nat) : List Json → Bool
  | [] => true
  | v :: rest => isKept room v && isKeptItems room rest

def isKeptFields (room : Nat) : List (String × Json) → Bool
  | [] => true
  | (_, v) :: rest => isKept room v && isKeptFields room rest

end

mutual

def tokens : Json → List Token
  | string s => [.string s]
  | array items => .openArray :: ([Token.comma].intercalate (tokensItems items) ++ [.closeArray])
  | object fields =>
    .openObject :: ([Token.comma].intercalate (tokensFields fields) ++ [.closeObject])
  | v => [.scalar v]

def tokensItems : List Json → List (List Token)
  | [] => []
  | v :: rest => tokens v :: tokensItems rest

def tokensFields : List (String × Json) → List (List Token)
  | [] => []
  | (k, v) :: rest => (.string k :: .colon :: tokens v) :: tokensFields rest

end

section Scan

def scan (state : Scan × List Token) (c : Char) : Option (Scan × List Token) := do
  let (s', ts) ← Scan.step? state.1 c
  return (s', ts.reverse ++ state.2)

/-- At most a number or a word is under way, and with it the tokens are `found`, last first. -/
inductive Settled : Scan × List Token → List Token → Prop
  | between {found : List Token} : Settled (.between, found) found
  | bare {chars : List Char} {v : Json} {found : List Token} (h : bare? chars.reverse = some v) :
      Settled (.bare chars, found) (.scalar v :: found)

/-- The characters are read as these tokens, of which the last may still be under way. -/
def Reads (cs : List Char) (ts : List Token) : Prop :=
  ∀ found, ∃ s, cs.foldlM scan (.between, found) = some s ∧ Settled s (ts.reverse ++ found)

def Passes (cs : List Char) (ts : List Token) : Prop :=
  ∀ found, cs.foldlM scan (.between, found) = some (.between, ts.reverse ++ found)

variable {cs cs' : List Char} {ts ts' : List Token} {c : Char} {t : Token}

theorem tokens?_of_reads (h : Reads cs ts) : tokens? cs = some ts := by
  obtain ⟨s, hs, hsettled⟩ := h []
  rw [List.append_nil] at hsettled
  change (cs.foldlM scan (.between, []) >>= _) = _
  rw [hs]
  generalize hfound : ts.reverse = found at hsettled
  cases hsettled with
  | between =>
    change some found.reverse = _
    rw [← hfound, List.reverse_reverse]
  | bare hv =>
    change ((bare? _).bind _) = _
    rw [hv]
    change some (List.reverse _) = _
    rw [← hfound, List.reverse_reverse]

theorem outside?_mark (h : mark? c = some t) : outside? c = some (.between, [t]) := by
  have hblank : isBlank c = false := by
    by_contra hb
    simp only [isBlank, Bool.not_eq_false, Bool.or_eq_true, beq_iff_eq] at hb
    obtain ((rfl | rfl) | rfl) | rfl := hb <;> cases h
  have hquote : c ≠ '"' := by
    rintro rfl
    cases h
  rw [outside?, if_neg (by simp [hblank]), if_neg hquote, h]

theorem Settled.scan_mark {s : Scan × List Token} {found : List Token} (hs : Settled s found)
    (h : mark? c = some t) : scan s c = some (.between, t :: found) := by
  cases hs with
  | between =>
    rw [scan, Scan.step?, outside?_mark h]
    rfl
  | bare hv =>
    rw [scan, Scan.step?, if_pos (by simp [h]), outside?_mark h, hv]
    rfl

theorem passes_mark (h : mark? c = some t) : Passes [c] [t] := by
  intro found
  rw [List.foldlM_cons, Settled.scan_mark .between h]
  rfl

theorem Passes.reads (h : Passes cs ts) : Reads cs ts :=
  fun found => ⟨_, h found, .between⟩

theorem Passes.append (h : Passes cs ts) (h' : Passes cs' ts') :
    Passes (cs ++ cs') (ts ++ ts') := by
  intro found
  rw [List.foldlM_append, h found, List.reverse_append, List.append_assoc]
  exact h' _

theorem Passes.append_reads (h : Passes cs ts) (h' : Reads cs' ts') :
    Reads (cs ++ cs') (ts ++ ts') := by
  intro found
  rw [List.foldlM_append, h found, List.reverse_append, List.append_assoc]
  exact h' _

theorem Reads.append_mark (h : Reads cs ts) (hc : mark? c = some t) :
    Passes (cs ++ [c]) (ts ++ [t]) := by
  intro found
  obtain ⟨s, hs, hsettled⟩ := h found
  rw [List.foldlM_append, hs, List.reverse_append]
  change [c].foldlM scan s = _
  rw [List.foldlM_cons, hsettled.scan_mark hc]
  rfl

theorem passes_closed {parts : List (List Char)} {parts' : List (List Token)}
    (h : List.Forall₂ Reads parts parts') (hc : mark? c = some t) :
    Passes ([','].intercalate parts ++ [c]) ([Token.comma].intercalate parts' ++ [t]) := by
  induction h with
  | nil => exact passes_mark hc
  | @cons _ _ parts parts' hfirst hrest ih =>
    cases hrest with
    | nil => simpa using hfirst.append_mark hc
    | cons =>
      rw [List.intercalate_cons_cons, List.intercalate_cons_cons, List.append_assoc (_ ++ [',']),
        List.append_assoc (_ ++ [Token.comma])]
      exact (hfirst.append_mark (c := ',') (t := .comma) rfl).append ih

theorem hexDigit?_lowerHex : ∀ n < 16, hexDigit? (lowerHex n) = some n := by
  decide

theorem scan_code {c : Char} (hlow : c.toNat < 32) (chars : List Char) (found : List Token) :
    ['\\', 'u', '0', '0', lowerHex (c.toNat / 16), lowerHex (c.toNat % 16)].foldlM scan
      (.quoted chars, found) = some (.quoted (c :: chars), found) := by
  have hdone : codeDone? chars none c.toNat = some (.quoted (c :: chars)) := by
    rw [codeDone?, if_neg (by omega), if_neg (by omega), Char.ofNat_toNat]
  change [lowerHex (c.toNat / 16), lowerHex (c.toNat % 16)].foldlM scan
    (.code chars none 2 0, found) = _
  rw [List.foldlM_cons, scan, Scan.step?, hexDigit?_lowerHex _ (by omega)]
  change [lowerHex (c.toNat % 16)].foldlM scan
    (.code chars none 3 (16 * 0 + c.toNat / 16), found) = _
  rw [List.foldlM_cons, scan, Scan.step?, hexDigit?_lowerHex _ (by omega), Nat.mul_zero,
    Nat.zero_add]
  change ((codeDone? chars none (16 * (c.toNat / 16) + c.toNat % 16) >>= _) >>= _) >>= _ = _
  rw [Nat.div_add_mod, hdone]
  rfl

theorem scan_escapeChar (chars : List Char) (found : List Token) (c : Char) :
    (escapeChar c).foldlM scan (.quoted chars, found) = some (.quoted (c :: chars), found) := by
  unfold escapeChar
  split
  case h_8 hquote hslash _ _ _ _ _ =>
    split
    next hlow => exact scan_code hlow chars found
    next hlow =>
      rw [List.foldlM_cons, scan, Scan.step?, if_neg hquote, if_neg hslash, if_neg hlow]
      rfl
  all_goals rfl

theorem passes_quote (s : String) : Passes (quote s).toList [.string s] := by
  intro found
  have hchars : ∀ cs chars : List Char,
      (cs.flatMap escapeChar).foldlM scan (.quoted chars, found) =
        some (.quoted (cs.reverse ++ chars), found) := by
    intro cs
    induction cs with
    | nil => exact fun _ => rfl
    | cons c cs ih =>
      intro chars
      rw [List.flatMap_cons, List.foldlM_append, scan_escapeChar, List.reverse_cons,
        List.append_assoc]
      exact ih _
  rw [quote, String.toList_ofList, List.cons_append, List.foldlM_cons]
  change (s.toList.flatMap escapeChar ++ ['"']).foldlM scan (.quoted [], found) = _
  rw [List.foldlM_append, hchars, List.append_nil]
  change some (Scan.between, [Token.string _].reverse ++ found) = _
  rw [List.reverse_reverse, String.ofList_toList]

end Scan

section Number

theorem head?_toDigits {n : Nat} (hn : n ≠ 0) : (Nat.toDigits 10 n).head? ≠ some '0' := by
  induction n using Nat.strongRecOn with
  | ind n ih =>
    by_cases hlt : n < 10
    · have hdigit : ∀ n < 10, n ≠ 0 → n.digitChar ≠ '0' := by decide
      rw [Nat.toDigits_of_lt_base hlt]
      exact fun h => hdigit n hlt hn (Option.some.inj h)
    · rw [Nat.toDigits_of_base_le (by decide) (Nat.le_of_not_lt hlt),
        List.head?_append_of_ne_nil _ Nat.toDigits_ne_nil]
      exact ih (n / 10) (by omega) (by omega)

theorem isDigit_of_mem_toDigits {n : Nat} : ∀ c ∈ Nat.toDigits 10 n, c.isDigit = true :=
  fun _ => Nat.isDigit_of_mem_toDigits (by decide) (by decide)

theorem unsigned?_toDigits (negative : Bool) (n : Nat) :
    unsigned? negative (Nat.toDigits 10 n) = some ⟨negative, Nat.toDigits 10 n, none, none⟩ := by
  have htake : (Nat.toDigits 10 n).takeWhile Char.isDigit = Nat.toDigits 10 n :=
    List.takeWhile_eq_self_iff.mpr isDigit_of_mem_toDigits
  have hdrop : (Nat.toDigits 10 n).dropWhile Char.isDigit = [] :=
    List.dropWhile_eq_nil_iff.mpr isDigit_of_mem_toDigits
  have hlead : Nat.toDigits 10 n ≠ [] ∧
      ((Nat.toDigits 10 n).length = 1 ∨ (Nat.toDigits 10 n).head? ≠ some '0') := by
    refine ⟨Nat.toDigits_ne_nil, ?_⟩
    by_cases hn : n = 0
    · exact .inl (by rw [hn]; rfl)
    · exact .inr (head?_toDigits hn)
  rw [unsigned?, htake, hdrop]
  change (guard _ >>= _) = _
  rw [guard, if_pos hlead]
  rfl

theorem readDigits_toDigits (n : Nat) : readDigits (Nat.toDigits 10 n) = n :=
  Nat.ofDigitChars_ten_toDigits

theorem toList_toString_nat (n : Nat) : (toString (n : Int)).toList = Nat.toDigits 10 n :=
  Nat.toList_repr

theorem toList_toString_negSucc (n : Nat) :
    (toString (Int.negSucc n)).toList = '-' :: Nat.toDigits 10 (n + 1) := by
  change ("-" ++ Nat.repr (n + 1)).toList = _
  rw [String.toList_append, Nat.toList_repr]
  rfl

theorem readNumber?_toString {n : Int} (hlow : -(Nat.pow 2 63 : Nat) ≤ n)
    (hhigh : n ≤ maxNatural) : readNumber? (toString n).toList = some (.integer n) := by
  cases n with
  | ofNat n =>
    have hhigh' : n ≤ maxNatural := Int.ofNat_le.mp hhigh
    rw [show (toString (Int.ofNat n)).toList = _ from toList_toString_nat n, readNumber?.eq_2,
      unsigned?_toDigits, Option.bind_some, Written.value?]
    · dsimp only
      rw [if_pos ⟨rfl, rfl⟩, if_neg (by decide), readDigits_toDigits, if_pos hhigh']
      rfl
    · intro cs hcs
      have hminus := isDigit_of_mem_toDigits (n := n) '-' (by rw [hcs]; exact List.mem_cons_self)
      cases hminus
  | negSucc n =>
    have hsize : ¬ (n + 1 = 0 ∨ Nat.pow 2 63 < n + 1) := by
      have := Int.negSucc_eq n
      omega
    rw [toList_toString_negSucc, readNumber?.eq_1, unsigned?_toDigits, Option.bind_some,
      Written.value?, if_pos ⟨rfl, rfl⟩, if_pos rfl]
    dsimp only
    rw [readDigits_toDigits, if_neg hsize]
    rfl

end Number

section Bare

def isPlain (c : Char) : Bool :=
  !(isBlank c || c == '"' || (mark? c).isSome)

theorem scan_bare {cs : List Char} (h : ∀ c ∈ cs, isPlain c = true) (chars : List Char)
    (found : List Token) :
    cs.foldlM scan (.bare chars, found) = some (.bare (cs.reverse ++ chars), found) := by
  induction cs generalizing chars with
  | nil => rfl
  | cons c cs ih =>
    have hc : ¬ (isBlank c || c == '"' || (mark? c).isSome) = true :=
      Bool.eq_false_iff.mp ((Bool.not_eq_true' _).mp (h c List.mem_cons_self))
    rw [List.foldlM_cons, scan, Scan.step?, if_neg hc, List.reverse_cons, List.append_assoc]
    exact ih (fun c' hc' => h c' (List.mem_cons_of_mem _ hc')) _

theorem reads_bare {cs : List Char} {v : Json} (hne : cs ≠ []) (h : ∀ c ∈ cs, isPlain c = true)
    (hv : bare? cs = some v) : Reads cs [.scalar v] := by
  intro found
  cases cs with
  | nil => exact absurd rfl hne
  | cons c cs =>
    have hfirst : outside? c = some (.bare [c], []) := by
      have hc := h c List.mem_cons_self
      simp only [isPlain, Bool.not_eq_true', Bool.or_eq_false_iff, beq_eq_false_iff_ne,
        Option.isSome_eq_false_iff, Option.isNone_iff_eq_none] at hc
      rw [outside?, if_neg (Bool.eq_false_iff.mp hc.1.1), if_neg hc.1.2, hc.2]
    refine ⟨_, ?_, @Settled.bare (cs.reverse ++ [c]) v found ?_⟩
    · rw [List.foldlM_cons, scan, Scan.step?, hfirst]
      exact scan_bare (fun c' hc' => h c' (List.mem_cons_of_mem _ hc')) _ _
    · rw [List.reverse_append, List.reverse_reverse]
      exact hv

theorem isPlain_of_isDigit {c : Char} (h : c.isDigit = true) : isPlain c = true := by
  by_contra hplain
  simp only [isPlain, Bool.not_eq_true', Bool.not_eq_false, Bool.or_eq_true, beq_iff_eq] at hplain
  obtain (hblank | rfl) | hmark := hplain
  · simp only [isBlank, Bool.or_eq_true, beq_iff_eq] at hblank
    obtain ((rfl | rfl) | rfl) | rfl := hblank <;> cases h
  · cases h
  · unfold mark? at hmark
    split at hmark <;> first | cases h | cases hmark

theorem bare?_of_digits {cs : List Char} (h : ∀ c ∈ cs, c = '-' ∨ c.isDigit = true) :
    bare? cs = readNumber? cs := by
  have hword : ∀ s c, c ∈ s.toList → c ≠ '-' → c.isDigit = false → String.ofList cs ≠ s := by
    rintro _ c hc hminus hdigit rfl
    rw [String.toList_ofList] at hc
    obtain hminus' | hdigit' := h c hc
    · exact hminus hminus'
    · rw [hdigit] at hdigit'
      cases hdigit'
  unfold bare?
  split
  next heq => exact absurd heq (hword _ 'n' (by decide) (by decide) (by decide))
  next heq => exact absurd heq (hword _ 't' (by decide) (by decide) (by decide))
  next heq => exact absurd heq (hword _ 'f' (by decide) (by decide) (by decide))
  next => rfl

theorem reads_toString {n : Int} (hlow : -(Nat.pow 2 63 : Nat) ≤ n) (hhigh : n ≤ maxNatural) :
    Reads (toString n).toList [.scalar (.integer n)] := by
  have hchars : ∀ c ∈ (toString n).toList, c = '-' ∨ c.isDigit = true := by
    cases n with
    | ofNat n => exact fun c hc => .inr (isDigit_of_mem_toDigits c (toList_toString_nat n ▸ hc))
    | negSucc n =>
      rw [toList_toString_negSucc]
      exact fun c hc => (List.mem_cons.mp hc).imp_right (isDigit_of_mem_toDigits c)
  refine reads_bare ?_ (fun c hc => ?_) ?_
  · cases n with
    | ofNat n => exact toList_toString_nat n ▸ Nat.toDigits_ne_nil
    | negSucc n => exact toList_toString_negSucc n ▸ List.cons_ne_nil _ _
  · obtain rfl | hdigit := hchars c hc
    · rfl
    · exact isPlain_of_isDigit hdigit
  · rw [bare?_of_digits hchars, readNumber?_toString hlow hhigh]

end Bare

section Compact

mutual

theorem reads_compact {room : Nat} : (v : Json) → v.isKept room = true →
    Reads v.compact.toList v.tokens
  | null, _ => reads_bare (by decide) (List.all_eq_true.mp rfl) rfl
  | bool true, _ => reads_bare (by decide) (List.all_eq_true.mp rfl) rfl
  | bool false, _ => reads_bare (by decide) (List.all_eq_true.mp rfl) rfl
  | integer _, h => reads_toString (of_decide_eq_true h).1 (of_decide_eq_true h).2
  | string s, _ => (passes_quote s).reads
  | array items, h => by
    have hparts := reads_items items (Bool.and_eq_true_iff.mp h).2
    rw [compact, String.toList_append, String.toList_append, String.toList_intercalate]
    exact ((passes_mark (c := '[') (t := .openArray) rfl).append
      (passes_closed (c := ']') (t := .closeArray) hparts rfl)).reads
  | object fields, h => by
    have hparts := reads_fields fields (Bool.and_eq_true_iff.mp h).2
    rw [compact, String.toList_append, String.toList_append, String.toList_intercalate]
    exact ((passes_mark (c := '{') (t := .openObject) rfl).append
      (passes_closed (c := '}') (t := .closeObject) hparts rfl)).reads

theorem reads_items {room : Nat} : (items : List Json) → isKeptItems room items = true →
    List.Forall₂ Reads ((compactItems items).map String.toList) (tokensItems items)
  | [], _ => .nil
  | v :: rest, h =>
    have h := Bool.and_eq_true_iff.mp h
    .cons (reads_compact v h.1) (reads_items rest h.2)

theorem reads_fields {room : Nat} : (fields : List (String × Json)) →
    isKeptFields room fields = true → List.Forall₂ Reads ((compactFields fields).map String.toList)
      (tokensFields fields)
  | [], _ => .nil
  | (k, v) :: rest, h => by
    have h := Bool.and_eq_true_iff.mp h
    refine .cons ?_ (reads_fields rest h.2)
    rw [String.toList_append, String.toList_append]
    exact ((passes_quote k).append (passes_mark (c := ':') (t := .colon) rfl)).append_reads
      (reads_compact v h.1)

end

end Compact

section Expect

variable {maxDepth : Nat}

def expect (maxDepth : Nat) (state : Expected) (ts : List Token) : Option Expected :=
  ts.foldlM (Expected.step? maxDepth) state

theorem expect_append (state : Expected) (ts ts' : List Token) :
    expect maxDepth state (ts ++ ts') = (expect maxDepth state ts).bind (expect maxDepth · ts') :=
  List.foldlM_append

theorem intercalate_cons (ts : List Token) (parts : List (List Token)) :
    [Token.comma].intercalate (ts :: parts) = ts ++ parts.flatMap (.comma :: ·) := by
  induction parts generalizing ts with
  | nil => rw [List.intercalate_singleton, List.flatMap_nil, List.append_nil]
  | cons ts' parts ih =>
    rw [List.intercalate_cons_cons, ih, List.flatMap_cons, List.append_assoc]
    rfl

mutual

theorem expect_tokens : (v : Json) → (opened : List Opened) →
    v.isKept (maxDepth - opened.length) = true →
    expect maxDepth (.value opened) v.tokens = some (.put v opened)
  | null, _, _ | bool _, _, _ | integer _, _, _ | string _, _, _ => rfl
  | array items, opened, h => by
    obtain ⟨hroom, hitems⟩ := Bool.and_eq_true_iff.mp h
    have hopen : expect maxDepth (.value opened) (array items).tokens =
        expect maxDepth (.itemOrClose opened)
          ([Token.comma].intercalate (tokensItems items) ++ [.closeArray]) := by
      rw [tokens, expect, List.foldlM_cons, Expected.step?, startValue?,
        if_pos (Nat.lt_of_sub_pos (of_decide_eq_true hroom))]
      rfl
    rw [hopen]
    cases items with
    | nil => rfl
    | cons v rest =>
      obtain ⟨hv, hrest⟩ := Bool.and_eq_true_iff.mp hitems
      have hitem : expect maxDepth (.itemOrClose opened) v.tokens =
          expect maxDepth (.value (.items [] :: opened)) v.tokens := by
        cases v <;> rfl
      rw [tokensItems, intercalate_cons, List.append_assoc, expect_append, hitem,
        expect_tokens v (.items [] :: opened) hv, Option.bind_some]
      exact expect_items rest [v] opened hrest
  | object fields, opened, h => by
    obtain ⟨hroom, hfields⟩ := Bool.and_eq_true_iff.mp h
    obtain ⟨hroom, hsorted⟩ := of_decide_eq_true hroom
    have hopen : expect maxDepth (.value opened) (object fields).tokens =
        expect maxDepth (.keyOrClose opened)
          ([Token.comma].intercalate (tokensFields fields) ++ [.closeObject]) := by
      rw [tokens, expect, List.foldlM_cons, Expected.step?, startValue?,
        if_pos (Nat.lt_of_sub_pos hroom)]
      rfl
    rw [hopen]
    match fields with
    | [] => rfl
    | (k, v) :: rest =>
      obtain ⟨hv, hrest⟩ := Bool.and_eq_true_iff.mp hfields
      have hmember : expect maxDepth (.keyOrClose opened) (.string k :: .colon :: v.tokens) =
          expect maxDepth (.value (.member [] k :: opened)) v.tokens := rfl
      rw [tokensFields, intercalate_cons, List.append_assoc, expect_append, hmember,
        expect_tokens v (.member [] k :: opened) hv, Option.bind_some]
      exact expect_fields rest [(k, v)] opened hrest hsorted

theorem expect_items : (items : List Json) → (done : List Json) → (opened : List Opened) →
    isKeptItems (maxDepth - opened.length - 1) items = true →
    expect maxDepth (.afterItem done opened)
      ((tokensItems items).flatMap (.comma :: ·) ++ [.closeArray]) =
        some (.put (array (done.reverse ++ items)) opened)
  | [], done, opened, _ => by
    rw [List.append_nil]
    rfl
  | v :: rest, done, opened, h => by
    obtain ⟨hv, hrest⟩ := Bool.and_eq_true_iff.mp h
    have hrest := expect_items rest (v :: done) opened hrest
    rw [List.reverse_cons, List.append_assoc] at hrest
    rw [tokensItems, List.flatMap_cons, List.append_assoc]
    change expect maxDepth (.value (.items done :: opened)) (v.tokens ++ _) = _
    rw [expect_append, expect_tokens v (.items done :: opened) hv, Option.bind_some]
    exact hrest

theorem expect_fields : (fields done : List (String × Json)) → (opened : List Opened) →
    isKeptFields (maxDepth - opened.length - 1) fields = true → Table.Sorted (done ++ fields) →
    expect maxDepth (.afterMember done opened)
      ((tokensFields fields).flatMap (.comma :: ·) ++ [.closeObject]) =
        some (.put (object (done ++ fields)) opened)
  | [], done, opened, _, _ => by
    rw [List.append_nil]
    rfl
  | (k, v) :: rest, done, opened, h, hsorted => by
    obtain ⟨hv, hrest⟩ := Bool.and_eq_true_iff.mp h
    have hrest := expect_fields rest (done ++ [(k, v)]) opened hrest (by
      rw [List.append_assoc]
      exact hsorted)
    rw [List.append_assoc] at hrest
    have hlast : ∀ e ∈ done, e.1 < k := fun e he =>
      (List.pairwise_append.mp hsorted).2.2 e he (k, v) List.mem_cons_self
    rw [tokensFields, List.flatMap_cons, List.append_assoc]
    change expect maxDepth (.value (.member done k :: opened)) (v.tokens ++ _) = _
    rw [expect_append, expect_tokens v (.member done k :: opened) hv, Option.bind_some,
      Expected.put, Table.put_of_forall_lt hlast]
    exact hrest

end

end Expect

theorem read?_compact {v : Json} (h : v.isKept maxDepth = true) : read? v.compact = some v := by
  have htokens : tokens? v.compact.toList = some v.tokens := tokens?_of_reads (reads_compact v h)
  have hvalue : v.tokens.foldlM (Expected.step? maxDepth) (.value []) = some (.nothing v) :=
    expect_tokens v [] h
  rw [read?, readWithin?, htokens]
  change (v.tokens.foldlM (Expected.step? maxDepth) (.value []) >>= _) = _
  rw [hvalue]
  rfl

end Json

theorem Message.ofText?_compact {v : Json} (h : v.isKept Json.maxDepth = true) :
    ofText? v.compact = read? v := by
  rw [ofText?, Json.read?_compact h, Option.bind_some]

end LanguageClient
