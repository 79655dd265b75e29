import LanguageClient.Proofs.Text.Bytes
import LanguageClient.Proofs.Text.Utf8
import LanguageClient.Transport.Buffer
import Mathlib.Data.List.TakeWhile

namespace LanguageClient

namespace Text

theorem after?_eq_some_iff {front cs rest : List Char} :
    after? front cs = some rest ↔ cs = front ++ rest := by
  fun_induction after? front cs with
  | case1 cs => simp [eq_comm]
  | case2 s front cs ih => simpa using ih
  | case3 s front c cs hne => simp [Ne.symm hne]
  | case4 s front => simp

theorem trim_append (margin cs tail : List Char) (hmargin : ∀ c ∈ margin, isBlank c = true)
    (htail : ∀ c ∈ tail, isBlank c = true) : trim (margin ++ cs ++ tail) = trim cs := by
  have hback : ∀ front : List Char, ((front ++ tail).reverse.dropWhile isBlank).reverse =
      (front.reverse.dropWhile isBlank).reverse := by
    intro front
    rw [List.reverse_append, List.dropWhile_append_of_pos (by simpa using htail)]
  rw [trim, trim, List.append_assoc, List.dropWhile_append_of_pos hmargin, List.dropWhile_append]
  split
  next hnil =>
    have hall : cs.dropWhile isBlank = [] := by simpa using hnil
    rw [hall, List.dropWhile_eq_nil_iff.mpr htail]
  next => exact hback _

theorem dropWhile_isBlank {cs : List Char} (h : ∀ c ∈ cs.head?, isBlank c = false) :
    cs.dropWhile isBlank = cs := by
  cases cs with
  | nil => rfl
  | cons c cs => rw [List.dropWhile_cons_of_neg (by simpa using h)]

theorem trim_eq_self {cs : List Char} (hfirst : ∀ c ∈ cs.head?, isBlank c = false)
    (hlast : ∀ c ∈ cs.getLast?, isBlank c = false) : trim cs = cs := by
  rw [trim, dropWhile_isBlank hfirst, dropWhile_isBlank (by simpa using hlast), List.reverse_reverse]

theorem isBlank_of_isDigit {c : Char} (h : c.isDigit = true) : isBlank c = false := by
  have hdigit : 48 ≤ c.toNat ∧ c.toNat ≤ 57 := by
    simpa [Char.isDigit, UInt32.le_iff_toNat_le] using h
  simp [isBlank]
  omega

end Text

namespace Decimal

def IsNumeral (n : Nat) (cs : List Char) : Prop :=
  ∃ digits, digits ≠ [] ∧ (∀ c ∈ digits, c.isDigit = true) ∧ Nat.ofDigitChars 10 digits 0 = n ∧
    (cs = digits ∨ cs = '+' :: digits)

theorem le_ofDigitChars (digits : List Char) (n : Nat) : n ≤ Nat.ofDigitChars 10 digits n := by
  induction digits generalizing n with
  | nil => exact Nat.le_refl n
  | cons c digits ih => exact Nat.le_trans (by omega) (ih (10 * n + (c.toNat - '0'.toNat)))

theorem readWordFrom_eq_ok {digits : List Char} (hdigits : ∀ c ∈ digits, c.isDigit = true) {n : Nat}
    (hmax : Nat.ofDigitChars 10 digits n ≤ maxWord) :
    readWordFrom n digits = .ok (Nat.ofDigitChars 10 digits n) := by
  induction digits generalizing n with
  | nil => rfl
  | cons c digits ih =>
    have hstep : 10 * n + (c.toNat - '0'.toNat) ≤ maxWord :=
      Nat.le_trans (le_ofDigitChars digits _) hmax
    rw [readWordFrom, if_pos (hdigits c List.mem_cons_self)]
    dsimp only
    rw [if_pos hstep]
    exact ih (fun c' hc' => hdigits c' (List.mem_cons_of_mem _ hc')) hmax

theorem readWord_eq_ok {n : Nat} {cs : List Char} (h : IsNumeral n cs) (hmax : n ≤ maxWord) :
    readWord cs = .ok n := by
  obtain ⟨digits, hne, hdigits, rfl, hsign⟩ := h
  obtain ⟨c, digits, rfl⟩ := List.exists_cons_of_ne_nil hne
  have hread := readWordFrom_eq_ok hdigits hmax
  obtain rfl | rfl := hsign
  · have hplus : c ≠ '+' := by
      rintro rfl
      cases hdigits _ List.mem_cons_self
    rw [← hread, readWord]
    · simp
    · simp [hplus]
    · simp [hplus]
  · exact hread

theorem isNumeral_toString (n : Nat) : IsNumeral n (toString n).toList := by
  have hdigits : (toString n).toList = Nat.toDigits 10 n := Nat.toList_repr
  rw [hdigits]
  exact ⟨_, Nat.toDigits_ne_nil, fun _ => Nat.isDigit_of_mem_toDigits (by decide) (by decide),
    Nat.ofDigitChars_ten_toDigits, .inl rfl⟩

theorem IsNumeral.isBlank_of_mem {n : Nat} {cs : List Char} (h : IsNumeral n cs) {c : Char}
    (hc : c ∈ cs) : Text.isBlank c = false := by
  obtain ⟨digits, -, hdigits, -, rfl | rfl⟩ := h
  · exact Text.isBlank_of_isDigit (hdigits c hc)
  · obtain rfl | hc := List.mem_cons.mp hc
    · rfl
    · exact Text.isBlank_of_isDigit (hdigits c hc)

theorem IsNumeral.ne_nil {n : Nat} {cs : List Char} (h : IsNumeral n cs) : cs ≠ [] := by
  obtain ⟨digits, hne, -, -, rfl | rfl⟩ := h
  · exact hne
  · exact List.cons_ne_nil _ _

end Decimal

namespace Framing

def line (text : List Char) : List UInt8 :=
  Utf8.encode (text ++ ['\n'])

structure IsOther (text : List Char) : Prop where
  noBreak : '\n' ∉ text
  notBlank : Text.trim text ≠ []
  noLength : ¬ lengthKey <+: Text.trim text

/-- A header that gives a length; blanks around the line and the number do not count. -/
structure IsLength (n : Nat) (text : List Char) : Prop where
  noBreak : '\n' ∉ text
  gives : ∃ value, Text.trim text = lengthKey ++ value ∧ Decimal.IsNumeral n (Text.trim value)

structure IsBlank (text : List Char) : Prop where
  noBreak : '\n' ∉ text
  blank : Text.trim text = []

structure Packet where
  before : List (List Char)
  length : List Char
  after : List (List Char)
  blank : List Char
  body : List UInt8
  isOther_before : ∀ text ∈ before, IsOther text
  isLength : IsLength body.length length
  isOther_after : ∀ text ∈ after, IsOther text
  isBlank : IsBlank blank
  fits : body.length ≤ Decimal.maxWord

def Packet.bytes (p : Packet) : List UInt8 :=
  p.before.flatMap line ++ line p.length ++ p.after.flatMap line ++ line p.blank ++ p.body

theorem newline_not_mem_encode {text : List Char} (h : '\n' ∉ text) : newline ∉ Utf8.encode text := by
  rw [Utf8.encode, List.mem_flatMap]
  rintro ⟨c, hc, hmem⟩
  have hne : c ≠ '\n' := ne_of_mem_of_not_mem hc h
  have hnumber : c.toNat ≠ 10 := by
    intro h10
    rw [← Char.ofNat_toNat c, h10] at hne
    exact hne rfl
  exact Utf8.Sequence.not_mem_of_ne (Utf8.sequence_encodeChar c) (by decide) hnumber hmem

def readHeader (found : Option Nat) (header : Except Fault Header) (rest : List UInt8) :
    Except Fault Nat × List UInt8 :=
  match header with
  | .error fault => (.error fault, rest)
  | .ok .blank => (match found with | some n => .ok n | none => .error .noLength, rest)
  | .ok (.length n) => readHeaders (some n) rest
  | .ok .other => readHeaders found rest

theorem readHeaders_of_ne_nil {stream : List UInt8} (h : stream ≠ []) (found : Option Nat) :
    readHeaders found stream =
      readHeader found (Header.ofLine (splitLine stream).1) (splitLine stream).2 := by
  obtain ⟨b, bs, rfl⟩ := List.exists_cons_of_ne_nil h
  rw [readHeaders.eq_def]
  rfl

section Line

variable {text : List Char} (h : '\n' ∉ text) (rest : List UInt8)
include h

theorem splitLine_line : splitLine (line text ++ rest) = (line text, rest) := by
  have hline : line text = Utf8.encode text ++ [newline] := Text.encode_append text ['\n']
  rw [hline, List.append_assoc, splitLine_append_of_not_mem (newline_not_mem_encode h)]
  rfl

theorem readHeaders_line (found : Option Nat) :
    readHeaders found (line text ++ rest) = readHeader found (Header.ofLine (line text)) rest := by
  have hne : line text ++ rest ≠ [] := by
    rw [line, Text.encode_append]
    simp [Utf8.encode]
  rw [readHeaders_of_ne_nil hne, splitLine_line h]

end Line

theorem ofLine_line (text : List Char) :
    Header.ofLine (line text) =
      if Text.trim text = [] then .ok .blank
      else match Text.after? lengthKey (Text.trim text) with
        | none => .ok .other
        | some value =>
          match Decimal.readWord (Text.trim value) with
          | .ok n => .ok (.length n)
          | .error fault => .error (.badLength fault) := by
  have htrim : Text.trim (text ++ ['\n']) = Text.trim text :=
    Text.trim_append [] text ['\n'] (by simp) (List.forall_mem_singleton.mpr (by decide))
  rw [Header.ofLine, line, Utf8.decode_encode]
  exact htrim ▸ rfl

section Packet

variable {text : List Char} (rest : List UInt8)

theorem IsOther.readHeaders (h : IsOther text) (found : Option Nat) :
    readHeaders found (line text ++ rest) = readHeaders found rest := by
  have hkey : Text.after? lengthKey (Text.trim text) = none := by
    rw [Option.eq_none_iff_forall_ne_some]
    intro value hvalue
    exact h.noLength ⟨value, (Text.after?_eq_some_iff.mp hvalue).symm⟩
  rw [readHeaders_line h.noBreak, ofLine_line, if_neg h.notBlank, hkey]
  rfl

theorem readHeaders_others {texts : List (List Char)} (h : ∀ text ∈ texts, IsOther text)
    (found : Option Nat) :
    readHeaders found (texts.flatMap line ++ rest) = readHeaders found rest := by
  induction texts with
  | nil => rfl
  | cons text texts ih =>
    rw [List.flatMap_cons, List.append_assoc, (h text List.mem_cons_self).readHeaders]
    exact ih fun text' htext' => h text' (List.mem_cons_of_mem _ htext')

theorem IsLength.readHeaders {n : Nat} (h : IsLength n text) (hmax : n ≤ Decimal.maxWord)
    (found : Option Nat) :
    readHeaders found (line text ++ rest) = readHeaders (some n) rest := by
  obtain ⟨value, htrim, hnumeral⟩ := h.gives
  have hne : Text.trim text ≠ [] := by
    rw [htrim]
    exact List.append_ne_nil_of_left_ne_nil (by decide) value
  have hkey : Text.after? lengthKey (Text.trim text) = some value :=
    Text.after?_eq_some_iff.mpr htrim
  rw [readHeaders_line h.noBreak, ofLine_line, if_neg hne, hkey]
  dsimp only
  rw [Decimal.readWord_eq_ok hnumeral hmax]
  rfl

theorem IsBlank.readHeaders (h : IsBlank text) (n : Nat) :
    readHeaders (some n) (line text ++ rest) = (.ok n, rest) := by
  rw [readHeaders_line h.noBreak, ofLine_line, if_pos h.blank]
  rfl

theorem Packet.readHeaders (p : Packet) :
    readHeaders none (p.bytes ++ rest) = (.ok p.body.length, p.body ++ rest) := by
  simp only [Packet.bytes, List.append_assoc]
  rw [readHeaders_others _ p.isOther_before, p.isLength.readHeaders _ p.fits,
    readHeaders_others _ p.isOther_after, p.isBlank.readHeaders]

theorem Packet.read (p : Packet) :
    read (p.bytes ++ rest) = ((Utf8.decode p.body).mapError .badText, rest) := by
  rw [Framing.read, p.readHeaders]
  dsimp only
  rw [if_neg (by simp), List.take_left, List.drop_left]
  cases Utf8.decode p.body <;> rfl

end Packet

section Write

variable (message : List Char)

def lengthText : List Char :=
  lengthKey ++ ' ' :: (toString (Utf8.encode message).length).toList ++ ['\r']

theorem isLength_lengthText : IsLength (Utf8.encode message).length (lengthText message) := by
  have hnumeral := Decimal.isNumeral_toString (Utf8.encode message).length
  rw [lengthText]
  generalize (toString (Utf8.encode message).length).toList = number at hnumeral ⊢
  have hlast : ∀ c ∈ number.getLast?, Text.isBlank c = false :=
    fun c hc => hnumeral.isBlank_of_mem (List.mem_of_mem_getLast? hc)
  have hnumber : Text.trim number = number :=
    Text.trim_eq_self (fun c hc => hnumeral.isBlank_of_mem (List.mem_of_mem_head? hc)) hlast
  have hvalue : Text.trim (' ' :: number) = number := by
    have h := Text.trim_append [' '] number [] (List.forall_mem_singleton.mpr (by decide)) (by simp)
    rwa [List.append_nil, hnumber] at h
  have htext : Text.trim (lengthKey ++ ' ' :: number ++ ['\r']) = lengthKey ++ ' ' :: number := by
    rw [← List.nil_append (lengthKey ++ _),
      Text.trim_append [] _ ['\r'] (by simp) (List.forall_mem_singleton.mpr (by decide))]
    refine Text.trim_eq_self (fun c hc => ?_) fun c hc => hlast c ?_
    · cases hc
      decide
    · have hsplit : lengthKey ++ ' ' :: number = (lengthKey ++ [' ']) ++ number := by simp
      have hsome := List.getLast?_eq_some_getLast hnumeral.ne_nil
      rwa [hsplit, List.getLast?_append, hsome, Option.some_or, ← hsome] at hc
  have hbreak : '\n' ∉ number :=
    fun hmem => absurd (hnumeral.isBlank_of_mem hmem) (by decide)
  refine ⟨?_, ' ' :: number, htext, by rwa [hvalue]⟩
  have hkey : '\n' ∉ lengthKey := by decide
  simp [hbreak, hkey]

theorem write_eq :
    write message = line (lengthText message) ++ line ['\r'] ++ Utf8.encode message := by
  have hhead : lengthKey ++ ' ' :: (toString (Utf8.encode message).length).toList ++
      "\r\n\r\n".toList = (lengthText message ++ ['\n']) ++ ['\r', '\n'] := by
    simp [lengthText]
  rw [write, hhead, Text.encode_append]
  rfl

variable {message} (hfits : (Utf8.encode message).length ≤ Decimal.maxWord)

def Packet.ofMessage : Packet where
  before := []
  length := lengthText message
  after := []
  blank := ['\r']
  body := Utf8.encode message
  isOther_before := by simp
  isLength := isLength_lengthText message
  isOther_after := by simp
  isBlank := ⟨by decide, by decide⟩
  fits := hfits

theorem Packet.bytes_ofMessage : (Packet.ofMessage hfits).bytes = write message := by
  rw [write_eq]
  simp [Packet.bytes, Packet.ofMessage]

end Write

namespace Pieces

variable {ps : Pieces}

theorem flatten_eq_nil_of_readLine (h : (readLine ps).1 = []) : ps.flatten = [] := by
  cases hps : ps.flatten with
  | nil => rfl
  | cons b rest =>
    have hfirst := congrArg Prod.fst (splitLine_flatten ps)
    rw [h, hps, splitLine] at hfirst
    split at hfirst <;> cases hfirst

theorem flatten_readLine (ps : Pieces) : (readLine ps).2.flatten = (splitLine ps.flatten).2 := by
  rw [splitLine_flatten]

def joined {α : Type} (r : α × Pieces) : α × List UInt8 :=
  (r.1, r.2.flatten)

theorem readHeaders_flatten (h : (readLine ps).1 ≠ []) (found : Option Nat) :
    Framing.readHeaders found ps.flatten =
      readHeader found (Header.ofLine (readLine ps).1) (readLine ps).2.flatten := by
  have hne : ps.flatten ≠ [] := by
    intro hnil
    have hline := congrArg Prod.fst (splitLine_flatten ps)
    rw [hnil] at hline
    exact h hline.symm
  rw [readHeaders_of_ne_nil hne, splitLine_flatten]

theorem joined_readHeaders (found : Option Nat) (ps : Pieces) :
    joined (readHeaders found ps) = Framing.readHeaders found ps.flatten := by
  fun_induction readHeaders found ps with
  | case1 found ps hend =>
    have hnil := flatten_eq_nil_of_readLine hend
    rw [hnil, Framing.readHeaders, joined, flatten_readLine, hnil]
    rfl
  | case2 found ps hline fault hheader => rw [readHeaders_flatten hline, hheader]; rfl
  | case3 found ps hline hheader => rw [readHeaders_flatten hline, hheader]; rfl
  | case4 found ps hline n hheader ih => rw [ih, readHeaders_flatten hline, hheader]; rfl
  | case5 found ps hline hheader ih => rw [ih, readHeaders_flatten hline, hheader]; rfl

theorem map_joined_readExact (n : Nat) (ps : Pieces) :
    (readExact n ps).map joined =
      if ps.flatten.length < n then none else some (ps.flatten.take n, ps.flatten.drop n) := by
  fun_induction readExact n ps with
  | case1 => simp [joined]
  | case2 n hn => simp [Nat.pos_of_ne_zero hn]
  | case3 n piece more hle =>
    rw [if_neg (by simp; omega), List.flatten_cons, List.take_append_of_le_length hle,
      List.drop_append_of_le_length hle]
    rfl
  | case4 n piece more hlt ih =>
    have hlength : (piece ++ more.flatten).length < n ↔ more.flatten.length < n - piece.length := by
      rw [List.length_append]
      omega
    rw [List.flatten_cons, List.take_append, List.drop_append, List.take_of_length_le (by omega),
      List.drop_of_length_le (by omega)]
    simp only [hlength]
    have hjoined : joined ∘ (fun r => (piece ++ r.1, r.2)) =
        (fun r : List UInt8 × List UInt8 => (piece ++ r.1, r.2)) ∘ joined := rfl
    rw [Option.map_map, hjoined, ← Option.map_map, ih]
    split <;> rfl

theorem joined_read (ps : Pieces) : joined (read ps) = Framing.read ps.flatten := by
  rw [read, Framing.read, ← joined_readHeaders]
  cases hheaders : readHeaders none ps with
  | mk result rest =>
    cases result with
    | error fault => rfl
    | ok n =>
      have hexact := map_joined_readExact n rest
      dsimp only [joined]
      cases hbody : readExact n rest with
      | none =>
        rw [hbody] at hexact
        split at hexact
        next hshort => rw [if_pos hshort]; rfl
        next => cases hexact
      | some r =>
        rw [hbody] at hexact
        split at hexact
        next => cases hexact
        next hlong =>
          obtain ⟨htake, hdrop⟩ := Prod.mk.inj (Option.some.inj hexact)
          obtain ⟨body, left⟩ := r
          dsimp only at htake hdrop ⊢
          rw [if_neg hlong, ← htake, ← hdrop]
          cases Utf8.decode body <;> rfl

theorem readMany_packets (packets : List Packet) (rest : List UInt8)
    (h : ps.flatten = packets.flatMap Packet.bytes ++ rest) :
    joined (readMany packets.length ps) =
      (packets.map fun p => (Utf8.decode p.body).mapError .badText, rest) := by
  induction packets generalizing ps with
  | nil => rw [List.flatMap_nil, List.nil_append] at h; rw [← h]; rfl
  | cons p packets ih =>
    rw [List.flatMap_cons, List.append_assoc] at h
    have hread := joined_read ps
    rw [h, p.read] at hread
    obtain ⟨hfirst, hleft⟩ := Prod.mk.inj hread
    have hmore := ih hleft
    obtain ⟨hothers, hend⟩ := Prod.mk.inj hmore
    rw [List.length_cons, readMany, joined, hfirst, hothers, hend]
    rfl

theorem readMany_add (j k : Nat) (ps : Pieces) :
    (readMany (j + k) ps).1 = (readMany j ps).1 ++ (readMany k (readMany j ps).2).1 := by
  induction j generalizing ps with
  | zero => rw [Nat.zero_add]; rfl
  | succ j ih => rw [Nat.succ_add, readMany, readMany, ih]; rfl

end Pieces

theorem exists_packets {messages : List (List Char)}
    (hfits : ∀ message ∈ messages, (Utf8.encode message).length ≤ Decimal.maxWord) :
    ∃ packets : List Packet, packets.flatMap Packet.bytes = messages.flatMap write ∧
      packets.map (·.body) = messages.map Utf8.encode := by
  induction messages with
  | nil => exact ⟨[], rfl, rfl⟩
  | cons message messages ih =>
    obtain ⟨packets, hbytes, hbodies⟩ := ih fun m hm => hfits m (List.mem_cons_of_mem _ hm)
    have hfirst := hfits message List.mem_cons_self
    refine ⟨.ofMessage hfirst :: packets, ?_, ?_⟩
    · rw [List.flatMap_cons, List.flatMap_cons, Packet.bytes_ofMessage, hbytes]
    · rw [List.map_cons, List.map_cons, hbodies]
      rfl

/-- Whatever is written is read as it was, message by message, and then the stream has ended. The same
holds of any frames as long as each has one header with the length of its body: a body that is no text is
told as such, and the next reading begins with the next frame. -/
theorem frames_in_step :
    (∀ (messages : List (List Char)) (ps : Pieces),
      (∀ message ∈ messages, (Utf8.encode message).length ≤ Decimal.maxWord) →
      ps.flatten = messages.flatMap write →
      (ps.readMany (messages.length + 1)).1 = messages.map .ok ++ [.error .closed] ∧
        Fault.closed.isEnd = true ∧ Fault.closed.message = "Server closed connection") ∧
    (∀ (packets : List Packet) (rest : List UInt8) (ps : Pieces),
      ps.flatten = packets.flatMap Packet.bytes ++ rest →
      ∀ k (hk : k < packets.length),
        let body := packets[k].body
        let reader := (ps.readMany k).2
        reader.flatten = (packets.drop k).flatMap Packet.bytes ++ rest ∧
          (∀ message, reader.read.1 = .ok message ↔ body = Utf8.encode message) ∧
          ((∀ message, body ≠ Utf8.encode message) →
            ∃ fault, reader.read.1 = .error (.badText fault) ∧ (Fault.badText fault).isEnd = false) ∧
          reader.read.2.flatten = (packets.drop (k + 1)).flatMap Packet.bytes ++ rest) := by
  constructor
  · intro messages ps hfits hps
    refine ⟨?_, rfl, rfl⟩
    obtain ⟨packets, hbytes, hbodies⟩ := exists_packets hfits
    have hlength : messages.length = packets.length := by
      rw [← List.length_map Utf8.encode, ← hbodies, List.length_map]
    have hstream : ps.flatten = packets.flatMap Packet.bytes ++ [] := by
      rw [hps, hbytes, List.append_nil]
    obtain ⟨hread, hend⟩ := Prod.mk.inj (Pieces.readMany_packets packets [] hstream)
    have hmessages : packets.map (fun p => (Utf8.decode p.body).mapError Fault.badText) =
        messages.map .ok := by
      have h := congrArg (List.map fun body => (Utf8.decode body).mapError Fault.badText) hbodies
      rw [List.map_map, List.map_map] at h
      refine h.trans (List.map_congr_left fun message _ => ?_)
      rw [Function.comp_apply, Utf8.decode_encode]
      rfl
    have hclosed : ((ps.readMany packets.length).2.readMany 1).1 = [.error .closed] := by
      have hread := congrArg Prod.fst (Pieces.joined_read (ps.readMany packets.length).2)
      rw [hend, Framing.read, Framing.readHeaders] at hread
      exact congrArg (fun result => [result]) hread
    rw [hlength, Pieces.readMany_add, hread, hmessages, hclosed]
  · intro packets rest ps hps k hk body reader
    have hreader : reader.flatten = (packets.drop k).flatMap Packet.bytes ++ rest := by
      have hcut : ps.flatten = (packets.take k).flatMap Packet.bytes ++
          ((packets.drop k).flatMap Packet.bytes ++ rest) := by
        rw [← List.append_assoc, ← List.flatMap_append, List.take_append_drop, hps]
      have h := congrArg Prod.snd (Pieces.readMany_packets _ _ hcut)
      rwa [List.length_take_of_le (Nat.le_of_lt hk)] at h
    have hread := Pieces.joined_read reader
    rw [hreader, List.drop_eq_getElem_cons hk, List.flatMap_cons, List.append_assoc,
      Packet.read] at hread
    obtain ⟨hfirst, hleft⟩ := Prod.mk.inj hread
    refine ⟨hreader, fun message => ?_, fun hno => ?_, hleft⟩
    · rw [hfirst, ← Utf8.decode_eq_ok_iff]
      cases Utf8.decode packets[k].body <;> simp [Except.mapError]
    · rw [hfirst]
      cases hbody : Utf8.decode packets[k].body with
      | ok message => exact absurd (Utf8.decode_eq_ok_iff.mp hbody) (hno message)
      | error fault => exact ⟨fault, rfl, rfl⟩

theorem frames_in_step_of_odd_bodies :
    (let messages := ["".toList, "Content-Length: 1\r\n\r\nx".toList, "é\n".toList]
     let ps : Pieces := (messages.flatMap write).map fun b => [b]
     (ps.readMany 4).1 = messages.map .ok ++ [.error .closed]) ∧
    ∃ packet : Packet, packet.body = [0xFF, 0x0A] ∧
      let ps : Pieces := [packet.bytes, write "ok".toList]
      (∃ fault, ps.read.1 = .error (.badText fault)) ∧ ps.read.2.flatten = write "ok".toList := by
  obtain ⟨hmessages, hpackets⟩ := frames_in_step
  constructor
  · intro messages ps
    have hps : ps.flatten = messages.flatMap write := by
      rw [← List.flatMap_def, List.flatMap_singleton']
    exact (hmessages messages ps (by decide) hps).1
  · let packet : Packet :=
      { before := ["Content-Type: text/plain; charset=utf-8\r".toList]
        length := "  Content-Length:+02".toList
        after := ["X-Note: é".toList]
        blank := [' ', '\r']
        body := [0xFF, 0x0A]
        isOther_before := by
          simp only [List.mem_singleton, forall_eq]
          exact ⟨by decide, by decide, by decide⟩
        isLength := ⟨by decide, "+02".toList, by decide, "02".toList, by decide,
          List.all_eq_true.mp (by decide), by decide, .inr (by decide)⟩
        isOther_after := by
          simp only [List.mem_singleton, forall_eq]
          exact ⟨by decide, by decide, by decide⟩
        isBlank := ⟨by decide, by decide⟩
        fits := by decide }
    refine ⟨packet, rfl, ?_⟩
    intro ps
    obtain ⟨-, -, hbad, hleft⟩ :=
      hpackets [packet] (write "ok".toList) ps (by simp [ps]) 0 Nat.one_pos
    obtain ⟨fault, hfault, -⟩ := hbad fun message hmessage => by
      have hdecode := Utf8.decode_eq_ok_iff.mpr hmessage
      cases hdecode
    exact ⟨⟨fault, hfault⟩, hleft⟩

end Framing

end LanguageClient
