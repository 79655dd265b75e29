import LanguageClient.Proofs.Text.Bytes

namespace LanguageClient.Text

def cutsBreak (before after : List Char) : Bool :=
  before.getLast? == some '\r' && after.head? == some '\n'

def inBreak (cs : List Char) (n : Nat) : Bool :=
  match cut? n cs with
  | some (before, after) => cutsBreak before after
  | none => false

theorem inBreak_append (before after : List Char) :
    inBreak (before ++ after) (byteLength before) = cutsBreak before after := by
  rw [inBreak, cut?_eq_some_iff.mpr ⟨rfl, rfl⟩]

/-- A cut goes through the same break from one character further on, unless it is just behind it. -/
theorem cutsBreak_cons {c : Char} {before after : List Char}
    (h : before = [] → cutsBreak [c] after = false) :
    cutsBreak (c :: before) after = cutsBreak before after := by
  cases before with
  | nil => exact h rfl
  | cons b before => simp [cutsBreak]

theorem cutsBreak_singleton {c : Char} {cs : List Char} :
    cutsBreak [c] cs = true ↔ c = '\r' ∧ ∃ rest, cs = '\n' :: rest := by
  simp [cutsBreak, List.head?_eq_some_iff]

theorem isBoundary_iff {cs : List Char} {n : Nat} :
    IsBoundary cs n ↔ ∃ before after, cs = before ++ after ∧ byteLength before = n := by
  simp only [IsBoundary, Option.isSome_iff_exists, Prod.exists, cut?_eq_some_iff]

theorem le_of_isBoundary {cs : List Char} {n : Nat} (h : IsBoundary cs n) : n ≤ byteLength cs := by
  obtain ⟨before, after, rfl, rfl⟩ := isBoundary_iff.mp h
  rw [byteLength_append]
  exact Nat.le_add_right ..

theorem isBoundary_zero (cs : List Char) : IsBoundary cs 0 :=
  isBoundary_iff.mpr ⟨[], cs, rfl, rfl⟩

theorem isBoundary_append (front : List Char) {cs : List Char} {n : Nat} (h : IsBoundary cs n) :
    IsBoundary (front ++ cs) (byteLength front + n) := by
  obtain ⟨before, after, rfl, rfl⟩ := isBoundary_iff.mp h
  exact isBoundary_iff.mpr ⟨front ++ before, after, by simp, by simp⟩

theorem isBoundary_of_append {front cs : List Char} {n : Nat} (hle : byteLength front ≤ n)
    (h : IsBoundary (front ++ cs) n) : IsBoundary cs (n - byteLength front) := by
  obtain ⟨before, after, happend, rfl⟩ := isBoundary_iff.mp h
  obtain ⟨c, rfl, rfl⟩ := exists_of_append_eq happend hle
  exact isBoundary_iff.mpr ⟨c, after, rfl, by simp⟩

theorem isBoundary_front {front cs : List Char} {n : Nat} (cs' : List Char) (hle : n ≤ byteLength front)
    (h : IsBoundary (front ++ cs) n) : IsBoundary (front ++ cs') n := by
  obtain ⟨before, after, happend, rfl⟩ := isBoundary_iff.mp h
  obtain ⟨c, rfl, -⟩ := exists_of_append_eq happend.symm hle
  exact isBoundary_iff.mpr ⟨before, c ++ cs', by simp, rfl⟩

theorem takeBytes_append (before after : List Char) :
    takeBytes (byteLength before) (before ++ after) = before := by
  induction before with
  | nil =>
    cases after with
    | nil => rfl
    | cons c after => simp [takeBytes, Nat.ne_of_gt c.utf8Size_pos]
  | cons c before ih => simp [takeBytes, ih]

section Lines

def units : List Char → Nat
  | [] => 0
  | c :: cs => utf16Size c + units cs

@[simp] theorem units_cons (c : Char) (cs : List Char) : units (c :: cs) = utf16Size c + units cs :=
  rfl

theorem exists_last_line (cs : List Char) :
    '\n' ∉ cs ∨ ∃ above last, cs = above ++ '\n' :: last ∧ '\n' ∉ last := by
  induction cs with
  | nil => exact .inl List.not_mem_nil
  | cons c cs ih =>
    obtain hline | ⟨above, last, rfl, hlast⟩ := ih
    · by_cases hc : '\n' = c
      · exact .inr ⟨[], cs, by rw [hc, List.nil_append], hline⟩
      · exact .inl (List.not_mem_cons_of_ne_of_not_mem hc hline)
    · exact .inr ⟨c :: above, last, rfl, hlast⟩

theorem foldl_advance_line {cs : List Char} (h : '\n' ∉ cs) (p : Position) :
    cs.foldl advance p = ⟨p.line, p.character + units cs⟩ := by
  induction cs generalizing p with
  | nil => rfl
  | cons c cs ih =>
    have hc : c ≠ '\n' := (List.ne_of_not_mem_cons h).symm
    rw [List.foldl_cons, ih (List.not_mem_of_not_mem_cons h), advance, if_neg hc, units_cons,
      Nat.add_assoc]

theorem foldl_advance_lines (above : List Char) {last : List Char} (h : '\n' ∉ last)
    (p : Position) :
    (above ++ '\n' :: last).foldl advance p = ⟨p.line + (above.count '\n' + 1), units last⟩ := by
  induction above generalizing p with
  | nil =>
    rw [List.nil_append, List.foldl_cons, foldl_advance_line h]
    simp [advance]
  | cons c above ih =>
    rw [List.cons_append, List.foldl_cons, ih, advance]
    split
    next hc => simp [hc, Nat.add_assoc, Nat.add_comm 1]
    next hc => simp [hc]

theorem lineOffset_append (above rest : List Char) (line column : Nat) :
    lineOffset (above ++ rest) (above.count '\n' + line + 1) column =
      byteLength above + lineOffset rest (line + 1) column := by
  induction above with
  | nil => simp
  | cons c above ih =>
    by_cases hc : c = '\n'
    · have hcount : (c :: above).count '\n' + line = above.count '\n' + line + 1 := by
        simp [hc, Nat.add_right_comm]
      rw [hcount, List.cons_append, lineOffset, if_pos hc, ih, byteLength_cons, Nat.add_assoc]
    · have hcount : (c :: above).count '\n' = above.count '\n' := by simp [hc]
      rw [hcount, List.cons_append, lineOffset, if_neg hc, ih, byteLength_cons, Nat.add_assoc]

theorem utf16Size_pos (c : Char) : 0 < utf16Size c := by
  unfold utf16Size
  split <;> decide

theorem columnOffset_cons {c : Char} {cs : List Char} (hfeed : c ≠ '\n')
    (hbreak : cutsBreak [c] cs = false) (column : Nat) :
    columnOffset (c :: cs) column =
      if utf16Size c ≤ column then c.utf8Size + columnOffset cs (column - utf16Size c) else 0 := by
  rw [columnOffset]
  · exact hfeed
  · rintro rest rfl rfl
    cases hbreak

theorem columnOffset_zero (cs : List Char) : columnOffset cs 0 = 0 := by
  rw [columnOffset.eq_def]
  split
  · rfl
  · rfl
  · rfl
  next c _ _ _ => exact if_neg (Nat.not_le_of_gt (utf16Size_pos c))

theorem columnOffset_append {cs : List Char} (h : '\n' ∉ cs) (after : List Char) :
    columnOffset (cs ++ after) (units cs) + (cutsBreak cs after).toNat = byteLength cs := by
  induction cs with
  | nil => simp [units, columnOffset_zero, cutsBreak]
  | cons c cs ih =>
    have hfeed : c ≠ '\n' := (List.ne_of_not_mem_cons h).symm
    have hcs : '\n' ∉ cs := List.not_mem_of_not_mem_cons h
    cases hbreak : cutsBreak [c] (cs ++ after) with
    | true =>
      obtain ⟨rfl, rest, hrest⟩ := cutsBreak_singleton.mp hbreak
      -- the line has no line feed, so the break begins with its last character
      cases cs with
      | cons c' cs =>
        cases hrest
        exact absurd List.mem_cons_self hcs
      | nil =>
        obtain rfl : after = '\n' :: rest := hrest
        rfl
    | false =>
      have hcut : cutsBreak (c :: cs) after = cutsBreak cs after :=
        cutsBreak_cons fun hnil => by rwa [hnil, List.nil_append] at hbreak
      rw [List.cons_append, columnOffset_cons hfeed hbreak, units_cons,
        if_pos (Nat.le_add_right ..), Nat.add_sub_cancel_left, hcut, Nat.add_assoc, ih hcs,
        byteLength_cons]

end Lines

section Fit

def placeFits (text : String) (n : Nat) : Bool :=
  let p := placeAfter (takeBytes n text.toList)
  p.line < word32 && p.character < word32

/-- The lines of a text, and the columns of each line, can be counted with 32 bits. -/
def LinesFit (text : String) : Prop :=
  ∀ n, placeFits text n = true

theorem positionAt_of_placeFits {text : String} {n : Nat} (h : placeFits text n = true) :
    positionAt text n = placeAfter (takeBytes n text.toList) := by
  obtain ⟨hline, hcharacter⟩ := Bool.and_eq_true_iff.mp h
  rw [positionAt, Position.wrap, Nat.mod_eq_of_lt (of_decide_eq_true hline),
    Nat.mod_eq_of_lt (of_decide_eq_true hcharacter)]

theorem foldl_advance_le (cs : List Char) (p : Position) :
    (cs.foldl advance p).line ≤ p.line + cs.length ∧
      (cs.foldl advance p).character ≤ p.character + 2 * cs.length := by
  induction cs generalizing p with
  | nil => exact ⟨Nat.le_refl _, Nat.le_refl _⟩
  | cons c cs ih =>
    obtain ⟨hline, hcharacter⟩ := ih (advance p c)
    have hstep : (advance p c).line ≤ p.line + 1 ∧ (advance p c).character ≤ p.character + 2 := by
      rw [advance, utf16Size]
      split <;> try split
      all_goals simp
    rw [List.foldl_cons, List.length_cons]
    omega

theorem length_takeBytes_le (n : Nat) (cs : List Char) : (takeBytes n cs).length ≤ cs.length := by
  fun_induction takeBytes n cs with
  | case1 => exact Nat.le_refl 0
  | case2 n c cs hle ih => exact Nat.succ_le_succ ih
  | case3 n c cs hlt => exact Nat.zero_le _

theorem linesFit_of_length {text : String} (h : 2 * text.toList.length < word32) : LinesFit text := by
  intro n
  obtain ⟨hline, hcharacter⟩ := foldl_advance_le (takeBytes n text.toList) ⟨0, 0⟩
  have hlength := length_takeBytes_le n text.toList
  rw [Nat.zero_add] at hline hcharacter
  rw [placeFits, Bool.and_eq_true_iff, placeAfter]
  exact ⟨decide_eq_true (by omega), decide_eq_true (by omega)⟩

end Fit

theorem offsetAt_positionAt_append {text : String} {before after : List Char}
    (h : text.toList = before ++ after) (hfits : placeFits text (byteLength before) = true) :
    offsetAt text (positionAt text (byteLength before)) + (cutsBreak before after).toNat =
      byteLength before := by
  rw [positionAt_of_placeFits hfits, offsetAt, placeAfter, h, takeBytes_append]
  obtain hline | ⟨above, last, rfl, hlast⟩ := exists_last_line before
  · rw [foldl_advance_line hline]
    simpa [lineOffset] using columnOffset_append hline after
  · have hcut : cutsBreak (above ++ '\n' :: last) after = cutsBreak last after := by
      cases last <;> simp [cutsBreak, List.getLast?_cons]
    have hfeed : lineOffset ('\n' :: (last ++ after)) 1 (units last) =
        '\n'.utf8Size + columnOffset (last ++ after) (units last) := by
      rw [lineOffset, if_pos rfl, lineOffset]
    rw [foldl_advance_lines above hlast, Nat.zero_add, List.append_assoc, List.cons_append,
      lineOffset_append above _ 0, hfeed, hcut, Nat.add_assoc, Nat.add_assoc,
      columnOffset_append hlast, byteLength_append, byteLength_cons]

theorem offsetAt_positionAt {text : String} {n : Nat} (hn : IsBoundary text.toList n)
    (hfits : placeFits text n = true) (h : inBreak text.toList n = false) :
    offsetAt text (positionAt text n) = n := by
  obtain ⟨before, after, htext, rfl⟩ := isBoundary_iff.mp hn
  rw [htext, inBreak_append] at h
  have hback := offsetAt_positionAt_append htext hfits
  rw [h] at hback
  exact hback

theorem isBoundary_columnOffset (cs : List Char) (units : Nat) :
    IsBoundary cs (columnOffset cs units) := by
  fun_induction columnOffset cs units with
  | case4 c cs units _ _ _ ih => exact isBoundary_append [c] ih
  | _ => exact isBoundary_zero _

theorem isBoundary_lineOffset (cs : List Char) (line units : Nat) :
    IsBoundary cs (lineOffset cs line units) := by
  fun_induction lineOffset cs line units with
  | case1 cs units => exact isBoundary_columnOffset cs units
  | case2 => exact isBoundary_zero _
  | case3 c cs line units ih => exact isBoundary_append [c] ih

theorem isBoundary_offsetAt (text : String) (p : Position) :
    IsBoundary text.toList (offsetAt text p) :=
  isBoundary_lineOffset text.toList p.line p.character

section Break

theorem inBreak_zero (cs : List Char) : inBreak cs 0 = false :=
  inBreak_append [] cs

theorem inBreak_cons {c : Char} {cs : List Char} {n : Nat} (hn : IsBoundary cs n)
    (h : inBreak cs n = false) (hfirst : n = 0 → cutsBreak [c] cs = false) :
    inBreak (c :: cs) (c.utf8Size + n) = false := by
  obtain ⟨before, after, rfl, rfl⟩ := isBoundary_iff.mp hn
  rw [inBreak_append] at h
  refine (inBreak_append (c :: before) after).trans ?_
  rw [cutsBreak_cons, h]
  rintro rfl
  exact hfirst rfl

theorem inBreak_columnOffset (cs : List Char) (units : Nat) :
    inBreak cs (columnOffset cs units) = false := by
  fun_induction columnOffset cs units with
  | case4 c cs units hfeed hbreak hle ih =>
    refine inBreak_cons (isBoundary_columnOffset cs _) ih fun _ => ?_
    rw [← Bool.not_eq_true, cutsBreak_singleton]
    rintro ⟨rfl, rest, rfl⟩
    exact hbreak rest rfl rfl
  | _ => exact inBreak_zero _

theorem inBreak_lineOffset (cs : List Char) (line units : Nat) :
    inBreak cs (lineOffset cs line units) = false := by
  fun_induction lineOffset cs line units with
  | case1 cs units => exact inBreak_columnOffset cs units
  | case2 => exact inBreak_zero _
  | case3 c cs line units ih =>
    refine inBreak_cons (isBoundary_lineOffset cs _ units) ih fun hzero => ?_
    rw [← Bool.not_eq_true, cutsBreak_singleton]
    rintro ⟨rfl, rest, rfl⟩
    -- the line that is sought is below the break, so the way to it leads past the line feed
    rw [if_neg (by decide), lineOffset] at hzero
    exact absurd hzero (Nat.ne_of_gt (Nat.add_pos_left (by decide) _))

theorem inBreak_offsetAt (text : String) (p : Position) :
    inBreak text.toList (offsetAt text p) = false :=
  inBreak_lineOffset text.toList p.line p.character

end Break

end LanguageClient.Text
