import LanguageClient.Proofs.Text.Order
import LanguageClient.Workspace.Mapping

namespace LanguageClient.Text

variable {c : Char} {cs above held below : List Char} {number column : Nat}

inductive EndsLine : List Char → Prop
  | ofText : EndsLine []
  | feed (rest : List Char) : EndsLine ('\n' :: rest)
  | returnFeed (rest : List Char) : EndsLine ('\r' :: '\n' :: rest)

/-- A line of a text by its number: what is above it, what it holds, and what comes behind it. -/
structure LineAt (cs : List Char) (number : Nat) where
  above : List Char
  held : List Char
  below : List Char
  split : cs = above ++ held ++ below
  begins : ∀ c ∈ above.getLast?, c = '\n'
  numbered : above.count '\n' = number
  unbroken : '\n' ∉ held
  ends : EndsLine below
  whole : cutsBreak held below = false

namespace LineAt

variable (line : LineAt cs number)

def start : Nat :=
  byteLength line.above

def stop : Nat :=
  line.start + byteLength line.held

end LineAt

section Existence

theorem exists_first_line (cs : List Char) :
    ∃ held below, cs = held ++ below ∧ '\n' ∉ held ∧ EndsLine below ∧
      cutsBreak held below = false := by
  induction cs with
  | nil => exact ⟨[], [], rfl, List.not_mem_nil, .ofText, rfl⟩
  | cons c cs ih =>
    by_cases hfeed : c = '\n'
    · exact ⟨[], c :: cs, rfl, List.not_mem_nil, hfeed ▸ .feed cs, rfl⟩
    · cases hbreak : cutsBreak [c] cs with
      | true =>
        obtain ⟨rfl, rest, rfl⟩ := cutsBreak_singleton.mp hbreak
        exact ⟨[], _, rfl, List.not_mem_nil, .returnFeed rest, rfl⟩
      | false =>
        obtain ⟨held, below, rfl, hheld, hends, hwhole⟩ := ih
        refine ⟨c :: held, below, rfl, List.not_mem_cons_of_ne_of_not_mem (Ne.symm hfeed) hheld, hends, ?_⟩
        rw [cutsBreak_cons, hwhole]
        rintro rfl
        exact hbreak

theorem nonempty_first_line (cs : List Char) : Nonempty (LineAt cs 0) := by
  obtain ⟨held, below, hsplit, hheld, hends, hwhole⟩ := exists_first_line cs
  exact ⟨⟨[], held, below, hsplit, nofun, rfl, hheld, hends, hwhole⟩⟩

theorem getLast?_cons_above (h : ∀ x ∈ above.getLast?, x = '\n') (hc : above = [] → c = '\n') :
    ∀ x ∈ (c :: above).getLast?, x = '\n' := by
  cases above with
  | nil =>
    rintro x ⟨⟩
    exact hc rfl
  | cons a above => simpa [List.getLast?_cons_cons] using h

def LineAt.cons {number' : Nat} (line : LineAt cs number) (h : line.above = [] → c = '\n')
    (hnumber : (c :: line.above).count '\n' = number') : LineAt (c :: cs) number' :=
  { line with
    above := c :: line.above
    split := congrArg (c :: ·) line.split
    begins := getLast?_cons_above line.begins h
    numbered := hnumber }

theorem nonempty_lineAt_iff : Nonempty (LineAt cs number) ↔ number ≤ cs.count '\n' := by
  constructor
  · rintro ⟨line⟩
    rw [line.split, List.append_assoc, List.count_append, line.numbered]
    exact Nat.le_add_right _ _
  · intro h
    induction cs generalizing number with
    | nil =>
      obtain rfl := Nat.le_zero.mp h
      exact nonempty_first_line []
    | cons c cs ih =>
      cases number with
      | zero => exact nonempty_first_line (c :: cs)
      | succ number =>
        by_cases hc : c = '\n'
        · obtain ⟨line⟩ : Nonempty (LineAt cs number) := ih (by simpa [hc] using h)
          refine ⟨line.cons (fun _ => hc) ?_⟩
          rw [hc, List.count_cons_self, line.numbered]
        · obtain ⟨line⟩ : Nonempty (LineAt cs (number + 1)) := ih (by simpa [hc] using h)
          have habove : line.above ≠ [] := by
            intro hnil
            have := line.numbered
            rw [hnil] at this
            cases this
          refine ⟨line.cons (fun hnil => absurd hnil habove) ?_⟩
          rw [List.count_cons_of_ne hc, line.numbered]

end Existence

section Clamp

theorem lineOffset_above (h : ∀ c ∈ above.getLast?, c = '\n') (rest : List Char) (column : Nat) :
    lineOffset (above ++ rest) (above.count '\n') column =
      byteLength above + columnOffset rest column := by
  cases hlast : above.getLast? with
  | none =>
    obtain rfl := List.getLast?_eq_none_iff.mp hlast
    simp [lineOffset]
  | some c =>
    obtain rfl := h c hlast
    obtain ⟨front, rfl⟩ := List.getLast?_eq_some_iff.mp hlast
    have hfront := lineOffset_append front ('\n' :: rest) 0 column
    rw [Nat.add_zero, lineOffset, if_pos rfl, lineOffset] at hfront
    rw [List.append_assoc, List.count_append, byteLength_append, Nat.add_assoc]
    exact hfront

theorem columnOffset_le_held (hheld : '\n' ∉ held) (hends : EndsLine below) (column : Nat) :
    columnOffset (held ++ below) column ≤ byteLength held := by
  induction held generalizing column with
  | nil => cases hends <;> exact Nat.le_refl 0
  | cons c held ih =>
    have hfeed : c ≠ '\n' := (List.ne_of_not_mem_cons hheld).symm
    have hrest := ih (List.not_mem_of_not_mem_cons hheld)
    cases hbreak : cutsBreak [c] (held ++ below) with
    | true =>
      obtain ⟨rfl, rest, hrest⟩ := cutsBreak_singleton.mp hbreak
      rw [List.cons_append, hrest]
      exact Nat.zero_le _
    | false =>
      rw [List.cons_append, columnOffset_cons hfeed hbreak]
      split
      · exact Nat.add_le_add_left (hrest _) _
      · exact Nat.zero_le _

theorem LineAt.bounds (line : LineAt cs number) (column : Nat) :
    line.start ≤ lineOffset cs number column ∧ lineOffset cs number column ≤ line.stop := by
  obtain ⟨above, held, below, rfl, hbegins, rfl, hheld, hends, -⟩ := line
  dsimp only [start, stop]
  rw [List.append_assoc, lineOffset_above hbegins]
  exact ⟨Nat.le_add_right _ _, Nat.add_le_add_left (columnOffset_le_held hheld hends column) _⟩

theorem lineOffset_of_count_lt (h : cs.count '\n' < number) (column : Nat) :
    lineOffset cs number column = byteLength cs := by
  induction cs generalizing number with
  | nil =>
    cases number with
    | zero => exact absurd h (Nat.lt_irrefl 0)
    | succ number => rfl
  | cons c cs ih =>
    cases number with
    | zero => exact absurd h (Nat.not_lt_zero _)
    | succ number =>
      rw [lineOffset, byteLength_cons, ih]
      split
      next hc => simpa [hc] using h
      next hc => simpa [hc] using h

end Clamp

/-- A position leads to a place between two characters and not within a line break. It is on the line of
the position, or at the end of the text if there is no such line. Positions in order lead to places in
order, so that no range of positions in order is refused as inverted. -/
theorem offsetAt_clamps (text : String) (p : Position) :
    IsBoundary text.toList (offsetAt text p) ∧ offsetAt text p ≤ size text ∧
      inBreak text.toList (offsetAt text p) = false ∧
      (Nonempty (LineAt text.toList p.line) ↔ p.line ≤ text.toList.count '\n') ∧
      (∀ line : LineAt text.toList p.line,
        line.start ≤ offsetAt text p ∧ offsetAt text p ≤ line.stop) ∧
      (text.toList.count '\n' < p.line → offsetAt text p = size text) ∧
      (∀ q, p ≤ q → offsetAt text p ≤ offsetAt text q) ∧
      ∀ (uri : String) (d : Delta) (e : TextEdit), e.range.start ≤ e.range.stop →
        ∃ rebased, Mapping.rebase uri text d e = .ok rebased := by
  refine ⟨isBoundary_offsetAt text p, le_of_isBoundary (isBoundary_offsetAt text p),
    inBreak_offsetAt text p, nonempty_lineAt_iff, ?_, ?_, ?_, ?_⟩
  · intro line
    exact line.bounds p.character
  · intro h
    exact lineOffset_of_count_lt h p.character
  · intro q
    exact offsetAt_mono text
  · intro uri d e h
    exact ⟨_, if_neg (Nat.not_lt_of_le (offsetAt_mono text h))⟩

theorem offsetAt_clamps_of_line_break :
    (⟨0, 3⟩ : Position) ≤ ⟨1, 1⟩ ∧ offsetAt "ab\r\n😀" ⟨0, 3⟩ ≤ 2 ∧
      offsetAt "ab\r\n😀" ⟨0, 3⟩ ≤ offsetAt "ab\r\n😀" ⟨1, 1⟩ ∧
      (∃ rebased, Mapping.rebase "u" "ab\r\n😀" .empty ⟨⟨⟨0, 3⟩, ⟨1, 1⟩⟩, "x"⟩ = .ok rebased) ∧
      "ab\r\n😀".toList.count '\n' < 2 ∧ offsetAt "ab\r\n😀" ⟨2, 0⟩ = size "ab\r\n😀" := by
  have hle : (⟨0, 3⟩ : Position) ≤ ⟨1, 1⟩ := by decide
  have hlast : "ab\r\n😀".toList.count '\n' < 2 := by decide
  let line : LineAt "ab\r\n😀".toList 0 :=
    { above := []
      held := ['a', 'b']
      below := ['\r', '\n', '😀']
      split := rfl
      begins := nofun
      numbered := rfl
      unbroken := by decide
      ends := .returnFeed ['😀']
      whole := by decide }
  have hstop : line.stop = 2 := rfl
  obtain ⟨-, -, -, -, hline, -, hmono, hrebase⟩ := offsetAt_clamps "ab\r\n😀" ⟨0, 3⟩
  obtain ⟨-, -, -, -, -, hend, -, -⟩ := offsetAt_clamps "ab\r\n😀" ⟨2, 0⟩
  exact ⟨hle, hstop ▸ (hline line).2, hmono ⟨1, 1⟩ hle,
    hrebase "u" .empty ⟨⟨⟨0, 3⟩, ⟨1, 1⟩⟩, "x"⟩ hle, hlast, hend hlast⟩

end LanguageClient.Text
