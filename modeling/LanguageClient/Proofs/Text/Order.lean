import LanguageClient.Proofs.Text.Position

namespace LanguageClient

/-- Positions are ordered by line, and within a line by column. -/
instance : LE Position :=
  ⟨fun p q => p.line < q.line ∨ p.line = q.line ∧ p.character ≤ q.character⟩

instance (p q : Position) : Decidable (p ≤ q) :=
  inferInstanceAs (Decidable (_ ∨ _))

namespace Text

variable {m n line line' : Nat}

theorem columnOffset_mono (cs : List Char) (h : m ≤ n) : columnOffset cs m ≤ columnOffset cs n := by
  fun_induction columnOffset cs m generalizing n with
  | case4 c cs m hfeed hbreak hle ih =>
    rw [columnOffset, if_pos (Nat.le_trans hle h)]
    · exact Nat.add_le_add_left (ih (Nat.sub_le_sub_right h _)) _
    · exact hfeed
    · exact hbreak
  | _ => exact Nat.zero_le _

theorem columnOffset_le_lineOffset (cs : List Char) (m line n : Nat) :
    columnOffset cs m ≤ lineOffset cs (line + 1) n := by
  fun_induction columnOffset cs m with
  | case4 c cs m hfeed hbreak hle ih =>
    rw [lineOffset, if_neg hfeed]
    exact Nat.add_le_add_left ih _
  | _ => exact Nat.zero_le _

theorem lineOffset_le_of_lt (cs : List Char) (m n : Nat) (h : line < line') :
    lineOffset cs line m ≤ lineOffset cs line' n := by
  obtain ⟨line', rfl⟩ := Nat.exists_eq_succ_of_ne_zero (Nat.ne_zero_of_lt h)
  induction cs generalizing line line' with
  | nil => cases line <;> exact Nat.zero_le _
  | cons c cs ih =>
    cases line with
    | zero => exact columnOffset_le_lineOffset (c :: cs) m line' n
    | succ line =>
      rw [lineOffset, lineOffset]
      apply Nat.add_le_add_left
      split
      next =>
        -- below a line feed both lines are counted from the next one
        cases line' with
        | zero => exact absurd (Nat.lt_of_succ_lt_succ h) (Nat.not_lt_zero line)
        | succ line' => exact ih line' (Nat.lt_of_succ_lt_succ h)
      next => exact ih line' h

theorem lineOffset_mono (cs : List Char) (line : Nat) (h : m ≤ n) :
    lineOffset cs line m ≤ lineOffset cs line n := by
  induction cs generalizing line with
  | nil =>
    cases line with
    | zero => exact columnOffset_mono [] h
    | succ line => exact Nat.le_refl 0
  | cons c cs ih =>
    cases line with
    | zero => exact columnOffset_mono (c :: cs) h
    | succ line =>
      rw [lineOffset, lineOffset]
      exact Nat.add_le_add_left (ih _) _

theorem offsetAt_mono (text : String) {p q : Position} (h : p ≤ q) :
    offsetAt text p ≤ offsetAt text q := by
  obtain hline | ⟨hline, hcolumn⟩ := h
  · exact lineOffset_le_of_lt text.toList p.character q.character hline
  · rw [offsetAt, offsetAt, hline]
    exact lineOffset_mono text.toList q.line hcolumn

end Text

end LanguageClient
