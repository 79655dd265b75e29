import LanguageClient.Proofs.Text.Position
import Mathlib.Order.Bounds.Basic

namespace LanguageClient.Text

variable {text : String} {cs : List Char} {m n : Nat}

theorem exists_takeBytes (n : Nat) (cs : List Char) : ∃ rest, cs = takeBytes n cs ++ rest := by
  fun_induction takeBytes n cs with
  | case1 => exact ⟨[], rfl⟩
  | case2 n c cs _ ih =>
    obtain ⟨rest, hrest⟩ := ih
    exact ⟨rest, congrArg (c :: ·) hrest⟩
  | case3 n c cs => exact ⟨c :: cs, rfl⟩

theorem utf8Size_le_of_isBoundary {c : Char} (h : IsBoundary (c :: cs) m) (hm : 0 < m) :
    c.utf8Size ≤ m := by
  obtain ⟨before, after, hsplit, rfl⟩ := isBoundary_iff.mp h
  cases before with
  | nil => exact absurd hm (Nat.lt_irrefl 0)
  | cons b before =>
    obtain ⟨rfl, -⟩ := List.cons.inj hsplit
    exact Nat.le_add_right _ _

theorem byteLength_takeBytes_le (n : Nat) (cs : List Char) : byteLength (takeBytes n cs) ≤ n := by
  fun_induction takeBytes n cs with
  | case2 n c cs hle ih => exact Nat.add_le_of_le_sub' hle ih
  | _ => exact Nat.zero_le _

theorem le_byteLength_takeBytes (h : IsBoundary cs m) (hle : m ≤ n) : m ≤ byteLength (takeBytes n cs) := by
  fun_induction takeBytes n cs generalizing m with
  | case1 => exact le_of_isBoundary h
  | case2 n c cs hc ih =>
    obtain rfl | hpos := Nat.eq_zero_or_pos m
    · exact Nat.zero_le _
    · have hm : byteLength [c] ≤ m := utf8Size_le_of_isBoundary h hpos
      have hrest := ih (isBoundary_of_append hm h) (Nat.sub_le_sub_right hle _)
      exact Nat.sub_le_iff_le_add'.mp hrest
  | case3 n c cs hc =>
    refine Nat.le_of_not_lt fun hpos => hc ?_
    exact Nat.le_trans (utf8Size_le_of_isBoundary h hpos) hle

theorem isGreatest_takeBytes (n : Nat) (cs : List Char) :
    IsGreatest {k | IsBoundary cs k ∧ k ≤ min n (byteLength cs)} (byteLength (takeBytes n cs)) := by
  obtain ⟨rest, hrest⟩ := exists_takeBytes n cs
  have hboundary : IsBoundary cs (byteLength (takeBytes n cs)) :=
    isBoundary_iff.mpr ⟨_, rest, hrest, rfl⟩
  refine ⟨⟨hboundary, Nat.le_min.mpr ⟨byteLength_takeBytes_le n cs, le_of_isBoundary hboundary⟩⟩, ?_⟩
  rintro k ⟨hk, hle⟩
  exact le_byteLength_takeBytes hk (Nat.le_trans hle (Nat.min_le_left _ _))

theorem positionAt_of_isGreatest
    (h : IsGreatest {k | IsBoundary text.toList k ∧ k ≤ min n (size text)} m) :
    positionAt text n = positionAt text m := by
  obtain ⟨rest, hrest⟩ := exists_takeBytes n text.toList
  have hfloor := takeBytes_append (takeBytes n text.toList) rest
  rw [← hrest] at hfloor
  rw [positionAt, positionAt, h.unique (isGreatest_takeBytes n text.toList), hfloor]

theorem offsetAt_positionAt_of_isBoundary (h : IsBoundary text.toList n)
    (hfits : placeFits text n = true) :
    offsetAt text (positionAt text n) = if inBreak text.toList n then n - 1 else n := by
  obtain ⟨before, after, htext, rfl⟩ := isBoundary_iff.mp h
  have hback := offsetAt_positionAt_append htext hfits
  rw [htext, inBreak_append]
  split
  next hbreak =>
    rw [hbreak] at hback
    exact Nat.eq_sub_of_add_eq hback
  next hbreak =>
    rw [Bool.not_eq_true] at hbreak
    rwa [hbreak] at hback

theorem positionAt_offsetAt_iff (hfits : LinesFit text) {p : Position} :
    positionAt text (offsetAt text p) = p ↔
      ∃ n, IsBoundary text.toList n ∧ inBreak text.toList n = false ∧ positionAt text n = p := by
  constructor
  · intro hback
    exact ⟨offsetAt text p, isBoundary_offsetAt text p, inBreak_offsetAt text p, hback⟩
  · rintro ⟨n, hn, hbreak, rfl⟩
    rw [offsetAt_positionAt hn (hfits n) hbreak]

/-- Offsets and positions lead to each other, if 32 bits are enough for the lines and columns. A boundary
is found again from its position, or the place before the line break if it lies within one; any other
offset counts as the last boundary before it. What a position leads to is found again, and the position
too if it is that of a boundary that is. -/
theorem offset_position_round_trip (text : String) (hfits : LinesFit text) :
    (∀ n, IsBoundary text.toList n →
        offsetAt text (positionAt text n) = if inBreak text.toList n then n - 1 else n) ∧
      (∀ n, ∃ m, IsGreatest {k | IsBoundary text.toList k ∧ k ≤ min n (size text)} m ∧
        positionAt text n = positionAt text m) ∧
      ∀ p, offsetAt text (positionAt text (offsetAt text p)) = offsetAt text p ∧
        (positionAt text (offsetAt text p) = p ↔
          ∃ n, IsBoundary text.toList n ∧ inBreak text.toList n = false ∧ positionAt text n = p) := by
  refine ⟨fun n hn => offsetAt_positionAt_of_isBoundary hn (hfits n), fun n => ?_, fun p => ⟨?_, ?_⟩⟩
  · have hfloor := isGreatest_takeBytes n text.toList
    exact ⟨_, hfloor, positionAt_of_isGreatest hfloor⟩
  · exact offsetAt_positionAt (isBoundary_offsetAt text p) (hfits _) (inBreak_offsetAt text p)
  · exact positionAt_offsetAt_iff hfits

theorem offset_position_round_trip_of_break :
    let text := "é\r\n😀"
    IsBoundary text.toList 3 ∧ inBreak text.toList 3 = true ∧
      offsetAt text (positionAt text 3) = 2 ∧
      offsetAt text (positionAt text (offsetAt text ⟨1, 1⟩)) = offsetAt text ⟨1, 1⟩ ∧
      ¬ ∃ n, IsBoundary text.toList n ∧ inBreak text.toList n = false ∧ positionAt text n = ⟨1, 1⟩ := by
  intro text
  obtain ⟨hboundary, -, hposition⟩ :=
    offset_position_round_trip text (linesFit_of_length (by decide))
  have hthree : IsBoundary "é\r\n😀".toList 3 := rfl
  have hbreak : inBreak text.toList 3 = true := by decide
  have hbefore := hboundary 3 hthree
  rw [hbreak] at hbefore
  obtain ⟨hback, hiff⟩ := hposition ⟨1, 1⟩
  have hinside : positionAt text (offsetAt text ⟨1, 1⟩) ≠ ⟨1, 1⟩ := by decide
  exact ⟨hthree, hbreak, hbefore, hback, fun h => hinside (hiff.mpr h)⟩

end LanguageClient.Text
