import LanguageClient.Transport.Framing

namespace LanguageClient.Framing

/-- What the buffer holds, and what each later filling of it brings. -/
abbrev Pieces := List (List UInt8)

section Split

variable {front : List UInt8}

theorem splitLine_append_of_mem (h : newline ∈ front) (back : List UInt8) :
    splitLine (front ++ back) = ((splitLine front).1, (splitLine front).2 ++ back) := by
  induction front with
  | nil => cases h
  | cons b rest ih =>
    by_cases hb : b = newline
    · simp [splitLine, hb]
    · have hrest : newline ∈ rest := (List.mem_cons.mp h).resolve_left (Ne.symm hb)
      simp [splitLine, hb, ih hrest]

theorem splitLine_append_of_not_mem (h : newline ∉ front) (back : List UInt8) :
    splitLine (front ++ back) = (front ++ (splitLine back).1, (splitLine back).2) := by
  induction front with
  | nil => rfl
  | cons b rest ih =>
    obtain ⟨hb, hrest⟩ := not_or.mp (mt List.mem_cons.mpr h)
    simp [splitLine, Ne.symm hb, ih hrest]

end Split

namespace Pieces

def readLine : Pieces → List UInt8 × Pieces
  | [] => ([], [])
  | piece :: more =>
    if newline ∈ piece then ((splitLine piece).1, (splitLine piece).2 :: more)
    else (piece ++ (readLine more).1, (readLine more).2)

def readExact : Nat → Pieces → Option (List UInt8 × Pieces)
  | n, [] => if n = 0 then some ([], []) else none
  | n, piece :: more =>
    if n ≤ piece.length then some (piece.take n, piece.drop n :: more)
    else (readExact (n - piece.length) more).map fun r => (piece ++ r.1, r.2)

theorem splitLine_flatten (ps : Pieces) :
    splitLine ps.flatten = ((readLine ps).1, (readLine ps).2.flatten) := by
  induction ps with
  | nil => rfl
  | cons piece more ih =>
    rw [readLine, List.flatten_cons]
    split
    next hmem => exact splitLine_append_of_mem hmem _
    next hmem => rw [splitLine_append_of_not_mem hmem, ih]

theorem length_readLine {ps : Pieces} (h : (readLine ps).1 ≠ []) :
    (readLine ps).2.flatten.length < ps.flatten.length := by
  have hsplit : (readLine ps).1.length + (readLine ps).2.flatten.length = ps.flatten.length := by
    rw [← List.length_append, ← splitLine_append ps.flatten, splitLine_flatten]
  have hpos := List.length_pos_iff.mpr h
  omega

def readHeaders (found : Option Nat) (ps : Pieces) : Except Fault Nat × Pieces :=
  if _ : (readLine ps).1 = [] then (.error .closed, (readLine ps).2)
  else
    match Header.ofLine (readLine ps).1 with
    | .error fault => (.error fault, (readLine ps).2)
    | .ok .blank => (match found with | some n => .ok n | none => .error .noLength, (readLine ps).2)
    | .ok (.length n) => readHeaders (some n) (readLine ps).2
    | .ok .other => readHeaders found (readLine ps).2
termination_by ps.flatten.length
decreasing_by all_goals exact length_readLine ‹_›

def read (ps : Pieces) : Except Fault (List Char) × Pieces :=
  match readHeaders none ps with
  | (.error fault, rest) => (.error fault, rest)
  | (.ok n, rest) =>
    match readExact n rest with
    | none => (.error .bodyCutShort, [])
    | some (body, rest) => ((Utf8.decode body).mapError .badText, rest)

def readMany : Nat → Pieces → List (Except Fault (List Char)) × Pieces
  | 0, ps => ([], ps)
  | k + 1, ps => ((read ps).1 :: (readMany k (read ps).2).1, (readMany k (read ps).2).2)

end Pieces

end LanguageClient.Framing
