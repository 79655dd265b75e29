import LanguageClient.Delta.Compose

namespace LanguageClient.Span

variable {α : Type}

def front : Span → List (Option α) → List (Option α)
  | kept n, xs => xs.take n
  | replaced _ i, _ => List.replicate i none

/-- The places of the new document, where `none` is one that was inserted. -/
def image : List Span → List (Option α) → List (Option α)
  | [], _ => []
  | s :: rest, xs => s.front xs ++ image rest (xs.drop s.oldLength)

theorem length_front (s : Span) (xs : List (Option α)) (h : s.oldLength ≤ xs.length) :
    (s.front xs).length = s.newLength := by
  cases s with
  | kept n =>
    have : n ≤ xs.length := h
    simp [front, newLength, this]
  | replaced d i => simp [front, newLength]

theorem length_image (spans : List Span) (xs : List (Option α)) (h : oldTotal spans ≤ xs.length) :
    (image spans xs).length = newTotal spans := by
  induction spans generalizing xs with
  | nil => rfl
  | cons s rest ih =>
    simp only [oldTotal] at h
    have hrest : oldTotal rest ≤ (xs.drop s.oldLength).length := by simp; omega
    simp [image, newTotal, length_front s xs (by omega), ih _ hrest]

@[simp] theorem oldTotal_cons (s : Span) (rest : List Span) :
    oldTotal (cons s rest) = s.oldLength + oldTotal rest := by
  fun_cases cons s rest <;> simp [oldTotal, oldLength] <;> omega

@[simp] theorem newTotal_cons (s : Span) (rest : List Span) :
    newTotal (cons s rest) = s.newLength + newTotal rest := by
  fun_cases cons s rest <;> simp [newTotal, newLength] <;> omega

@[simp] theorem image_cons (s : Span) (rest : List Span) (xs : List (Option α)) :
    image (cons s rest) xs = image (s :: rest) xs := by
  fun_cases cons s rest <;>
    simp [image, front, oldLength, List.take_add, ← List.replicate_append_replicate]

section Cut

variable (x y : Span) (n : Nat)

theorem oldLength_through_dropNew (h : n ≤ x.newLength) :
    (through x y n).oldLength + (x.dropNew n).oldLength = x.oldLength := by
  cases x <;> cases y <;> simp_all [through, dropNew, oldLength, newLength]

theorem newLength_through_dropOld (h : n ≤ y.oldLength) :
    (through x y n).newLength + (y.dropOld n).newLength = y.newLength := by
  cases x <;> cases y <;> simp_all [through, dropOld, oldLength, newLength]

@[simp] theorem newLength_dropNew : (x.dropNew n).newLength = x.newLength - n := by
  cases x <;> rfl

@[simp] theorem oldLength_dropOld : (y.dropOld n).oldLength = y.oldLength - n := by
  cases y <;> rfl

theorem oldLength_dropNew_self : (x.dropNew x.newLength).oldLength = 0 := by
  cases x <;> simp [dropNew, oldLength, newLength]

theorem newLength_dropOld_self : (y.dropOld y.oldLength).newLength = 0 := by
  cases y <;> simp [dropOld, oldLength, newLength]

theorem image_dropNew_self (a : List Span) (xs : List (Option α)) :
    image (x.dropNew x.newLength :: a) xs = image a xs := by
  cases x <;> simp [dropNew, newLength, image, front, oldLength]

theorem image_dropOld_self (b : List Span) (xs : List (Option α)) :
    image (y.dropOld y.oldLength :: b) xs = image b xs := by
  cases y <;> simp [dropOld, image, front, oldLength]

theorem image_cut_new (a : List Span) (xs : List (Option α)) (h : n ≤ x.newLength) :
    image (x :: a) xs =
      (through x (kept n) n).front xs ++
        image (x.dropNew n :: a) (xs.drop (through x (kept n) n).oldLength) := by
  cases x with
  | kept m =>
    obtain ⟨k, rfl⟩ := Nat.exists_eq_add_of_le (show n ≤ m from h)
    simp [image, front, through, dropNew, oldLength, List.take_add]
  | replaced d i =>
    obtain ⟨k, rfl⟩ := Nat.exists_eq_add_of_le (show n ≤ i from h)
    simp [image, front, through, dropNew, oldLength, ← List.replicate_append_replicate]

theorem image_cut_old (b : List Span) (us vs : List (Option α)) (hn : us.length = n)
    (h : n ≤ y.oldLength) :
    image (y :: b) (us ++ vs) =
      (through (kept n) y n).front us ++ image (y.dropOld n :: b) vs := by
  subst hn
  cases y with
  | kept m =>
    obtain ⟨k, rfl⟩ := Nat.exists_eq_add_of_le (show us.length ≤ m from h)
    simp [image, front, through, dropOld, oldLength, List.take_append, List.take_of_length_le]
  | replaced d i =>
    obtain ⟨k, rfl⟩ := Nat.exists_eq_add_of_le (show us.length ≤ d from h)
    simp [image, front, through, dropOld, oldLength]

theorem image_image_cut (a b : List Span) (xs : List (Option α)) (hx : n ≤ x.newLength)
    (hy : n ≤ y.oldLength) (hxs : x.oldLength ≤ xs.length) :
    image (y :: b) (image (x :: a) xs) =
      (through x y n).front xs ++
        image (y.dropOld n :: b)
          (image (x.dropNew n :: a) (xs.drop (through x y n).oldLength)) := by
  have hlen : ((through x (kept n) n).front xs).length = n := by
    cases x with
    | kept m =>
      have : n ≤ m := hx
      have : m ≤ xs.length := hxs
      simp [through, front]; omega
    | replaced d i => simp [through, front]
  rw [image_cut_new x n a xs hx, image_cut_old y n b _ _ hlen hy]
  cases x <;> cases y <;> simp [through, front, oldLength, List.take_take]

end Cut

theorem isSome_merge (a b : List Span) : (merge a b).isSome ↔ newTotal a = oldTotal b := by
  fun_induction merge a b with
  | case1 => simp [newTotal, oldTotal]
  | case2 x a h ih => simp [newTotal, ih, h, oldTotal]
  | case3 x a h => simp [newTotal, oldTotal]; omega
  | case4 y b h ih => simp [oldTotal, ih, h, newTotal]
  | case5 y b h => simp [newTotal, oldTotal]; omega
  | case6 x a y b h ih => simp [ih, newTotal, oldTotal]; omega
  | case7 x a y b _ h ih => simp [ih, newTotal, oldTotal, h]
  | case8 x a y b h h' ih => simp [ih, newTotal, oldTotal]; omega

theorem totals_of_merge {a b s : List Span} (h : merge a b = some s) :
    oldTotal s = oldTotal a ∧ newTotal s = newTotal b := by
  fun_induction merge a b generalizing s with
  | case1 => cases h; exact ⟨rfl, rfl⟩
  | case2 x a hx ih =>
    obtain ⟨s, hs, rfl⟩ := Option.map_eq_some_iff.mp h
    simp [oldTotal, newTotal, ih hs, hx]
  | case3 => cases h
  | case4 y b hy ih =>
    obtain ⟨s, hs, rfl⟩ := Option.map_eq_some_iff.mp h
    simp [oldTotal, newTotal, ih hs, hy]
  | case5 => cases h
  | case6 x a y b hlt ih =>
    obtain ⟨s, hs, rfl⟩ := Option.map_eq_some_iff.mp h
    have hold := oldLength_through_dropNew x y x.newLength (Nat.le_refl _)
    have hnew := newLength_through_dropOld x y x.newLength (Nat.le_of_lt hlt)
    have := oldLength_dropNew_self x
    simp only [oldTotal_cons, newTotal_cons, ih hs, oldTotal, newTotal]
    omega
  | case7 x a y b _ heq ih =>
    obtain ⟨s, hs, rfl⟩ := Option.map_eq_some_iff.mp h
    have hold := oldLength_through_dropNew x y x.newLength (Nat.le_refl _)
    have hnew := newLength_through_dropOld x y x.newLength (Nat.le_of_eq heq)
    have hx := oldLength_dropNew_self x
    have hy := newLength_dropOld_self y
    rw [← heq] at hy
    simp only [oldTotal_cons, newTotal_cons, ih hs, oldTotal, newTotal]
    omega
  | case8 x a y b hlt hne ih =>
    obtain ⟨s, hs, rfl⟩ := Option.map_eq_some_iff.mp h
    have hold := oldLength_through_dropNew x y y.oldLength (by omega)
    have hnew := newLength_through_dropOld x y y.oldLength (Nat.le_refl _)
    have := newLength_dropOld_self y
    simp only [oldTotal_cons, newTotal_cons, ih hs, oldTotal, newTotal]
    omega

theorem image_of_merge {a b s : List Span} (h : merge a b = some s) (xs : List (Option α))
    (hxs : oldTotal a ≤ xs.length) : image s xs = image b (image a xs) := by
  -- each step of `merge` uses up one of the two facing spans, or both
  fun_induction merge a b generalizing s xs with
  | case1 => cases h; rfl
  | case2 x a hx ih =>
    obtain ⟨s, hs, rfl⟩ := Option.map_eq_some_iff.mp h
    simp only [oldTotal] at hxs
    have hfront : x.front xs = [] := by
      rw [← List.length_eq_zero_iff, length_front x xs (by omega), hx]
    have hrest : oldTotal a ≤ (xs.drop x.oldLength).length := by simp; omega
    simp [image, hfront, ih hs _ hrest]
  | case3 => cases h
  | case4 y b hy ih =>
    obtain ⟨s, hs, rfl⟩ := Option.map_eq_some_iff.mp h
    cases y with
    | kept m =>
      have : m = 0 := hy
      subst this
      simpa [image, front, oldLength] using ih hs xs hxs
    | replaced d i =>
      have : d = 0 := hy
      subst this
      simpa [image, front, oldLength] using ih hs xs hxs
  | case5 => cases h
  | case6 x a y b hlt ih =>
    obtain ⟨s, hs, rfl⟩ := Option.map_eq_some_iff.mp h
    simp only [oldTotal] at hxs
    have hold := oldLength_through_dropNew x y x.newLength (Nat.le_refl _)
    have hx := oldLength_dropNew_self x
    rw [image_image_cut x y x.newLength a b xs (Nat.le_refl _) (Nat.le_of_lt hlt) (by omega),
      image_dropNew_self, image_cons, image, ih hs _ (by simp; omega)]
  | case7 x a y b _ heq ih =>
    obtain ⟨s, hs, rfl⟩ := Option.map_eq_some_iff.mp h
    simp only [oldTotal] at hxs
    have hold := oldLength_through_dropNew x y x.newLength (Nat.le_refl _)
    have hx := oldLength_dropNew_self x
    rw [image_image_cut x y x.newLength a b xs (Nat.le_refl _) (Nat.le_of_eq heq) (by omega),
      image_dropNew_self, heq, image_dropOld_self, image_cons, image, ← heq,
      ih hs _ (by simp; omega)]
  | case8 x a y b hlt hne ih =>
    obtain ⟨s, hs, rfl⟩ := Option.map_eq_some_iff.mp h
    simp only [oldTotal] at hxs
    have hold := oldLength_through_dropNew x y y.oldLength (by omega)
    rw [image_image_cut x y y.oldLength a b xs (by omega) (Nat.le_refl _) (by omega),
      image_dropOld_self, image_cons, image, ih hs _ (by simp [oldTotal]; omega)]

end LanguageClient.Span
