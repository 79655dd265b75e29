import LanguageClient.Proofs.Delta.Image

namespace LanguageClient

namespace Span

variable {α : Type}

def IsEmpty (s : Span) : Prop :=
  s.oldLength = 0 ∧ s.newLength = 0

def Normal : List Span → Prop
  | [] => True
  | s :: rest => ¬ s.IsEmpty ∧ (∀ t ∈ rest.head?, t.isKept ≠ s.isKept) ∧ Normal rest

theorem normal_cons (s : Span) {rest : List Span} (h : Normal rest) : Normal (cons s rest) := by
  fun_cases cons s rest with
  | case1 | case4 => exact h
  | case2 | case5 => simp_all [Normal, IsEmpty, oldLength, newLength, isKept]
  | case3 | case6 =>
    cases rest with
    | nil => simp_all [Normal, IsEmpty, oldLength, newLength]
    | cons t rest => cases t <;> simp_all [Normal, IsEmpty, oldLength, newLength, isKept]

theorem normal_foldr_cons (spans : List Span) : Normal (spans.foldr cons []) := by
  induction spans with
  | nil => exact trivial
  | cons s rest ih => exact normal_cons s ih

theorem normal_of_merge {a b s : List Span} (h : merge a b = some s) : Normal s := by
  fun_induction merge a b generalizing s with
  | case1 => cases h; exact trivial
  | case3 | case5 => cases h
  | case2 _ _ _ ih | case4 _ _ _ ih | case6 _ _ _ _ _ ih | case7 _ _ _ _ _ _ ih
  | case8 _ _ _ _ _ _ ih =>
    obtain ⟨s, hs, rfl⟩ := Option.map_eq_some_iff.mp h
    exact normal_cons _ (ih hs)

structure Places (xs : List (Option α)) : Prop where
  isSome : none ∉ xs
  nodup : xs.Nodup

variable {xs : List (Option α)}

theorem Places.drop (hxs : Places xs) (n : Nat) : Places (xs.drop n) where
  isSome h := hxs.isSome (List.mem_of_mem_drop h)
  nodup := hxs.nodup.drop

theorem head?_image_of_kept {a : List Span} (ha : Normal a) (hkept : ∀ t ∈ a.head?, t.isKept)
    (hlen : oldTotal a = xs.length) :
    (image a xs).head? = xs.head? := by
  cases a with
  | nil => cases xs <;> simp_all [image, oldTotal]
  | cons s rest =>
    cases s with
    | kept n =>
      have hn : n ≠ 0 := fun h => ha.1 ⟨h, h⟩
      cases xs with
      | nil => simp [oldTotal, oldLength] at hlen; omega
      | cons x xs => cases n <;> simp_all [image, front]
    | replaced d i => simp [isKept] at hkept

theorem head?_image_of_replaced {d i : Nat} {a : List Span} (ha : Normal (replaced d i :: a))
    (hlen : oldTotal (replaced d i :: a) = xs.length) :
    (image a (xs.drop d)).head? = (xs.drop d).head? := by
  obtain ⟨-, hnext, hrest⟩ := ha
  simp only [oldTotal, oldLength] at hlen
  apply head?_image_of_kept hrest
  · simpa [isKept] using hnext
  · simp
    omega

theorem eq_nil_of_head?_image_eq {a : List Span} (ha : Normal a)
    (hreplaced : ∀ t ∈ a.head?, ¬ t.isKept) (hxs : Places xs) (hlen : oldTotal a = xs.length)
    (h : (image a xs).head? = xs.head?) : xs = [] := by
  cases a with
  | nil => exact List.eq_nil_of_length_eq_zero hlen.symm
  | cons s rest =>
    cases s with
    | kept n => simp [isKept] at hreplaced
    | replaced d i =>
      cases i with
      | succ i =>
        -- the first place is an inserted one, and no old place is
        cases xs with
        | nil => simp [image, front, List.replicate_succ] at h
        | cons x xs =>
          have := hxs.isSome
          simp_all [image, front, List.replicate_succ]
      | zero =>
        have hhead := head?_image_of_replaced ha hlen
        have hplaces : xs[d]? = xs[0]? := by
          simpa [image, front, oldLength, hhead, List.head?_drop, List.head?_eq_getElem?] using h
        cases xs with
        | nil => rfl
        | cons x xs =>
          have : 0 = d := (List.getElem?_inj (by simp) hxs.nodup).mp hplaces.symm
          exact absurd ⟨this.symm, rfl⟩ ha.1

theorem length_le_of_getElem?_image_kept {n : Nat} {a : List Span} (ha : Normal (kept n :: a))
    (hxs : Places xs) (hlen : oldTotal (kept n :: a) = xs.length)
    (h : (image (kept n :: a) xs)[n]? = xs[n]?) : xs.length ≤ n := by
  simp only [oldTotal, oldLength] at hlen
  have hfront : ((kept n).front xs).length = n := length_front (kept n) xs (by simp [oldLength]; omega)
  have hhead : (image a (xs.drop n)).head? = (xs.drop n).head? := by
    rw [image, List.getElem?_append_right (Nat.le_of_eq hfront), hfront, Nat.sub_self] at h
    rwa [List.head?_eq_getElem?, List.head?_drop]
  have hnil : xs.drop n = [] := by
    apply eq_nil_of_head?_image_eq ha.2.2 _ (hxs.drop n) (by simp; omega) hhead
    simpa [isKept] using ha.2.1
  exact List.drop_eq_nil_iff.mp hnil

theorem eq_nil_of_totals {a : List Span} (ha : Normal a) (hold : oldTotal a = 0)
    (hnew : newTotal a = 0) : a = [] := by
  cases a with
  | nil => rfl
  | cons s a =>
    simp only [oldTotal, newTotal] at hold hnew
    exact absurd ⟨by omega, by omega⟩ ha.1

theorem kept_le_of_image_eq {n m : Nat} {a b : List Span} (ha : Normal (kept n :: a))
    (hxs : Places xs) (hla : oldTotal (kept n :: a) = xs.length)
    (hlb : oldTotal (kept m :: b) = xs.length)
    (h : image (kept n :: a) xs = image (kept m :: b) xs) : m ≤ n := by
  apply Nat.le_of_not_lt
  intro hlt
  rw [oldTotal, oldLength] at hlb
  have hplace : (image (kept n :: a) xs)[n]? = xs[n]? := by
    rw [h, image, front, List.getElem?_append_left (by simp; omega), List.getElem?_take_of_lt hlt]
  have hle := length_le_of_getElem?_image_kept ha hxs hla hplace
  omega

theorem takeWhile_image_replaced {d i : Nat} {a : List Span} (ha : Normal (replaced d i :: a))
    (hxs : Places xs) (hla : oldTotal (replaced d i :: a) = xs.length) :
    (image (replaced d i :: a) xs).takeWhile Option.isNone = List.replicate i none := by
  have hhead := head?_image_of_replaced ha hla
  have hrest : (image a (xs.drop d)).takeWhile Option.isNone = [] := by
    cases hi : image a (xs.drop d) with
    | nil => rfl
    | cons x rest =>
      have hx : x ∈ xs.drop d := List.mem_of_mem_head? (by simp [← hhead, hi])
      cases x with
      | none => exact absurd hx (hxs.drop d).isSome
      | some x => rfl
  simp [image, front, oldLength, hrest]

theorem not_image_kept_eq_image_replaced {n d i : Nat} {a b : List Span}
    (ha : Normal (kept n :: a)) (hb : Normal (replaced d i :: b)) (hxs : Places xs)
    (hla : oldTotal (kept n :: a) = xs.length)
    (hlb : oldTotal (replaced d i :: b) = xs.length) :
    image (kept n :: a) xs ≠ image (replaced d i :: b) xs := by
  intro h
  have hhead : (image (replaced d i :: b) xs).head? = xs.head? := by
    rw [← h]
    exact head?_image_of_kept ha (by simp [isKept]) hla
  have hnil : xs = [] :=
    eq_nil_of_head?_image_eq hb (by simp [isKept]) hxs hlb hhead
  subst hnil
  have hn : n = 0 := Nat.eq_zero_of_add_eq_zero_right hla
  exact ha.1 ⟨hn, hn⟩

theorem replaced_eq_of_image_eq {d d' i i' : Nat} {a b : List Span}
    (ha : Normal (replaced d i :: a)) (hb : Normal (replaced d' i' :: b)) (hxs : Places xs)
    (hla : oldTotal (replaced d i :: a) = xs.length)
    (hlb : oldTotal (replaced d' i' :: b) = xs.length)
    (h : image (replaced d i :: a) xs = image (replaced d' i' :: b) xs) : d = d' ∧ i = i' := by
  have hi : i = i' := by
    have hrun := takeWhile_image_replaced ha hxs hla
    rw [h, takeWhile_image_replaced hb hxs hlb] at hrun
    simpa using congrArg List.length hrun.symm
  subst hi
  have htail : image a (xs.drop d) = image b (xs.drop d') := by
    simpa [image, front, oldLength] using h
  have hplaces : xs[d]? = xs[d']? := by
    rw [← List.head?_drop, ← List.head?_drop, ← head?_image_of_replaced ha hla,
      ← head?_image_of_replaced hb hlb, htail]
  simp only [oldTotal, oldLength] at hla hlb
  refine ⟨?_, rfl⟩
  rcases Nat.lt_or_ge d xs.length with hlt | hge
  · exact (List.getElem?_inj hlt hxs.nodup).mp hplaces
  · rw [List.getElem?_eq_none hge] at hplaces
    have := List.getElem?_eq_none_iff.mp hplaces.symm
    omega

/-- Normal spans are determined by what they do to distinct places. -/
theorem eq_of_image_eq {a b : List Span} (ha : Normal a) (hb : Normal b) (hxs : Places xs)
    (hla : oldTotal a = xs.length) (hlb : oldTotal b = xs.length)
    (h : image a xs = image b xs) : a = b := by
  have hnew : newTotal a = newTotal b := by
    rw [← length_image a xs (Nat.le_of_eq hla), h, length_image b xs (Nat.le_of_eq hlb)]
  induction a generalizing b xs with
  | nil => exact (eq_nil_of_totals hb (hlb.trans hla.symm) hnew.symm).symm
  | cons s a ih =>
    cases b with
    | nil => exact eq_nil_of_totals ha (hla.trans hlb.symm) hnew
    | cons t b =>
      -- what becomes of the first places tells the first spans, and then the rest follows
      have hst : s = t := by
        cases s with
        | kept n =>
          cases t with
          | kept m =>
            exact congrArg kept (Nat.le_antisymm
              (kept_le_of_image_eq hb hxs hlb hla h.symm)
              (kept_le_of_image_eq ha hxs hla hlb h))
          | replaced d i =>
            exact absurd h (not_image_kept_eq_image_replaced ha hb hxs hla hlb)
        | replaced d i =>
          cases t with
          | kept m =>
            exact absurd h.symm (not_image_kept_eq_image_replaced hb ha hxs hlb hla)
          | replaced d' i' =>
            obtain ⟨rfl, rfl⟩ := replaced_eq_of_image_eq ha hb hxs hla hlb h
            rfl
      subst hst
      simp only [oldTotal, newTotal] at hla hlb hnew
      have htail : image a (xs.drop s.oldLength) = image b (xs.drop s.oldLength) := by
        simpa [image] using h
      rw [ih ha.2.2 hb.2.2 (hxs.drop _) (by simp; omega) (by simp; omega) htail (by omega)]

end Span

end LanguageClient
