import LanguageClient.Proofs.Delta.Normal

namespace LanguageClient.Delta

open LanguageClient.Span (Normal)

def IsNormal (d : Delta) : Prop :=
  Normal d.spans

def image {α : Type} (d : Delta) (xs : List (Option α)) : List (Option α) :=
  Span.image d.spans xs

def places (length : Nat) : List (Option Nat) :=
  (List.range length).map some

@[simp] theorem length_places (length : Nat) : (places length).length = length := by
  simp [places]

theorem getElem?_places {i length : Nat} (h : i < length) : (places length)[i]? = some (some i) := by
  simp [places, List.getElem?_range h]

theorem distinct_places (length : Nat) : Span.Places (places length) where
  isSome := by simp [places]
  nodup := List.Pairwise.map some (fun _ _ hne heq => hne (Option.some.inj heq)) List.nodup_range

theorem length_image {α : Type} (d : Delta) (xs : List (Option α)) (h : d.oldLength ≤ xs.length) :
    (d.image xs).length = d.newLength :=
  Span.length_image d.spans xs h

theorem eq_of_image_places {a b : Delta} (ha : a.IsNormal) (hb : b.IsNormal)
    (hlen : a.oldLength = b.oldLength)
    (h : a.image (places a.oldLength) = b.image (places a.oldLength)) : a = b := by
  have hspans : a.spans = b.spans :=
    Span.eq_of_image_eq ha hb (distinct_places _) (by simp [oldLength])
      (by simpa [oldLength] using hlen.symm) h
  cases a
  cases b
  exact congrArg mk hspans

theorem compose_of_length_ne {a b : Delta} (h : a.newLength ≠ b.oldLength) :
    a.compose b = .error (.lengthMismatch a.newLength b.oldLength) := by
  simp [compose, h]

theorem merge_of_compose {a b d : Delta} (h : a.compose b = .ok d) :
    a.newLength = b.oldLength ∧ Span.merge a.spans b.spans = some d.spans := by
  unfold compose at h
  split at h
  next hlen =>
    split at h
    next spans hspans =>
      cases h
      exact ⟨hlen, hspans⟩
    next => cases h
  next => cases h

theorem exists_compose {a b : Delta} (h : a.newLength = b.oldLength) :
    ∃ d, a.compose b = .ok d := by
  obtain ⟨spans, hspans⟩ := Option.isSome_iff_exists.mp ((Span.isSome_merge a.spans b.spans).mpr h)
  exact ⟨⟨spans⟩, by simp [compose, h, hspans]⟩

section Compose

variable {a b d : Delta} (h : a.compose b = .ok d)
include h

theorem newLength_eq_of_compose : a.newLength = b.oldLength :=
  (merge_of_compose h).1

theorem isNormal_of_compose : d.IsNormal :=
  Span.normal_of_merge (merge_of_compose h).2

theorem oldLength_of_compose : d.oldLength = a.oldLength :=
  (Span.totals_of_merge (merge_of_compose h).2).1

theorem newLength_of_compose : d.newLength = b.newLength :=
  (Span.totals_of_merge (merge_of_compose h).2).2

theorem image_of_compose {α : Type} (xs : List (Option α)) (hxs : a.oldLength ≤ xs.length) :
    d.image xs = b.image (a.image xs) :=
  Span.image_of_merge (merge_of_compose h).2 xs hxs

end Compose

section Identity

variable (length : Nat)

theorem isNormal_identity : (identity length).IsNormal :=
  Span.normal_foldr_cons _

@[simp] theorem oldLength_identity : (identity length).oldLength = length := by
  simp [identity, ofSpans, oldLength, Span.oldTotal, Span.oldLength]

@[simp] theorem newLength_identity : (identity length).newLength = length := by
  simp [identity, ofSpans, newLength, Span.newTotal, Span.newLength]

theorem image_identity {α : Type} (xs : List (Option α)) :
    (identity length).image xs = xs.take length := by
  simp [identity, ofSpans, image, Span.image, Span.front]

end Identity

theorem identity_compose {d : Delta} (hd : d.IsNormal) :
    (identity d.oldLength).compose d = .ok d := by
  obtain ⟨e, he⟩ := exists_compose (newLength_identity d.oldLength)
  have hold : e.oldLength = d.oldLength := by
    rw [oldLength_of_compose he, oldLength_identity]
  rw [he]
  congr 1
  apply eq_of_image_places (isNormal_of_compose he) hd hold
  rw [image_of_compose he _ (by simp [hold]), image_identity, hold,
    List.take_of_length_le (by simp)]

theorem compose_identity {d : Delta} (hd : d.IsNormal) :
    d.compose (identity d.newLength) = .ok d := by
  obtain ⟨e, he⟩ := exists_compose (oldLength_identity d.newLength).symm
  have hold : e.oldLength = d.oldLength := oldLength_of_compose he
  rw [he]
  congr 1
  apply eq_of_image_places (isNormal_of_compose he) hd hold
  have hlen : d.oldLength ≤ (places e.oldLength).length := by simp [hold]
  rw [image_of_compose he _ hlen, image_identity,
    List.take_of_length_le (Nat.le_of_eq (length_image d _ hlen))]

theorem compose_assoc {a b c ab bc : Delta} (hab : a.compose b = .ok ab)
    (hbc : b.compose c = .ok bc) : ab.compose c = a.compose bc := by
  have hleft : ab.newLength = c.oldLength := by
    rw [newLength_of_compose hab, newLength_eq_of_compose hbc]
  have hright : a.newLength = bc.oldLength := by
    rw [oldLength_of_compose hbc, newLength_eq_of_compose hab]
  obtain ⟨l, hl⟩ := exists_compose hleft
  obtain ⟨r, hr⟩ := exists_compose hright
  have hlold : l.oldLength = a.oldLength := by
    rw [oldLength_of_compose hl, oldLength_of_compose hab]
  rw [hl, hr]
  congr 1
  apply eq_of_image_places (isNormal_of_compose hl) (isNormal_of_compose hr)
  · rw [hlold, oldLength_of_compose hr]
  · rw [hlold]
    have hlen : a.oldLength ≤ (places a.oldLength).length := by simp
    have hmid : b.oldLength ≤ (a.image (places a.oldLength)).length := by
      apply Nat.le_of_eq
      rw [length_image a _ hlen, newLength_eq_of_compose hab]
    calc
      l.image (places a.oldLength) = c.image (ab.image (places a.oldLength)) :=
        image_of_compose hl _ (by simp [oldLength_of_compose hab])
      _ = c.image (b.image (a.image (places a.oldLength))) := by
        rw [image_of_compose hab _ hlen]
      _ = bc.image (a.image (places a.oldLength)) := (image_of_compose hbc _ hmid).symm
      _ = r.image (places a.oldLength) := (image_of_compose hr _ hlen).symm

theorem compose_compose_toOption (a b c : Delta) :
    (do (← a.compose b).compose c).toOption = (do a.compose (← b.compose c)).toOption := by
  by_cases hab : a.newLength = b.oldLength
  · obtain ⟨ab, hab⟩ := exists_compose hab
    by_cases hbc : b.newLength = c.oldLength
    · obtain ⟨bc, hbc⟩ := exists_compose hbc
      rw [hab, hbc]
      exact congrArg Except.toOption (compose_assoc hab hbc)
    · have hne : ab.newLength ≠ c.oldLength := by rwa [newLength_of_compose hab]
      rw [hab, compose_of_length_ne hbc]
      change (ab.compose c).toOption = none
      rw [compose_of_length_ne hne]
      rfl
  · rw [compose_of_length_ne hab]
    by_cases hbc : b.newLength = c.oldLength
    · obtain ⟨bc, hbc⟩ := exists_compose hbc
      have hne : a.newLength ≠ bc.oldLength := by rwa [oldLength_of_compose hbc]
      rw [hbc]
      change none = (a.compose bc).toOption
      rw [compose_of_length_ne hne]
      rfl
    · rw [compose_of_length_ne hbc]
      rfl

end LanguageClient.Delta
