import LanguageClient.Delta.Machine
import LanguageClient.Proofs.Delta.Edits

/-!
Deltas on a machine.

As long as all lengths are words nothing wraps, and `Machine` says what `Delta` says without a bound
(`compose_machine`, `ofEdits_machine`). The first length that is none breaks the laws of composition.
-/

namespace LanguageClient

namespace Span

variable {s : Span} {spans : List Span}

theorem wrap_of_lt (hold : s.oldLength < word64) (hnew : s.newLength < word64) : s.wrap = s := by
  cases s with
  | kept n => exact congrArg kept (Nat.mod_eq_of_lt hold)
  | replaced d i => exact congr (congrArg replaced (Nat.mod_eq_of_lt hold)) (Nat.mod_eq_of_lt hnew)

theorem map_wrap_of_totals (hold : oldTotal spans < word64) (hnew : newTotal spans < word64) :
    spans.map wrap = spans := by
  induction spans with
  | nil => rfl
  | cons s rest ih =>
    rw [oldTotal] at hold
    rw [newTotal] at hnew
    rw [List.map_cons, wrap_of_lt (Nat.lt_of_add_right_lt hold) (Nat.lt_of_add_right_lt hnew),
      ih (Nat.lt_of_add_left_lt hold) (Nat.lt_of_add_left_lt hnew)]

end Span

/-- All lengths that a document takes on, from the first one to that after the last edit, are words. -/
def Edit.LengthsFit : Nat → List Edit → Prop
  | length, [] => length < word64
  | length, e :: rest => length < word64 ∧ (e.start ≤ e.stop → e.stop ≤ length →
      LengthsFit (e.start + Text.size e.insert + (length - e.stop)) rest)

namespace Delta

open Edit (LengthsFit)

structure Fits (d : Delta) : Prop where
  old : d.oldLength < word64
  new : d.newLength < word64

section Fits

variable {a b d d' : Delta} {e : Edit} {edits xs ys : List Edit} {length : Nat}

theorem Fits.wrap (h : d.Fits) : d.wrap = d := by
  rw [Delta.wrap, Span.map_wrap_of_totals h.old h.new]

theorem oldLength_machine (h : d.Fits) : Machine.oldLength d = d.oldLength :=
  Nat.mod_eq_of_lt h.old

theorem newLength_machine (h : d.Fits) : Machine.newLength d = d.newLength :=
  Nat.mod_eq_of_lt h.new

theorem Fits.of_compose (ha : a.Fits) (hb : b.Fits) (h : a.compose b = .ok d) : d.Fits where
  old := oldLength_of_compose h ▸ ha.old
  new := newLength_of_compose h ▸ hb.new

theorem compose_machine (ha : a.Fits) (hb : b.Fits) : Machine.compose a b = a.compose b := by
  rw [Machine.compose, newLength_machine ha, oldLength_machine hb]
  by_cases hlength : a.newLength = b.oldLength
  · obtain ⟨d, hd⟩ := exists_compose hlength
    rw [if_pos hlength, (merge_of_compose hd).2, hd]
    exact congrArg Except.ok (ha.of_compose hb hd).wrap
  · rw [if_neg hlength, compose_of_length_ne hlength]

theorem fits_of_ofEdit (hfit : LengthsFit length [e]) (h : ofEdit length e = .ok d) : d.Fits := by
  obtain ⟨hle, hstop⟩ := bounds_of_ofEdit h
  constructor
  · rw [oldLength_of_ofEdit h]
    exact hfit.1
  · rw [newLength_of_ofEdit h]
    exact hfit.2 hle hstop

theorem ofEdit_machine (hfit : LengthsFit length [e]) : Machine.ofEdit length e = ofEdit length e := by
  rw [Machine.ofEdit]
  cases h : ofEdit length e with
  | error f => rfl
  | ok d => exact congrArg Except.ok (fits_of_ofEdit hfit h).wrap

theorem lengthsFit_first (h : LengthsFit length edits) : length < word64 := by
  cases edits with
  | nil => exact h
  | cons e rest => exact h.1

theorem lengthsFit_head (h : LengthsFit length (e :: edits)) : LengthsFit length [e] :=
  ⟨h.1, fun hle hstop => lengthsFit_first (h.2 hle hstop)⟩

theorem lengthsFit_left (h : LengthsFit length (xs ++ ys)) : LengthsFit length xs := by
  induction xs generalizing length with
  | nil => exact lengthsFit_first h
  | cons e xs ih => exact ⟨h.1, fun hle hstop => ih (h.2 hle hstop)⟩

theorem lengthsFit_tail {step : Delta} (hfit : LengthsFit d.newLength (e :: edits))
    (hstep : ofEdit d.newLength e = .ok step) (hnext : d.compose step = .ok d') :
    LengthsFit d'.newLength edits := by
  obtain ⟨hle, hstop⟩ := bounds_of_ofEdit hstep
  rw [newLength_of_compose hnext, newLength_of_ofEdit hstep]
  exact hfit.2 hle hstop

theorem foldlM_andThen_machine (hd : d.Fits) (hfit : LengthsFit d.newLength edits) :
    edits.foldlM Machine.andThen d = edits.foldlM andThen d ∧
      ∀ d', edits.foldlM andThen d = .ok d' → d'.Fits := by
  induction edits generalizing d with
  | nil => exact ⟨rfl, fun d' h => Except.ok.inj h ▸ hd⟩
  | cons e edits ih =>
    rw [List.foldlM_cons, List.foldlM_cons, Machine.andThen, andThen, newLength_machine hd,
      ofEdit_machine (lengthsFit_head hfit)]
    cases hstep : ofEdit d.newLength e with
    | error f => exact ⟨rfl, fun d' h => by cases h⟩
    | ok step =>
      have hfits := fits_of_ofEdit (lengthsFit_head hfit) hstep
      obtain ⟨next, hnext⟩ := exists_compose (oldLength_of_ofEdit hstep).symm
      change (Machine.compose d step >>= _) = (d.compose step >>= _) ∧
        ∀ d' : Delta, (d.compose step >>= _) = .ok d' → d'.Fits
      rw [compose_machine hd hfits, hnext]
      exact ih (hd.of_compose hfits hnext) (lengthsFit_tail hfit hstep hnext)

theorem fits_identity (h : length < word64) : (identity length).Fits where
  old := (oldLength_identity length).symm ▸ h
  new := (newLength_identity length).symm ▸ h

theorem ofEdits_machine (hfit : LengthsFit length edits) :
    Machine.ofEdits length edits = ofEdits length edits :=
  (foldlM_andThen_machine (fits_identity (lengthsFit_first hfit))
    ((newLength_identity length).symm ▸ hfit)).1

theorem fits_of_ofEdits (hfit : LengthsFit length edits) (h : ofEdits length edits = .ok d) : d.Fits :=
  (foldlM_andThen_machine (fits_identity (lengthsFit_first hfit))
    ((newLength_identity length).symm ▸ hfit)).2 d h

theorem lengthsFit_of_foldlM (hfit : LengthsFit d.newLength (xs ++ ys))
    (h : xs.foldlM andThen d = .ok d') : LengthsFit d'.newLength ys := by
  induction xs generalizing d with
  | nil => exact Except.ok.inj h ▸ hfit
  | cons e xs ih =>
    obtain ⟨step, next, hstep, hnext, hrest⟩ := exists_of_foldlM_cons h
    exact ih (lengthsFit_tail hfit hstep hnext) hrest

theorem lengthsFit_right (hfit : LengthsFit length (xs ++ ys)) (h : ofEdits length xs = .ok d) :
    LengthsFit d.newLength ys :=
  lengthsFit_of_foldlM ((newLength_identity length).symm ▸ hfit) h

theorem compose_compose_machine (ha : a.Fits) (hb : b.Fits) {c : Delta} (hc : c.Fits) :
    (do Machine.compose (← Machine.compose a b) c).toOption =
      (do Machine.compose a (← Machine.compose b c)).toOption := by
  have hleft : (do Machine.compose (← Machine.compose a b) c) =
      (do (← a.compose b).compose c) := by
    rw [compose_machine ha hb]
    cases hab : a.compose b with
    | error f => rfl
    | ok ab => exact compose_machine (ha.of_compose hb hab) hc
  have hright : (do Machine.compose a (← Machine.compose b c)) =
      (do a.compose (← b.compose c)) := by
    rw [compose_machine hb hc]
    cases hbc : b.compose c with
    | error f => rfl
    | ok bc => exact compose_machine ha (hb.of_compose hc hbc)
  rw [hleft, hright]
  exact compose_compose_toOption a b c

section Append

variable (hfit : LengthsFit length (xs ++ ys))
include hfit

theorem ofEdits_append_machine : Machine.ofEdits length (xs ++ ys) = (do
    let d ← Machine.ofEdits length xs
    Machine.compose d (← Machine.ofEdits (Machine.newLength d) ys)) := by
  rw [ofEdits_machine hfit, ofEdits_machine (lengthsFit_left hfit), ofEdits_append]
  cases hxs : ofEdits length xs with
  | error f => rfl
  | ok d =>
    have hd := fits_of_ofEdits (lengthsFit_left hfit) hxs
    have hright := lengthsFit_right hfit hxs
    change (do d.compose (← ofEdits d.newLength ys)) =
      (do Machine.compose d (← Machine.ofEdits (Machine.newLength d) ys))
    rw [newLength_machine hd, ofEdits_machine hright]
    cases hys : ofEdits d.newLength ys with
    | error f => rfl
    | ok e => exact (compose_machine hd (fits_of_ofEdits hright hys)).symm

theorem ofEdits_append_machine_eq_error_iff (f : Fault) :
    Machine.ofEdits length (xs ++ ys) = .error f ↔
      Machine.ofEdits length xs = .error f ∨
        ∃ d, Machine.ofEdits length xs = .ok d ∧
          Machine.ofEdits (Machine.newLength d) ys = .error f := by
  rw [ofEdits_machine hfit, ofEdits_machine (lengthsFit_left hfit), ofEdits_append_eq_error_iff]
  refine or_congr_right (exists_congr fun d => and_congr_right fun hxs => ?_)
  rw [newLength_machine (fits_of_ofEdits (lengthsFit_left hfit) hxs),
    ofEdits_machine (lengthsFit_right hfit hxs)]

end Append

end Fits

namespace Machine

/-- The deltas that can be made out of lengths that are words. -/
inductive Built : Delta → Prop
  | empty : Built empty
  | identity {length : Nat} : length < word64 → Built (identity length)
  | ofEdit {length : Nat} {e : Edit} {d : Delta} :
      LengthsFit length [e] → ofEdit length e = .ok d → Built d
  | ofEdits {length : Nat} {edits : List Edit} {d : Delta} :
      LengthsFit length edits → ofEdits length edits = .ok d → Built d
  | compose {a b d : Delta} : Built a → Built b → compose a b = .ok d → Built d

namespace Built

variable {d : Delta} (h : Built d)
include h

theorem fits_and_normal : d.Fits ∧ d.IsNormal := by
  induction h with
  | empty => exact ⟨⟨Nat.pow_pos Nat.zero_lt_two, Nat.pow_pos Nat.zero_lt_two⟩, trivial⟩
  | identity h => exact ⟨fits_identity h, isNormal_identity _⟩
  | ofEdit hfit h =>
    rw [ofEdit_machine hfit] at h
    exact ⟨fits_of_ofEdit hfit h, isNormal_of_ofEdit h⟩
  | ofEdits hfit h =>
    rw [ofEdits_machine hfit] at h
    exact ⟨fits_of_ofEdits hfit h, isNormal_of_ofEdits h⟩
  | compose _ _ h iha ihb =>
    rw [compose_machine iha.1 ihb.1] at h
    exact ⟨iha.1.of_compose ihb.1 h, isNormal_of_compose h⟩

theorem fits : d.Fits :=
  h.fits_and_normal.1

theorem isNormal : d.IsNormal :=
  h.fits_and_normal.2

end Built

end Machine

/-- Deltas are a partial monoid under composition, and edits one after another are its products, as long
as all lengths are words. -/
theorem compose_partial_monoid {a b c : Delta} (ha : Machine.Built a) (hb : Machine.Built b)
    (hc : Machine.Built c) {length : Nat} {xs ys : List Edit}
    (hfit : Edit.LengthsFit length (xs ++ ys)) :
    ((∃ d, Machine.compose a b = .ok d) ↔ Machine.newLength a = Machine.oldLength b) ∧
      (Machine.newLength a = Machine.oldLength b → ∃ spans, Span.merge a.spans b.spans = some spans) ∧
      (∀ d, Machine.compose a b = .ok d →
        Machine.oldLength d = Machine.oldLength a ∧ Machine.newLength d = Machine.newLength b) ∧
      Machine.compose (identity (Machine.oldLength a)) a = .ok a ∧
      Machine.compose a (identity (Machine.newLength a)) = .ok a ∧
      (do Machine.compose (← Machine.compose a b) c).toOption =
        (do Machine.compose a (← Machine.compose b c)).toOption ∧
      (Machine.ofEdits length (xs ++ ys) = (do
        let d ← Machine.ofEdits length xs
        Machine.compose d (← Machine.ofEdits (Machine.newLength d) ys))) ∧
      ∀ f, Machine.ofEdits length (xs ++ ys) = .error f ↔
        Machine.ofEdits length xs = .error f ∨
          ∃ d, Machine.ofEdits length xs = .ok d ∧
            Machine.ofEdits (Machine.newLength d) ys = .error f := by
  have hab := compose_machine ha.fits hb.fits
  have hlengths : Machine.newLength a = Machine.oldLength b ↔ a.newLength = b.oldLength := by
    rw [newLength_machine ha.fits, oldLength_machine hb.fits]
  refine ⟨?_, ?_, ?_, ?_, ?_, compose_compose_machine ha.fits hb.fits hc.fits,
    ofEdits_append_machine hfit, ofEdits_append_machine_eq_error_iff hfit⟩
  · rw [hlengths, hab]
    exact ⟨fun ⟨d, h⟩ => newLength_eq_of_compose h, exists_compose⟩
  · intro h
    exact Option.isSome_iff_exists.mp ((Span.isSome_merge a.spans b.spans).mpr (hlengths.mp h))
  · intro d h
    rw [hab] at h
    have hd := ha.fits.of_compose hb.fits h
    rw [oldLength_machine hd, oldLength_machine ha.fits, newLength_machine hd,
      newLength_machine hb.fits]
    exact ⟨oldLength_of_compose h, newLength_of_compose h⟩
  · rw [oldLength_machine ha.fits, compose_machine (fits_identity ha.fits.old) ha.fits]
    exact identity_compose ha.isNormal
  · rw [newLength_machine ha.fits, compose_machine ha.fits (fits_identity ha.fits.new)]
    exact compose_identity ha.isNormal

theorem compose_partial_monoid_of_overlap :
    let a : Delta := ⟨[.kept 1, .replaced 2 3, .kept 4]⟩
    let b : Delta := ⟨[.kept 2, .replaced 3 0, .kept 3]⟩
    Machine.ofEdit 7 ⟨1, 3, "xyz"⟩ = .ok a ∧ Machine.ofEdit 8 ⟨2, 5, ""⟩ = .ok b ∧
      (∃ d, Machine.compose a b = .ok d) ∧ Machine.compose (identity 7) a = .ok a ∧
      Machine.ofEdits 7 ([⟨1, 3, "xyz"⟩] ++ [⟨2, 5, ""⟩]) = (do
        let d ← Machine.ofEdits 7 [⟨1, 3, "xyz"⟩]
        Machine.compose d (← Machine.ofEdits (Machine.newLength d) [⟨2, 5, ""⟩])) := by
  intro a b
  have ha : Machine.ofEdit 7 ⟨1, 3, "xyz"⟩ = .ok a := rfl
  have hb : Machine.ofEdit 8 ⟨2, 5, ""⟩ = .ok b := rfl
  have hfit : Edit.LengthsFit 7 ([⟨1, 3, "xyz"⟩] ++ [⟨2, 5, ""⟩]) :=
    ⟨by decide, fun _ _ => ⟨by decide, fun _ _ => (by decide : 5 < word64)⟩⟩
  obtain ⟨hdefined, -, -, hleft, -, -, happend, -⟩ :=
    compose_partial_monoid (.ofEdit (lengthsFit_left hfit) ha) (.ofEdit (hfit.2 (by decide) (by decide)) hb)
      (.identity (by decide : 5 < word64)) hfit
  exact ⟨ha, hb, hdefined.mpr rfl, hleft, happend⟩

/-- A document of as many bytes as a word counts, and one more: its new length wraps to that of the empty
document, and yet there is no composing it with the identity on that. -/
theorem not_compose_identity_of_wrapped_length :
    let d : Delta := ⟨[.replaced 0 1, .kept (word64 - 1)]⟩
    Machine.ofEdit (word64 - 1) ⟨0, 0, "x"⟩ = .ok d ∧
      Machine.newLength d = 0 ∧ Machine.oldLength (identity 0) = 0 ∧
      Machine.compose d (identity 0) = .error (.lengthMismatch 0 0) := by
  intro d
  have hnew : Machine.newLength d = 0 := by decide
  have hold : Machine.oldLength (identity 0) = 0 := rfl
  have hmerge : Span.merge d.spans (identity 0).spans = none := by
    rw [← Option.not_isSome_iff_eq_none, Span.isSome_merge]
    decide
  refine ⟨rfl, hnew, hold, ?_⟩
  rw [Machine.compose, hnew, hold, if_pos rfl, hmerge]

end Delta

end LanguageClient
