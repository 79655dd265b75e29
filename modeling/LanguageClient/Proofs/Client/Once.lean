import LanguageClient.Proofs.Client.Traffic
import LanguageClient.Proofs.Client.Writer

namespace LanguageClient

namespace Traffic

/-- The places of frames: the queue, and every line there ever was. -/
def slot (t : Traffic) : Option Nat → List Frame
  | none => t.queue
  | some g => (t.pushed g).getD []

structure Single (t : Traffic) : Prop where
  fresh : ∀ s, ∀ id ∈ Frame.ids (t.slot s), id < t.nextId
  once : ∀ s, (Frame.ids (t.slot s)).Nodup
  apart : ∀ s s' id, id ∈ Frame.ids (t.slot s) → id ∈ Frame.ids (t.slot s') → s = s'

theorem slot_send_of_ne {t t' : Traffic} {fs : List Frame} (hpushed : t'.pushed = (t.toWire.send fs).pushed)
    {g : Nat} (hg : t.attached ≠ some g) : t'.slot (some g) = t.slot (some g) := by
  rw [slot, slot, hpushed]
  exact congrArg (Option.getD · []) (if_neg hg)

theorem slot_send_sublist {t t' : Traffic} {fs : List Frame}
    (hpushed : t'.pushed = (t.toWire.send fs).pushed) (g : Nat) :
    (t'.slot (some g)).Sublist (t.slot (some g) ++ fs) := by
  rw [slot, slot, hpushed, Wire.send]
  dsimp only
  split
  · cases t.pushed g with
    | none => exact List.nil_sublist _
    | some told => exact List.Sublist.refl _
  · exact List.sublist_append_left _ fs

theorem ids_sublist {fs gs : List Frame} (h : fs.Sublist gs) : (Frame.ids fs).Sublist (Frame.ids gs) :=
  h.filterMap _

namespace Single

variable {t t' : Traffic} (h : t.Single)
include h

theorem of_moved (move : Option Nat → Option Nat)
    (hfrom : ∀ s', ∀ id ∈ Frame.ids (t'.slot s'), ∃ s, move s = s' ∧ id ∈ Frame.ids (t.slot s))
    (honce : ∀ s', (Frame.ids (t'.slot s')).Nodup) (hnext : t.nextId ≤ t'.nextId) : t'.Single where
  fresh s' id hid := by
    obtain ⟨s, -, hid⟩ := hfrom s' id hid
    exact Nat.lt_of_lt_of_le (h.fresh s id hid) hnext
  once := honce
  apart s₁ s₂ id hid₁ hid₂ := by
    obtain ⟨s, rfl, hid⟩ := hfrom s₁ id hid₁
    obtain ⟨s', rfl, hid'⟩ := hfrom s₂ id hid₂
    rw [h.apart s s' id hid hid']

theorem of_sublist (hslot : ∀ s, (Frame.ids (t'.slot s)).Sublist (Frame.ids (t.slot s)))
    (hnext : t.nextId ≤ t'.nextId) : t'.Single :=
  h.of_moved (fun s => s) (fun s _ hid => ⟨s, rfl, (hslot s).subset hid⟩)
    (fun s => (h.once s).sublist (hslot s)) hnext

theorem of_slot (hslot : ∀ s, t'.slot s = t.slot s) (hnext : t'.nextId = t.nextId) : t'.Single :=
  h.of_sublist (fun s => hslot s ▸ List.Sublist.refl _) (Nat.le_of_eq hnext.symm)

theorem of_issued (s₀ : Option Nat)
    (hslot : ∀ s, (Frame.ids (t'.slot s)).Sublist
      (Frame.ids (t.slot s) ++ if s = s₀ then [t.nextId] else []))
    (hnext : t'.nextId = t.nextId + 1) : t'.Single := by
  have hcases : ∀ s, ∀ id ∈ Frame.ids (t'.slot s),
      id ∈ Frame.ids (t.slot s) ∨ s = s₀ ∧ id = t.nextId := by
    intro s id hid
    obtain hid | hid := List.mem_append.mp ((hslot s).subset hid)
    · exact .inl hid
    · split at hid
      next heq => exact .inr ⟨heq, List.mem_singleton.mp hid⟩
      next => cases hid
  have hnew : ∀ s, t.nextId ∉ Frame.ids (t.slot s) := fun s hid => Nat.lt_irrefl _ (h.fresh s _ hid)
  refine ⟨?_, ?_, ?_⟩
  · intro s id hid
    rw [hnext]
    obtain hid | ⟨-, rfl⟩ := hcases s id hid
    · exact Nat.lt_succ_of_lt (h.fresh s id hid)
    · exact Nat.lt_succ_self _
  · intro s
    refine List.Nodup.sublist (hslot s) ?_
    split
    · refine List.nodup_append.mpr ⟨h.once s, by simp, ?_⟩
      intro id hid id' hid' heq
      cases List.mem_singleton.mp hid'
      exact hnew s (heq ▸ hid)
    · rw [List.append_nil]
      exact h.once s
  · intro s s' id hid hid'
    obtain hid | ⟨rfl, rfl⟩ := hcases s id hid
    · obtain hid' | ⟨rfl, rfl⟩ := hcases s' id hid'
      · exact h.apart s s' id hid hid'
      · exact absurd hid (hnew s)
    · obtain hid' | ⟨rfl, -⟩ := hcases s' _ hid'
      · exact absurd hid' (hnew s')
      · rfl

theorem tell (s : Documents) {fs : List Frame} (hfs : Frame.ids fs = []) : (t.tell s fs).Single := by
  refine h.of_sublist (fun place => ?_) (Nat.le_refl _)
  cases place with
  | none => exact List.Sublist.refl _
  | some g =>
    have hpushed : (t.tell s fs).pushed = (t.toWire.send fs).pushed := rfl
    have hids := ids_sublist (slot_send_sublist hpushed g)
    rwa [Frame.ids_append, hfs, List.append_nil] at hids

theorem start {f : Frame} (hf : f.requestId? = some t.nextId) : (t.start f).Single := by
  have hids : Frame.ids [f] = [t.nextId] := by rw [Frame.ids_cons, hf]; rfl
  have hwire : (t.start f).toWire = t.toWire.enqueue f := rfl
  rw [Wire.enqueue] at hwire
  split at hwire
  next hready =>
    obtain ⟨g₀, hg₀⟩ := Option.isSome_iff_exists.mp (Bool.and_eq_true_iff.mp hready).1
    refine h.of_issued (some g₀) (fun place => ?_) rfl
    cases place with
    | none =>
      rw [show (t.start f).slot none = t.slot none from (congrArg Wire.queue hwire :)]
      exact List.sublist_append_left _ _
    | some g =>
      have hpushed : (t.start f).pushed = (t.toWire.send [f]).pushed := congrArg Wire.pushed hwire
      by_cases hg : g = g₀
      · rw [if_pos (congrArg some hg), ← hids, ← Frame.ids_append]
        exact ids_sublist (slot_send_sublist hpushed g)
      · have hne : t.attached ≠ some g := fun heq => hg (Option.some.inj (heq.symm.trans hg₀))
        rw [slot_send_of_ne hpushed hne]
        exact List.sublist_append_left _ _
  next =>
    refine h.of_issued none (fun place => ?_) rfl
    cases place with
    | none =>
      have hslot : (t.start f).slot none = t.slot none ++ [f] := (congrArg Wire.queue hwire :)
      rw [if_pos rfl, hslot, Frame.ids_append]
      exact hids ▸ List.Sublist.refl _
    | some g =>
      rw [slot, show (t.start f).pushed = t.pushed from (congrArg Wire.pushed hwire :)]
      exact List.sublist_append_left _ _

theorem connect {f : Frame} (hf : f.requestId? = some t.nextId) : (t.connect f).Single := by
  have hpushed : (t.connect f).pushed (t.generation + 1) = some [f] := by
    simp [Traffic.connect, Wire.send, Wire.attach]
  refine h.of_issued (some (t.generation + 1)) (fun place => ?_) rfl
  cases place with
  | none => exact List.sublist_append_left _ _
  | some g =>
    by_cases hg : g = t.generation + 1
    · subst hg
      rw [if_pos rfl, slot, hpushed, Option.getD_some, Frame.ids_cons, hf]
      exact List.sublist_append_right _ _
    · have hne : some (t.generation + 1) ≠ some g := fun heq => hg (Option.some.inj heq).symm
      have hkept : (t.connect f).pushed g = t.pushed g := by
        simp [Traffic.connect, Wire.send, Wire.attach, Ne.symm hg]
      rw [slot, hkept]
      exact List.sublist_append_left _ _

theorem withdraw (id : Nat) : (t.withdraw id).Single := by
  refine h.of_sublist (fun place => ?_) (Nat.le_refl _)
  cases place with
  | none => exact ids_sublist List.filter_sublist
  | some g => exact List.Sublist.refl _

theorem complete (s : Documents) {fs : List Frame} {result : InitializeResult}
    (hattached : t.attached.isSome) (hfs : Frame.ids fs = []) : (t.complete s fs result).Single := by
  obtain ⟨g₀, hg₀⟩ := Option.isSome_iff_exists.mp hattached
  have hpushed : (t.complete s fs result).pushed = (t.toWire.send (fs ++ t.queue)).pushed := rfl
  have hline : (Frame.ids ((t.complete s fs result).slot (some g₀))).Sublist
      (Frame.ids (t.slot (some g₀)) ++ Frame.ids (t.slot none)) := by
    have hids := ids_sublist (slot_send_sublist hpushed g₀)
    rwa [Frame.ids_append, Frame.ids_append, hfs] at hids
  have hother : ∀ g, g ≠ g₀ → (t.complete s fs result).slot (some g) = t.slot (some g) :=
    fun g hg => slot_send_of_ne hpushed fun heq => hg (Option.some.inj (heq.symm.trans hg₀))
  have hempty : (t.complete s fs result).slot none = [] := rfl
  refine h.of_moved (fun s => some (s.getD g₀)) ?_ ?_ (Nat.le_refl _)
  · intro place id hid
    cases place with
    | none =>
      rw [hempty] at hid
      cases hid
    | some g =>
      by_cases hg : g = g₀
      · subst hg
        obtain hid | hid := List.mem_append.mp (hline.subset hid)
        · exact ⟨some g, rfl, hid⟩
        · exact ⟨none, rfl, hid⟩
      · exact ⟨some g, rfl, hother g hg ▸ hid⟩
  · intro place
    cases place with
    | none =>
      rw [hempty]
      exact List.nodup_nil
    | some g =>
      by_cases hg : g = g₀
      · subst hg
        refine List.Nodup.sublist hline (List.nodup_append.mpr ⟨h.once _, h.once _, ?_⟩)
        rintro id hid _ hid' rfl
        cases h.apart _ _ id hid hid'
      · rw [hother g hg]
        exact h.once _

theorem step {m : Option Milestone} (hstep : Step t m t') : t'.Single := by
  have hkept : ∀ {t' : Traffic}, t'.queue = t.queue → t'.pushed = t.pushed → t'.nextId = t.nextId →
      t'.Single := by
    intro t' hqueue hpushed hnext
    refine h.of_slot (fun place => ?_) hnext
    cases place with
    | none => exact hqueue
    | some g => rw [slot, hpushed]; rfl
  cases hstep with
  | tell s hfs => exact h.tell s hfs
  | hold hf =>
    refine h.of_sublist (fun place => ?_) (Nat.le_refl _)
    cases place with
    | none =>
      change (Frame.ids (t.queue ++ [_])).Sublist (Frame.ids t.queue)
      rw [Frame.ids_append, Frame.ids_cons, hf]
      simp
    | some g => exact List.Sublist.refl _
  | withdraw id => exact h.withdraw id
  | start s hfs f hf => exact (h.tell s hfs).start hf
  | connect f hf => exact h.connect hf
  | complete s hgeneration hattached hfs => exact h.complete s hattached hfs
  | settle | pass | handOver | disconnect | late | lost => exact hkept rfl rfl rfl

end Single

namespace Step

variable {t t' : Traffic} {m : Option Milestone} (hstep : Step t m t')
include hstep

theorem nextId_le : t.nextId ≤ t'.nextId := by
  cases hstep with
  | start | connect => exact Nat.le_succ _
  | _ => exact Nat.le_refl _

theorem settled {id : Nat} (hlt : id < t.nextId) (hnone : t.clock id = none) : t'.clock id = none := by
  have hold : id ≠ t.nextId := Nat.ne_of_lt hlt
  have hlost : t.letGo.clock id = none := by
    change (if _ then none else t.clock id) = none
    rw [hnone, ite_self]
  cases hstep with
  | tell | hold | complete | late => exact hnone
  | settle hclock | pass hattached hfs hnext hclock hgone =>
    exact (hclock id).elim (·.trans hnone) fun hnone => hnone
  | withdraw id' =>
    change (if id = id' then none else t.clock id) = none
    rw [hnone, ite_self]
  | start s hfs f hf => exact (if_neg hold).trans hnone
  | handOver hattached hfs hnext hid hlive =>
    refine (if_neg fun heq => ?_).trans hnone
    exact hlive (heq ▸ hnone)
  | disconnect | lost => exact hlost
  | connect f hf => exact (if_neg hold).trans hlost

end Step

end Traffic

namespace Writing

theorem takenOf_cons (g : Nat) (w : Writing) (log : List Writing) :
    takenOf g (w :: log) = takenOf g [w] ++ takenOf g log :=
  takenOf_append g [w] log

theorem mem_ids_takenOf {w : Writing} {log : List Writing} (hw : w ∈ log) {id : Nat}
    (hid : w.frame.requestId? = some id) : id ∈ Frame.ids (takenOf w.line log) := by
  refine List.mem_filterMap.mpr ⟨w.frame, ?_, hid⟩
  exact List.mem_map_of_mem (List.mem_filter.mpr ⟨hw, decide_eq_true rfl⟩)

theorem nodup_ids {log : List Writing} (honce : ∀ g, (Frame.ids (takenOf g log)).Nodup)
    (hapart : ∀ g g' id, id ∈ Frame.ids (takenOf g log) → id ∈ Frame.ids (takenOf g' log) → g = g') :
    (Frame.ids (log.map frame)).Nodup := by
  induction log with
  | nil => exact List.nodup_nil
  | cons w rest ih =>
    have hsub : ∀ g, (Frame.ids (takenOf g rest)).Sublist (Frame.ids (takenOf g (w :: rest))) := by
      intro g
      rw [takenOf_cons, Frame.ids_append]
      exact List.sublist_append_right _ _
    have hrest := ih (fun g => (honce g).sublist (hsub g))
      fun g g' id hid hid' => hapart g g' id ((hsub g).subset hid) ((hsub g').subset hid')
    rw [List.map_cons, Frame.ids_cons]
    cases hw : w.frame.requestId? with
    | none => exact hrest
    | some id =>
      refine List.nodup_cons.mpr ⟨fun hid => ?_, hrest⟩
      obtain ⟨f, hf, hid⟩ := List.mem_filterMap.mp hid
      obtain ⟨w', hw', rfl⟩ := List.mem_map.mp hf
      have hself : id ∈ Frame.ids (takenOf w.line (w :: rest)) := mem_ids_takenOf List.mem_cons_self hw
      have hother : id ∈ Frame.ids (takenOf w'.line (w :: rest)) :=
        mem_ids_takenOf (List.mem_cons_of_mem _ hw') hid
      have htwice := honce w.line
      rw [takenOf_cons, takenOf_singleton_self, Frame.ids_append, Frame.ids_cons, hw] at htwice
      refine (List.nodup_append.mp htwice).2.2 id List.mem_cons_self id ?_ rfl
      rw [hapart _ _ id hself hother]
      exact mem_ids_takenOf hw' hid

theorem ids_handed_sublist (log : List Writing) :
    (Frame.ids (handed log)).Sublist (Frame.ids (log.map frame)) :=
  Traffic.ids_sublist (List.filter_sublist.map _)

end Writing

namespace Client

variable {c : Client}

theorem single_new (settings : Settings) (policy : HolderPolicy) (processId : Nat) (hashing : Hashing) :
    (new settings policy processId hashing).traffic.Single where
  fresh place id hid := by cases place <;> cases hid
  once place := by cases place <;> exact List.nodup_nil
  apart place place' id hid := by cases place <;> cases hid

theorem single_run (h : c.traffic.Single) (acts : List Act) : (c.run acts).traffic.Single := by
  induction acts generalizing c with
  | nil => exact h
  | cons a rest ih => exact ih (h.step (step_act a))

theorem nodup_handed (h : c.traffic.Single) {log : List Writing}
    (hwrites : c.wire.Writes c.ledger.taken log) : (Frame.ids (Writing.handed log)).Nodup := by
  have hsub : ∀ g, (Frame.ids (Writing.takenOf g log)).Sublist (Frame.ids (c.traffic.slot (some g))) := by
    intro g
    obtain ⟨rest, hrest⟩ := hwrites.front g
    rw [Traffic.slot, show (c.traffic.pushed g).getD [] = _ from hrest]
    exact Traffic.ids_sublist (List.sublist_append_left _ _)
  refine List.Nodup.sublist (Writing.ids_handed_sublist log) (Writing.nodup_ids ?_ ?_)
  · exact fun g => (h.once _).sublist (hsub g)
  · intro g g' id hid hid'
    exact Option.some.inj (h.apart _ _ id ((hsub g).subset hid) ((hsub g').subset hid'))

theorem not_mem_handed {id : Nat} (hlt : id < c.requests.nextId) (hgone : c.requests.contains id = false)
    (acts : List Act) : id ∉ Frame.ids (Writing.handed (writings acts c)) := by
  induction acts generalizing c with
  | nil => exact List.not_mem_nil
  | cons a rest ih =>
    have hstep := step_act (c := c) a
    have hgone' : (c.act a).requests.contains id = false :=
      RequestTable.clock_eq_none _ |>.mp
        (hstep.settled hlt (RequestTable.clock_eq_none _ |>.mpr hgone))
    have hrest := ih (Nat.lt_of_lt_of_le hlt hstep.nextId_le) hgone'
    rw [writings, gather, Writing.handed, List.filter_append, List.map_append, Frame.ids_append,
      List.mem_append, not_or]
    refine ⟨fun hid => ?_, hrest⟩
    obtain ⟨f, hf, hid⟩ := List.mem_filterMap.mp hid
    obtain ⟨w, hw, rfl⟩ := List.mem_map.mp hf
    obtain ⟨hw, hfresh⟩ := List.mem_filter.mp hw
    have hstale : w.stale = true := by
      rw [stale_of_writing? (Option.mem_toList.mp hw), isStale, hid]
      simp [hgone]
    rw [hstale] at hfresh
    cases hfresh

end Client

end LanguageClient
