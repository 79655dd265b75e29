import LanguageClient.Proofs.Client.Traffic

namespace LanguageClient

inductive Whereabouts
  | queue
  | outbound
  | transport

namespace Traffic

def queued (t : Traffic) : List Nat :=
  Frame.ids t.queue

def told (t : Traffic) : List Frame :=
  (t.attached.bind t.pushed).getD []

def progress (t : Traffic) : Nat :=
  t.attached.elim 0 t.taken

def written (t : Traffic) : List Nat :=
  Frame.ids (t.told.take t.progress)

def waiting (t : Traffic) : List Nat :=
  Frame.ids (t.told.drop t.progress)

def requestsAt (t : Traffic) : Whereabouts → List Nat
  | .queue => t.queued
  | .outbound => t.waiting
  | .transport => t.written

def HasLine (t : Traffic) : Prop :=
  ∀ g, t.attached = some g → ∃ fs, t.pushed g = some fs ∧ t.taken g ≤ fs.length

/-- Every live request has its frame in the queue or on the attached line, where nothing occurs twice,
and its time runs if and only if the frame was handed over. -/
structure Placed (t : Traffic) (log : List Milestone) : Prop where
  line : t.HasLine
  fresh : ∀ id ∈ t.queued ++ (t.written ++ t.waiting), id < t.nextId
  once : (t.queued ++ (t.written ++ t.waiting)).Nodup
  place : ∀ id deadline, t.clock id = some deadline →
    (id ∈ t.queued ∧ deadline = none) ∨ (id ∈ t.waiting ∧ deadline = none) ∨
      id ∈ t.written ∧ deadline.isSome ∧ ∃ g, t.attached = some g ∧ .handedOver g id ∈ log

theorem told_of_attached {t : Traffic} {g : Nat} {fs : List Frame} (hattached : t.attached = some g)
    (hfs : t.pushed g = some fs) : t.told = fs := by
  rw [told, hattached]
  exact congrArg (Option.getD · []) hfs

theorem progress_of_attached {t : Traffic} {g : Nat} (hattached : t.attached = some g) :
    t.progress = t.taken g := by
  rw [progress, hattached]
  rfl

theorem progress_advance {t : Traffic} {g : Nat} (hattached : t.attached = some g) :
    (t.advance g).progress = t.progress + 1 := by
  rw [progress_of_attached hattached, progress_of_attached (t := t.advance g) hattached]
  exact if_pos rfl

theorem told_of_not_attached {t : Traffic} (hattached : t.attached = none) : t.told = [] := by
  rw [told, hattached]
  rfl

theorem written_of_not_attached {t : Traffic} (hattached : t.attached = none) : t.written = [] := by
  rw [written, told_of_not_attached hattached, List.take_nil, Frame.ids_nil]

theorem waiting_of_not_attached {t : Traffic} (hattached : t.attached = none) : t.waiting = [] := by
  rw [waiting, told_of_not_attached hattached, List.drop_nil, Frame.ids_nil]

theorem queued_withdraw (t : Traffic) (id : Nat) :
    (t.withdraw id).queued = t.queued.filter (· != id) := by
  change Frame.ids (t.queue.filter _) = _
  rw [queued, Frame.ids, Frame.ids, List.filterMap_filter, List.filter_filterMap]
  congr 1
  funext f
  cases f.requestId? with
  | none => rfl
  | some id' => by_cases h : id' = id <;> simp [Option.filter, h]

theorem ids_withdraw_sublist (t : Traffic) (id : Nat) :
    ((t.withdraw id).queued ++ (t.written ++ t.waiting)).Sublist
      (t.queued ++ (t.written ++ t.waiting)) := by
  rw [queued_withdraw]
  exact List.filter_sublist.append_right _

section Advance

variable {t : Traffic} {g : Nat} {fs rest : List Frame} {f : Frame} (hattached : t.attached = some g)
  (hfs : t.pushed g = some fs) (hnext : fs.drop (t.taken g) = f :: rest)
include hattached hfs hnext

theorem written_advance : (t.advance g).written = t.written ++ f.requestId?.toList := by
  change Frame.ids (t.told.take (t.advance g).progress) = Frame.ids (t.told.take t.progress) ++ _
  rw [progress_advance hattached, progress_of_attached hattached, told_of_attached hattached hfs,
    List.take_add, hnext, Frame.ids_append]
  exact congrArg _ ((Frame.ids_cons f []).trans (List.append_nil _))

theorem waiting_advance : t.waiting = f.requestId?.toList ++ (t.advance g).waiting := by
  change Frame.ids (t.told.drop t.progress) = _ ++ Frame.ids (t.told.drop (t.advance g).progress)
  rw [progress_advance hattached, progress_of_attached hattached, told_of_attached hattached hfs,
    ← List.drop_drop, hnext, Frame.ids_cons]
  rfl

end Advance

structure Hears (t : Traffic) (fs : List Frame) (t' : Traffic) : Prop where
  attached : t'.attached = t.attached
  pushed : t'.pushed = (t.toWire.send fs).pushed
  taken : t'.taken = t.taken

namespace Placed

variable {t t' : Traffic} {log : List Milestone} (h : t.Placed log)
include h

section Hears

variable {fs : List Frame} (hhears : t.Hears fs t')
include hhears

theorem hasLine_of_hears : t'.HasLine := by
  intro g hg
  rw [hhears.attached] at hg
  obtain ⟨told, htold, hle⟩ := h.line g hg
  refine ⟨told ++ fs, ?_, ?_⟩
  · rw [hhears.pushed]
    simp [Wire.send, hg, htold]
  · rw [hhears.taken, List.length_append]
    exact Nat.le_add_right_of_le hle

theorem told_of_hears {g : Nat} (hg : t.attached = some g) :
    t'.told = t.told ++ fs ∧ t'.progress = t.progress ∧ t.progress ≤ t.told.length := by
  obtain ⟨told, htold, hle⟩ := h.line g hg
  have hg' : t'.attached = some g := hhears.attached.trans hg
  have htold' : t'.pushed g = some (told ++ fs) := by
    rw [hhears.pushed]
    simp [Wire.send, hg, htold]
  rw [told_of_attached hg htold, told_of_attached hg' htold', progress_of_attached hg,
    progress_of_attached hg', hhears.taken]
  exact ⟨rfl, rfl, hle⟩

theorem written_of_hears : t'.written = t.written := by
  cases hg : t.attached with
  | none => rw [written_of_not_attached hg, written_of_not_attached (hhears.attached.trans hg)]
  | some g =>
    obtain ⟨htold, hprogress, hle⟩ := h.told_of_hears hhears hg
    rw [written, written, htold, hprogress, List.take_append_of_le_length hle]

theorem waiting_of_hears {g : Nat} (hg : t.attached = some g) :
    t'.waiting = t.waiting ++ Frame.ids fs := by
  obtain ⟨htold, hprogress, hle⟩ := h.told_of_hears hhears hg
  rw [waiting, waiting, htold, hprogress, List.drop_append_of_le_length hle, Frame.ids_append]

theorem waiting_of_hears_silent (hfs : Frame.ids fs = []) : t'.waiting = t.waiting := by
  cases hg : t.attached with
  | none => rw [waiting_of_not_attached hg, waiting_of_not_attached (hhears.attached.trans hg)]
  | some g => rw [h.waiting_of_hears hhears hg, hfs, List.append_nil]

end Hears

theorem of_unmoved (hline : t'.HasLine)
    (hqueued : t'.queued = t.queued) (hwritten : t'.written = t.written)
    (hwaiting : t'.waiting = t.waiting) (hattached : t'.attached = t.attached)
    (hnext : t'.nextId = t.nextId)
    (hclock : ∀ id, t'.clock id = t.clock id ∨ t'.clock id = none) : t'.Placed log where
  line := hline
  fresh := by
    rw [hqueued, hwritten, hwaiting, hnext]
    exact h.fresh
  once := by
    rw [hqueued, hwritten, hwaiting]
    exact h.once
  place id deadline hid := by
    rw [hqueued, hwritten, hwaiting, hattached]
    obtain heq | hnone := hclock id
    · exact h.place id deadline (heq.symm.trans hid)
    · cases hnone.symm.trans hid

theorem tell (s : Documents) {fs : List Frame} (hfs : Frame.ids fs = []) :
    (t.tell s fs).Placed log := by
  have hhears : t.Hears fs (t.tell s fs) := ⟨rfl, rfl, rfl⟩
  exact h.of_unmoved (h.hasLine_of_hears hhears) rfl (h.written_of_hears hhears)
    (h.waiting_of_hears_silent hhears hfs) rfl rfl fun _ => .inl rfl

theorem hold {f : Frame} (hf : f.requestId? = none) :
    { t with queue := t.queue ++ [f] }.Placed log := by
  refine h.of_unmoved h.line ?_ rfl rfl rfl rfl fun _ => .inl rfl
  change Frame.ids (t.queue ++ [f]) = Frame.ids t.queue
  rw [Frame.ids_append, Frame.ids_cons, hf]
  exact List.append_nil _

theorem settle {clock : Nat → Option (Option Nat)}
    (hclock : ∀ id, clock id = t.clock id ∨ clock id = none) : { t with clock }.Placed log :=
  h.of_unmoved h.line rfl rfl rfl rfl rfl hclock

theorem learn (capabilities : Option ServerCapabilities) : { t with capabilities }.Placed log :=
  h.of_unmoved h.line rfl rfl rfl rfl rfl fun _ => .inl rfl

theorem withdraw (id : Nat) : (t.withdraw id).Placed log where
  line := h.line
  fresh id' hid := h.fresh id' ((t.ids_withdraw_sublist id).subset hid)
  once := h.once.sublist (t.ids_withdraw_sublist id)
  place id' deadline hid := by
    change (if id' = id then none else t.clock id') = some deadline at hid
    split at hid
    next => cases hid
    next hne =>
      refine (h.place id' deadline hid).imp_left ?_
      rintro ⟨hid, hnone⟩
      rw [queued_withdraw]
      exact ⟨List.mem_filter.mpr ⟨hid, bne_iff_ne.mpr hne⟩, hnone⟩

theorem of_issued (hline : t'.HasLine)
    (hperm : (t'.queued ++ (t'.written ++ t'.waiting)).Perm
      (t.nextId :: (t.queued ++ (t.written ++ t.waiting))))
    (hnew : t.nextId ∈ t'.queued ∨ t.nextId ∈ t'.waiting)
    (hqueued : ∀ id ∈ t.queued, id ∈ t'.queued) (hwaiting : ∀ id ∈ t.waiting, id ∈ t'.waiting)
    (hwritten : ∀ id ∈ t.written, id ∈ t'.written ∧ t'.attached = t.attached)
    (hnext : t'.nextId = t.nextId + 1)
    (hclock : t'.clock = fun id => if id = t.nextId then some none else t.clock id) :
    t'.Placed log where
  line := hline
  fresh id hid := by
    rw [hnext]
    cases hperm.mem_iff.mp hid with
    | head => exact Nat.lt_succ_self _
    | tail _ hid => exact Nat.lt_succ_of_lt (h.fresh id hid)
  once := by
    refine hperm.nodup_iff.mpr (List.nodup_cons.mpr ⟨fun hmem => ?_, h.once⟩)
    exact Nat.lt_irrefl _ (h.fresh _ hmem)
  place id deadline hid := by
    rw [hclock] at hid
    dsimp only at hid
    split at hid
    next heq =>
      cases hid
      rw [heq]
      exact hnew.imp (⟨·, rfl⟩) fun hnew => .inl ⟨hnew, rfl⟩
    next =>
      obtain ⟨hid, hnone⟩ | ⟨hid, hnone⟩ | ⟨hid, hsome, g, hg, hlog⟩ := h.place id deadline hid
      · exact .inl ⟨hqueued id hid, hnone⟩
      · exact .inr (.inl ⟨hwaiting id hid, hnone⟩)
      · obtain ⟨hid, hattached⟩ := hwritten id hid
        exact .inr (.inr ⟨hid, hsome, g, hattached.trans hg, hlog⟩)

theorem start {f : Frame} (hf : f.requestId? = some t.nextId) : (t.start f).Placed log := by
  have hids : Frame.ids [f] = [t.nextId] := by
    rw [Frame.ids_cons, hf]
    rfl
  by_cases hready : t.isReady = true
  · obtain ⟨hattached, -⟩ := Bool.and_eq_true_iff.mp hready
    obtain ⟨g, hg⟩ := Option.isSome_iff_exists.mp hattached
    have hwire : t.toWire.enqueue f = t.toWire.send [f] := if_pos hready
    have hhears : t.Hears [f] (t.start f) := by
      rw [Traffic.start, hwire]
      exact ⟨rfl, rfl, rfl⟩
    have hqueued : (t.start f).queued = t.queued := by
      rw [Traffic.start, hwire]
      rfl
    have hwritten := h.written_of_hears hhears
    have hwaiting := h.waiting_of_hears hhears hg
    rw [hids] at hwaiting
    refine h.of_issued (h.hasLine_of_hears hhears) ?_ ?_ ?_ ?_ ?_ rfl rfl
    · rw [hqueued, hwritten, hwaiting, ← List.append_assoc t.written, ← List.append_assoc t.queued]
      exact List.perm_append_singleton _ _
    · rw [hwaiting]
      exact .inr List.mem_concat_self
    · exact fun id hid => hqueued ▸ hid
    · exact fun id hid => hwaiting ▸ List.mem_append_left _ hid
    · exact fun id hid => ⟨hwritten ▸ hid, hhears.attached⟩
  · have hwire : t.toWire.enqueue f = { t.toWire with queue := t.queue ++ [f] } := if_neg hready
    have hqueued : (t.start f).queued = t.queued ++ [t.nextId] := by
      rw [Traffic.start, hwire, ← hids]
      exact Frame.ids_append _ _
    rw [Traffic.start, hwire] at hqueued ⊢
    refine h.of_issued h.line ?_ ?_ ?_ (fun _ => id) (fun _ hid => ⟨hid, rfl⟩) rfl rfl
    · rw [hqueued, List.append_assoc]
      exact List.perm_middle
    · rw [hqueued]
      exact .inl List.mem_concat_self
    · exact fun id hid => hqueued ▸ List.mem_append_left _ hid

theorem queued_of_letGo {id : Nat} {deadline : Option Nat}
    (hid : t.letGo.clock id = some deadline) : id ∈ t.queued ∧ deadline = none := by
  change (if (t.attached.bind t.pushed).isSome ∧ id ∉ t.queued then none else t.clock id) =
    some deadline at hid
  split at hid
  next => cases hid
  next hkept =>
    obtain hplace | hplace := h.place id deadline hid
    · exact hplace
    · have hid : id ∈ t.written ++ t.waiting := by
        obtain ⟨hid, -⟩ | ⟨hid, -⟩ := hplace
        · exact List.mem_append_right _ hid
        · exact List.mem_append_left _ hid
      cases hattached : t.attached with
      | none =>
        rw [written_of_not_attached hattached, waiting_of_not_attached hattached] at hid
        cases hid
      | some g =>
        -- it was handed to a line, so it must be queued to be kept, and it is not in two places
        obtain ⟨fs, hfs, -⟩ := h.line g hattached
        have hsome : (t.attached.bind t.pushed).isSome := by
          rw [hattached]
          exact Option.isSome_of_eq_some hfs
        have hqueued : id ∈ t.queued := Decidable.byContradiction fun hnot => hkept ⟨hsome, hnot⟩
        exact ((List.nodup_append.mp h.once).2.2 id hqueued id hid rfl).elim

theorem disconnect : t.disconnect.Placed log where
  line g hg := by cases hg
  fresh id hid := by
    rw [written_of_not_attached rfl, waiting_of_not_attached rfl, List.append_nil,
      List.append_nil] at hid
    exact h.fresh id (List.mem_append_left _ hid)
  once := by
    rw [written_of_not_attached rfl, waiting_of_not_attached rfl, List.append_nil, List.append_nil]
    exact (List.nodup_append.mp h.once).1
  place id deadline hid := .inl (h.queued_of_letGo hid)

theorem connect {f : Frame} (hf : f.requestId? = some t.nextId) : (t.connect f).Placed log := by
  have hattached : (t.connect f).attached = some (t.generation + 1) := rfl
  have hpushed : (t.connect f).pushed (t.generation + 1) = some [f] := by
    simp [Traffic.connect, Wire.send, Wire.attach]
  have htaken : (t.connect f).taken (t.generation + 1) = 0 := if_pos rfl
  have hwritten : (t.connect f).written = [] := by
    rw [written, progress_of_attached hattached, htaken]
    rfl
  have hwaiting : (t.connect f).waiting = [t.nextId] := by
    rw [waiting, progress_of_attached hattached, htaken, told_of_attached hattached hpushed,
      List.drop_zero, Frame.ids_cons, hf]
    rfl
  have hqueued : (t.connect f).queued = t.disconnect.queued := rfl
  have hwritten' : t.disconnect.written = [] := written_of_not_attached rfl
  have hwaiting' : t.disconnect.waiting = [] := waiting_of_not_attached rfl
  refine h.disconnect.of_issued ?_ ?_ ?_ (fun _ => id) ?_ ?_ rfl rfl
  · intro g hg
    cases hg
    exact ⟨[f], hpushed, htaken ▸ Nat.zero_le _⟩
  · rw [hqueued, hwritten, hwaiting, hwritten', hwaiting', List.append_nil, List.append_nil]
    exact List.perm_append_singleton _ _
  · rw [hwaiting]
    exact .inr List.mem_cons_self
  · intro id hid
    rw [hwaiting'] at hid
    cases hid
  · intro id hid
    rw [hwritten'] at hid
    cases hid

theorem complete (s : Documents) {fs : List Frame} {result : InitializeResult}
    (hattached : t.attached.isSome) (hfs : Frame.ids fs = []) :
    (t.complete s fs result).Placed log := by
  obtain ⟨g, hg⟩ := Option.isSome_iff_exists.mp hattached
  have hhears : t.Hears (fs ++ t.queue) (t.complete s fs result) := ⟨rfl, rfl, rfl⟩
  have hqueued : (t.complete s fs result).queued = [] := rfl
  have hwritten := h.written_of_hears hhears
  have hwaiting : (t.complete s fs result).waiting = t.waiting ++ t.queued := by
    rw [h.waiting_of_hears hhears hg, Frame.ids_append, hfs]
    rfl
  have hperm : ([] ++ (t.written ++ (t.waiting ++ t.queued))).Perm
      (t.queued ++ (t.written ++ t.waiting)) := by
    rw [List.nil_append, ← List.append_assoc]
    exact List.perm_append_comm
  exact {
    line := h.hasLine_of_hears hhears
    fresh := fun id hid => by
      rw [hqueued, hwritten, hwaiting] at hid
      exact h.fresh id (hperm.mem_iff.mp hid)
    once := by
      rw [hqueued, hwritten, hwaiting]
      exact hperm.nodup_iff.mpr h.once
    place := fun id deadline hid => by
      rw [hwritten, hwaiting]
      obtain ⟨hid, hnone⟩ | ⟨hid, hnone⟩ | hwritten := h.place id deadline hid
      · exact .inr (.inl ⟨List.mem_append_right _ hid, hnone⟩)
      · exact .inr (.inl ⟨List.mem_append_left _ hid, hnone⟩)
      · exact .inr (.inr hwritten) }

theorem mono (more : List Milestone) : t.Placed (log ++ more) where
  line := h.line
  fresh := h.fresh
  once := h.once
  place id deadline hid := by
    refine (h.place id deadline hid).imp_right (.imp_right ?_)
    rintro ⟨hid, hsome, g, hg, hlog⟩
    exact ⟨hid, hsome, g, hg, List.mem_append_left _ hlog⟩

section Advance

variable {g : Nat} {fs rest : List Frame} {f : Frame} (hattached : t.attached = some g)
  (hfs : t.pushed g = some fs) (hnext : fs.drop (t.taken g) = f :: rest)
include hattached hfs hnext

theorem advance {clock : Nat → Option (Option Nat)}
    (hclock : ∀ id deadline, clock id = some deadline →
      (f.requestId? = some id ∧ deadline.isSome ∧ .handedOver g id ∈ log) ∨
        f.requestId? ≠ some id ∧ t.clock id = some deadline) :
    { t.advance g with clock }.Placed log := by
  have hwritten : { t.advance g with clock }.written = t.written ++ f.requestId?.toList :=
    written_advance hattached hfs hnext
  have hwaiting : t.waiting = f.requestId?.toList ++ { t.advance g with clock }.waiting :=
    waiting_advance hattached hfs hnext
  have hids : { t.advance g with clock }.written ++ { t.advance g with clock }.waiting =
      t.written ++ t.waiting := by
    rw [hwritten, hwaiting, List.append_assoc]
  exact {
    line := fun g' hg' => by
      cases hattached.symm.trans hg'
      refine ⟨fs, hfs, ?_⟩
      change (if g = g then t.taken g + 1 else t.taken g) ≤ fs.length
      rw [if_pos rfl]
      refine Nat.lt_of_not_le fun hle => ?_
      cases hnext.symm.trans (List.drop_eq_nil_of_le hle)
    fresh := fun id hid => by
      rw [hids] at hid
      exact h.fresh id hid
    once := by
      rw [hids]
      exact h.once
    place := fun id deadline hid => by
      obtain ⟨hf, hsome, hlog⟩ | ⟨hf, hid⟩ := hclock id deadline hid
      · refine .inr (.inr ⟨?_, hsome, g, hattached, hlog⟩)
        rw [hwritten, hf]
        exact List.mem_append_right _ List.mem_cons_self
      · refine (h.place id deadline hid).imp_right (.imp ?_ ?_)
        · rintro ⟨hid, hnone⟩
          rw [hwaiting] at hid
          refine ⟨(List.mem_append.mp hid).resolve_left fun hid => hf ?_, hnone⟩
          exact Option.mem_toList.mp hid
        · rintro ⟨hid, hplaced⟩
          rw [hwritten]
          exact ⟨List.mem_append_left _ hid, hplaced⟩ }

theorem pass {clock : Nat → Option (Option Nat)}
    (hclock : ∀ id, clock id = t.clock id ∨ clock id = none)
    (hgone : ∀ id, f.requestId? = some id → clock id = none) :
    { t.advance g with clock }.Placed log := by
  refine h.advance hattached hfs hnext fun id deadline hid => .inr ⟨fun hf => ?_, ?_⟩
  · cases (hgone id hf).symm.trans hid
  · obtain heq | hnone := hclock id
    · exact heq.symm.trans hid
    · cases hnone.symm.trans hid

theorem handOver {id deadline : Nat} (hid : f.requestId? = some id) :
    { t.advance g with
      clock := fun id' => if id' = id then some (some deadline) else t.clock id' }.Placed
        (log ++ [Milestone.handedOver g id]) := by
  refine (h.mono _).advance hattached hfs hnext fun id' deadline' hid' => ?_
  split at hid'
  next heq =>
    cases hid'
    exact .inl ⟨heq ▸ hid, rfl, heq ▸ List.mem_concat_self⟩
  next hne =>
    refine .inr ⟨fun hf => hne ?_, hid'⟩
    exact Option.some.inj (hf.symm.trans hid)

end Advance

theorem step {m : Option Milestone} (hstep : Step t m t') : t'.Placed (log ++ m.toList) := by
  cases hstep with
  | tell s hfs => exact (h.tell s hfs).mono _
  | hold hf => exact (h.hold hf).mono _
  | settle hclock => exact (h.settle hclock).mono _
  | withdraw id => exact (h.withdraw id).mono _
  | start s hfs f hf => exact ((h.tell s hfs).start hf).mono _
  | pass hattached hfs hnext hclock hgone =>
    exact (h.pass hattached hfs hnext hclock hgone).mono _
  | handOver hattached hfs hnext hid hlive => exact h.handOver hattached hfs hnext hid
  | disconnect => exact h.disconnect.mono _
  | connect f hf => exact (h.connect hf).mono _
  | complete s hgeneration hattached hfs => exact (h.complete s hattached hfs).mono _
  | late hgeneration => exact (h.learn _).mono _
  | lost hgeneration hattached => exact h.disconnect.mono _

theorem place_unique {id : Nat} {w w' : Whereabouts} (hw : id ∈ t.requestsAt w)
    (hw' : id ∈ t.requestsAt w') : w = w' := by
  obtain ⟨-, hline, hqueued⟩ := List.nodup_append.mp h.once
  obtain ⟨-, -, hwritten⟩ := List.nodup_append.mp hline
  have hline : id ∈ t.queued → id ∉ t.written ++ t.waiting := fun hid hmem =>
    hqueued id hid id hmem rfl
  have hwaiting : id ∈ t.written → id ∉ t.waiting := fun hid hmem => hwritten id hid id hmem rfl
  rw [List.mem_append, not_or] at hline
  cases w with
  | queue =>
    cases w' with
    | queue => rfl
    | outbound => exact ((hline hw).2 hw').elim
    | transport => exact ((hline hw).1 hw').elim
  | outbound =>
    cases w' with
    | queue => exact ((hline hw').2 hw).elim
    | outbound => rfl
    | transport => exact (hwaiting hw' hw).elim
  | transport =>
    cases w' with
    | queue => exact ((hline hw').1 hw).elim
    | outbound => exact (hwaiting hw hw').elim
    | transport => rfl

end Placed

/-- No live request is on a line that was let go. -/
def Forsaken (t : Traffic) : Prop :=
  ∀ g fs, t.pushed g = some fs → t.attached ≠ some g →
    ∀ id ∈ Frame.ids fs, t.clock id = none ∧ id < t.nextId

namespace Forsaken

variable {t t' : Traffic} {log : List Milestone} (h : t.Forsaken)
include h

theorem of_kept
    (hlines : ∀ g, t'.attached ≠ some g → t'.pushed g = t.pushed g ∧ t.attached ≠ some g)
    (hnext : t.nextId ≤ t'.nextId)
    (hclock : ∀ id, id < t.nextId → t.clock id = none → t'.clock id = none) : t'.Forsaken := by
  intro g fs hfs hg id hid
  obtain ⟨hpushed, hg⟩ := hlines g hg
  obtain ⟨hnone, hlt⟩ := h g fs (hpushed ▸ hfs) hg id hid
  exact ⟨hclock id hlt hnone, Nat.lt_of_lt_of_le hlt hnext⟩

theorem of_unmoved (hattached : t'.attached = t.attached) (hpushed : t'.pushed = t.pushed)
    (hnext : t'.nextId = t.nextId) (hclock : ∀ id, t.clock id = none → t'.clock id = none) :
    t'.Forsaken := by
  refine h.of_kept (fun g hg => ⟨by rw [hpushed], ?_⟩) (Nat.le_of_eq hnext.symm) fun id _ => hclock id
  rwa [hattached] at hg

theorem tell (s : Documents) (fs : List Frame) : (t.tell s fs).Forsaken :=
  h.of_kept (fun _ hg => ⟨if_neg hg, hg⟩) (Nat.le_refl _) fun _ _ => id

theorem disconnect (hplaced : t.Placed log) : t.disconnect.Forsaken := by
  intro g fs hfs _ id hid
  change t.pushed g = some fs at hfs
  by_cases hattached : t.attached = some g
  · have hmem : id ∈ t.written ++ t.waiting := by
      rw [written, waiting, ← Frame.ids_append, List.take_append_drop,
        told_of_attached hattached hfs]
      exact hid
    have hnot : id ∉ t.queued := fun hqueued =>
      (List.nodup_append.mp hplaced.once).2.2 id hqueued id hmem rfl
    refine ⟨?_, hplaced.fresh id (List.mem_append_right _ hmem)⟩
    cases hclock : t.disconnect.clock id with
    | none => rfl
    | some deadline => exact (hnot (hplaced.queued_of_letGo hclock).1).elim
  · obtain ⟨hnone, hlt⟩ := h g fs hfs hattached id hid
    refine ⟨?_, hlt⟩
    change (if _ then none else t.clock id) = none
    rw [hnone, ite_self]

theorem connect (hplaced : t.Placed log) (f : Frame) : (t.connect f).Forsaken := by
  refine (h.disconnect hplaced).of_kept (fun g hg => ⟨?_, fun heq => by cases heq⟩) (Nat.le_succ _)
    fun id hlt hnone => (if_neg (Nat.ne_of_lt hlt)).trans hnone
  have hne : t.generation + 1 ≠ g := fun heq => hg (congrArg some heq)
  exact (if_neg hg).trans (if_neg hne)

theorem start (f : Frame) : (t.start f).Forsaken := by
  refine h.of_kept (fun g hg => ?_) (Nat.le_succ _)
    fun id hlt hnone => (if_neg (Nat.ne_of_lt hlt)).trans hnone
  change (t.toWire.enqueue f).attached ≠ some g at hg
  rw [Wire.attached_enqueue] at hg
  exact ⟨Wire.pushed_enqueue_of_ne hg f, hg⟩

theorem step (hplaced : t.Placed log) {m : Option Milestone} (hstep : Step t m t') :
    t'.Forsaken := by
  cases hstep with
  | tell s hfs => exact h.tell s _
  | hold hf => exact h.of_unmoved rfl rfl rfl fun _ => id
  | settle hclock | pass hattached hfs hnext hclock hgone =>
    refine h.of_unmoved rfl rfl rfl fun id hnone => ?_
    exact (hclock id).elim (·.trans hnone) fun hnone => hnone
  | withdraw id =>
    refine h.of_unmoved rfl rfl rfl fun id' hnone => ?_
    change (if id' = id then none else t.clock id') = none
    rw [hnone, ite_self]
  | start s hfs f hf => exact (h.tell s _).start f
  | handOver hattached hfs hnext hid hlive =>
    refine h.of_unmoved rfl rfl rfl fun id hnone => (if_neg fun heq => ?_).trans hnone
    exact hlive (heq ▸ hnone)
  | disconnect => exact h.disconnect hplaced
  | connect f hf => exact h.connect hplaced f
  | complete s hgeneration hattached hfs =>
    exact h.of_kept (fun _ hg => ⟨if_neg hg, hg⟩) (Nat.le_refl _) fun _ _ => id
  | late hgeneration => exact h
  | lost hgeneration hattached => exact h.disconnect hplaced

end Forsaken

end Traffic

end LanguageClient
