import LanguageClient.Proofs.Client.Bond
import LanguageClient.Proofs.Client.Deed
import LanguageClient.Proofs.Client.Mapping
import LanguageClient.Proofs.Client.Mirror
import LanguageClient.Proofs.Client.Writer

namespace LanguageClient

namespace Deed

def frames : Deed → List Frame
  | .speak notices calls answers => notices ++ (calls ++ answers)
  | _ => []

def answers : Deed → List Frame
  | .speak _ _ answers => answers
  | _ => []

def completes : Deed → Bool
  | .complete _ => true
  | _ => false

end Deed

namespace Wire

def tells (w : Wire) : Deed → List Frame
  | .complete greeting => greeting ++ w.queue
  | d => if w.isReady then d.frames else d.answers

variable {w : Wire} {d : Deed} {g : Nat}

theorem pushed_send_of_ne (h : w.attached ≠ some g) (fs : List Frame) :
    (w.send fs).pushed g = w.pushed g :=
  if_neg h

theorem pushed_attach (first : Frame) :
    (w.attach.send [first]).pushed (w.generation + 1) = some [first] := by
  simp [attach, send]

theorem pushed_after (hg : g ≤ w.generation) :
    (w.after d).pushed g =
      if w.attached = some g then (w.pushed g).map (· ++ w.tells d) else w.pushed g := by
  have hsilent : w.tells d = [] →
      w.pushed g = if w.attached = some g then (w.pushed g).map (· ++ w.tells d) else w.pushed g := by
    intro h
    simp [h]
  cases d with
  | speak notices calls answers =>
    by_cases hready : w.isReady = true <;>
      simp [after, tells, Deed.frames, Deed.answers, hready, send]
  | attach first =>
    have hne : w.generation + 1 ≠ g := Nat.ne_of_gt (Nat.lt_succ_of_le hg)
    rw [← hsilent (ite_self _)]
    exact (pushed_send_of_ne (fun h => hne (Option.some.inj h)) _).trans (if_neg hne)
  | complete greeting => rfl
  | withdraw _ | write _ | letGo => exact hsilent (ite_self _)

theorem generation_after_le : w.generation ≤ (w.after d).generation := by
  cases d with
  | speak notices calls answers =>
    rw [after]
    split <;> exact Nat.le_refl _
  | attach first => exact Nat.le_succ _
  | letGo => exact Nat.le_succ _
  | _ => exact Nat.le_refl _

theorem of_attached_after (hg : g ≤ w.generation) (h : (w.after d).attached = some g) :
    w.attached = some g ∧ (w.after d).ready = (w.ready || d.completes) := by
  cases d with
  | speak notices calls answers =>
    have hkept : (w.after (.speak notices calls answers)).attached = w.attached ∧
        (w.after (.speak notices calls answers)).ready = w.ready := by
      rw [after]
      split <;> exact ⟨rfl, rfl⟩
    exact ⟨hkept.1.symm.trans h, hkept.2.trans (Bool.or_false _).symm⟩
  | attach first =>
    cases Option.some.inj h
    exact absurd hg (Nat.not_succ_le_self _)
  | complete greeting => exact ⟨h, (Bool.or_true _).symm⟩
  | letGo => cases h
  | withdraw _ | write _ => exact ⟨h, (Bool.or_false _).symm⟩

end Wire

namespace Client

def tells (c : Client) (a : Act) : List Frame :=
  c.wire.tells (c.deed a)

def frames (c : Client) (a : Act) : List Frame :=
  (c.deed a).frames

def answers (c : Client) (a : Act) : List Frame :=
  (c.deed a).answers

def saidOn (g : Nat) (say : Client → Act → List Frame) : List Act → Client → List Frame :=
  gather fun c a => if c.attached = some g then say c a else []

theorem saidOn_cons (g : Nat) (say : Client → Act → List Frame) (a : Act) (rest : List Act)
    (c : Client) :
    saidOn g say (a :: rest) c =
      (if c.attached = some g then say c a else []) ++ saidOn g say rest (c.act a) :=
  rfl

theorem saidOn_append (g : Nat) (say : Client → Act → List Frame) (acts more : List Act)
    (c : Client) :
    saidOn g say (acts ++ more) c = saidOn g say acts c ++ saidOn g say more (c.run acts) :=
  gather_append _ acts more c

def OnlyAnswers (fs : List Frame) : Prop :=
  ∀ f ∈ fs, ∃ r, f = .response r

def Act.resumes? : Act → Option Nat
  | .finishConnect generation _ => some generation
  | _ => none

section Act

variable {c : Client} {a : Act} {g : Nat}

theorem pushed_act (hg : g ≤ c.generation) :
    (c.act a).wire.pushed g =
      if c.attached = some g then (c.wire.pushed g).map (· ++ c.tells a) else c.wire.pushed g := by
  obtain ⟨s, p, hwire⟩ := (does_act (c := c) a).wire
  rw [hwire]
  exact Wire.pushed_after hg

theorem generation_act_le : c.generation ≤ (c.act a).generation := by
  obtain ⟨s, p, hwire⟩ := (does_act (c := c) a).wire
  have hle := Wire.generation_after_le (w := c.wire) (d := c.deed a)
  exact le_of_le_of_eq hle (congrArg Wire.generation hwire).symm

theorem of_attached_act (hg : g ≤ c.generation) (h : (c.act a).attached = some g) :
    c.attached = some g ∧ (c.act a).ready = (c.ready || (c.deed a).completes) := by
  obtain ⟨s, p, hwire⟩ := (does_act (c := c) a).wire
  have hattached : (c.wire.after (c.deed a)).attached = some g :=
    (congrArg Wire.attached hwire).symm.trans h
  obtain ⟨hbefore, hready⟩ := Wire.of_attached_after hg hattached
  exact ⟨hbefore, (congrArg Wire.ready hwire).trans hready⟩

theorem exists_of_completes (h : (c.deed a).completes = true) :
    ∃ generation outcome, a = .finishConnect generation outcome ∧
      c.completes generation outcome = true := by
  cases a with
  | finishConnect generation outcome =>
    refine ⟨generation, outcome, rfl, ?_⟩
    rw [deed] at h
    split at h
    next hcompletes => exact hcompletes
    next => split at h <;> cases h
  | _ =>
    rw [deed] at h
    repeat' split at h
    all_goals cases h

theorem deed_of_completes {generation : Nat} {outcome : Outcome}
    (h : c.completes generation outcome = true) :
    c.deed (.finishConnect generation outcome) = .complete c.greeting :=
  if_pos h

theorem documents_of_completes {generation : Nat} {outcome : Outcome}
    (h : c.completes generation outcome = true) :
    (c.act (.finishConnect generation outcome)).documents = c.documents.sync.2 := by
  have hwire := c.wire_finishConnect generation outcome
  rw [if_pos h] at hwire
  exact congrArg Wire.documents hwire

theorem attached_of_completes (htied : c.bond.Tied) {outcome : Outcome}
    (h : c.completes g outcome = true) : c.attached = some g := by
  cases outcome with
  | error e => cases h
  | ok v =>
    obtain ⟨hgeneration, hsome⟩ := Bool.and_eq_true_iff.mp h
    obtain ⟨g', hg'⟩ := Option.isSome_iff_exists.mp hsome
    have hlatest : c.generation = g' := htied.latest g' hg'
    rw [hg', ← hlatest, eq_of_beq (Bool.and_eq_true_iff.mp hgeneration).2]

theorem onlyAnswers_answers : OnlyAnswers (c.answers a) := by
  intro f hf
  cases a with
  | receive raw =>
    change f ∈ c.replies raw at hf
    rw [replies] at hf
    repeat' split at hf
    all_goals first | cases hf; done | exact ⟨_, List.mem_singleton.mp hf⟩
  | respond id answer => exact ⟨_, List.mem_singleton.mp hf⟩
  | _ =>
    rw [answers, deed] at hf
    repeat' split at hf
    all_goals cases hf

end Act

section Run

variable {c : Client} {g : Nat}

theorem pushed_run (hg : g ≤ c.generation) (acts : List Act) :
    (c.run acts).wire.pushed g = (c.wire.pushed g).map (· ++ saidOn g tells acts c) := by
  induction acts generalizing c with
  | nil => simp [run, saidOn, gather]
  | cons a rest ih =>
    have hrest := ih (c := c.act a) (Nat.le_trans hg generation_act_le)
    rw [run, List.foldl_cons, ← run, hrest, pushed_act hg, saidOn_cons]
    split <;> simp [Function.comp_def]

theorem generation_run_le (acts : List Act) : c.generation ≤ (c.run acts).generation := by
  induction acts generalizing c with
  | nil => exact Nat.le_refl _
  | cons a rest ih => exact Nat.le_trans generation_act_le ih

theorem pushed_beginConnect (c : Client) (transport : Nat) :
    let c' := c.act (.beginConnect transport)
    c'.ready = false ∧ c'.wire.pushed c'.generation = some [c.initializeFrame] := by
  obtain ⟨s, p, hwire⟩ := (does_act (c := c) (.beginConnect transport)).wire
  refine ⟨congrArg Wire.ready hwire, ?_⟩
  change (c.act (.beginConnect transport)).wire.pushed (c.act (.beginConnect transport)).wire.generation = _
  rw [hwire]
  exact Wire.pushed_attach _

theorem onlyAnswers_saidOn (acts : List Act) : OnlyAnswers (saidOn g answers acts c) := by
  induction acts generalizing c with
  | nil =>
    intro f hf
    cases hf
  | cons a rest ih =>
    intro f hf
    rw [saidOn_cons, List.mem_append] at hf
    obtain hf | hf := hf
    · split at hf
      · exact onlyAnswers_answers f hf
      · cases hf
    · exact ih f hf

/-- The handshake of a generation is completed: its caller goes on with an answer that can be read, and
finds his own connection. -/
def Greeted (g : Nat) (c : Client) (acts : List Act) : Prop :=
  ∃ mid outcome post, acts = mid ++ .finishConnect g outcome :: post ∧
    (c.run mid).completes g outcome = true

theorem not_greeted_of_not_mem {acts : List Act} (h : g ∉ acts.filterMap Act.resumes?) :
    ¬Greeted g c acts := by
  rintro ⟨mid, outcome, post, rfl, -⟩
  refine h (List.mem_filterMap.mpr ⟨.finishConnect g outcome, ?_, rfl⟩)
  exact List.mem_append_right _ List.mem_cons_self

theorem tells_of_not_completes {a : Act} (h : (c.deed a).completes = false) :
    c.tells a = if c.isReady then c.frames a else c.answers a := by
  rw [tells, frames, answers]
  cases hdeed : c.deed a with
  | complete greeting =>
    rw [hdeed] at h
    cases h
  | _ => rfl

theorem saidOn_tells {acts : List Act} {ready : Bool} (htied : c.bond.Tied) (hg : g ≤ c.generation)
    (hready : c.attached = some g → c.ready = ready) (hquiet : ¬Greeted g c acts) :
    saidOn g tells acts c = saidOn g (if ready then frames else answers) acts c ∧
      ((c.run acts).attached = some g → (c.run acts).ready = ready) := by
  induction acts generalizing c with
  | nil => exact ⟨rfl, hready⟩
  | cons a rest ih =>
    have hnot : c.attached = some g → (c.deed a).completes = false := by
      intro hattached
      refine Bool.eq_false_iff.mpr fun hdeed => hquiet ?_
      obtain ⟨generation, outcome, rfl, hcompletes⟩ := exists_of_completes hdeed
      cases (attached_of_completes htied hcompletes).symm.trans hattached
      exact ⟨[], outcome, rest, rfl, hcompletes⟩
    have hready' : (c.act a).attached = some g → (c.act a).ready = ready := by
      intro hattached
      obtain ⟨hbefore, hkept⟩ := of_attached_act hg hattached
      rw [hkept, hready hbefore, hnot hbefore, Bool.or_false]
    have hquiet' : ¬Greeted g (c.act a) rest := by
      rintro ⟨mid, outcome, post, rfl, hcompletes⟩
      exact hquiet ⟨a :: mid, outcome, post, rfl, hcompletes⟩
    have htied' : (c.act a).bond.Tied := htied.step (c.bond_step a)
    obtain ⟨hrest, hend⟩ := ih htied' (Nat.le_trans hg generation_act_le) hready' hquiet'
    refine ⟨?_, hend⟩
    rw [saidOn_cons, saidOn_cons, hrest]
    congr 1
    by_cases hattached : c.attached = some g
    · rw [if_pos hattached, if_pos hattached, tells_of_not_completes (hnot hattached), isReady,
        hattached, hready hattached]
      cases ready <;> rfl
    · rw [if_neg hattached, if_neg hattached]

end Run

/-- The server is told of every open document, in the order of the uris, with its version and its
current text. -/
structure Introduced (before after : Documents) (fs : List Frame) : Prop where
  sorted : after.workspace.files.Pairwise fun e e' => e.1 < e'.1
  current : ∀ uri, (after.get? uri).map (fun d => (d.languageId, d.text)) =
    (before.get? uri).map fun d => (d.languageId, d.text)
  told : fs.map Frame.documentNotice? =
    after.workspace.files.map fun e => some (.opened e.1 e.2.version e.2.text)

theorem introduced_openFrames {s : Documents} (hs : s.Sound) :
    Introduced s s.sync.2 s.sync.2.openFrames where
  sorted := hs.sync.sorted
  current uri := by
    rw [Documents.get?_sync, Option.map_map]
    congr 1
    funext d
    rw [Function.comp, Document.synced]
    split <;> rfl
  told := by
    rw [Documents.openFrames, List.map_map]
    refine List.map_congr_left fun e he => ?_
    have hget : s.sync.2.get? e.1 = some e.2 := hs.sync.sorted.get?_of_mem he
    -- nothing is pending after a sync, so the text of the last sync is the current one
    have hsynced : e.2.syncedText = e.2.text := by
      have hedited := hs.sync.edited hget
      obtain ⟨d, -, hd⟩ := Option.map_eq_some_iff.mp ((Documents.get?_sync s e.1).symm.trans hget)
      rw [← hd, Document.pending_synced] at hedited
      rw [← hd]
      exact Except.ok.inj hedited
    rw [Function.comp, Frame.documentNotice?_didOpen, hsynced]

theorem not_mem_of_count {mid post : List Act} {outcome : Outcome} {g : Nat}
    (h : ((mid ++ .finishConnect g outcome :: post).filterMap Act.resumes?).count g ≤ 1) :
    g ∉ mid.filterMap Act.resumes? ∧ g ∉ post.filterMap Act.resumes? := by
  have hcount : (mid.filterMap Act.resumes?).count g + (post.filterMap Act.resumes?).count g = 0 := by
    simp only [List.filterMap_append, List.filterMap_cons, Act.resumes?, List.count_append,
      List.count_cons_self] at h
    omega
  exact ⟨List.count_eq_zero.mp (Nat.eq_zero_of_add_eq_zero_right hcount),
    List.count_eq_zero.mp (Nat.eq_zero_of_add_eq_zero_left hcount)⟩

section Shape

variable {c : Client} {g : Nat} {first : Frame} (htied : c.bond.Tied) (hg : g ≤ c.generation)
  (hready : c.ready = false) (hfirst : c.wire.pushed g = some [first])
include htied hg hready hfirst

theorem pushed_of_not_greeted {rest : List Act} (h : ¬Greeted g c rest) :
    (c.run rest).wire.pushed g = some (first :: saidOn g answers rest c) := by
  rw [pushed_run hg, hfirst, (saidOn_tells htied hg (fun _ => hready) h).1]
  rfl

theorem pushed_of_completes {mid post : List Act} {outcome : Outcome}
    (hbefore : ¬Greeted g c mid) (hdone : (c.run mid).completes g outcome = true)
    (hafter : ¬Greeted g ((c.run mid).act (.finishConnect g outcome)) post) :
    (c.run (mid ++ .finishConnect g outcome :: post)).wire.pushed g =
      some (first :: (saidOn g answers mid c ++ (.initialized ::
        ((c.run mid).documents.sync.2.openFrames ++ ((c.run mid).queue ++
          saidOn g frames post ((c.run mid).act (.finishConnect g outcome))))))) := by
  have htied' : (c.run mid).bond.Tied := tied_run htied mid
  have hg' : g ≤ (c.run mid).generation := Nat.le_trans hg (generation_run_le mid)
  have hattached : (c.run mid).attached = some g := attached_of_completes htied' hdone
  have hmid := (saidOn_tells htied hg (fun _ => hready) hbefore).1
  have hfinish : (c.run mid).tells (.finishConnect g outcome) =
      (c.run mid).greeting ++ (c.run mid).queue := by
    rw [tells, deed_of_completes hdone]
    rfl
  have hready' : ((c.run mid).act (.finishConnect g outcome)).attached = some g →
      ((c.run mid).act (.finishConnect g outcome)).ready = true := by
    intro h
    rw [(of_attached_act hg' h).2, deed_of_completes hdone]
    exact Bool.or_true _
  have hpost := (saidOn_tells (htied'.step (bond_step _ _))
    (Nat.le_trans hg' generation_act_le) hready' hafter).1
  rw [pushed_run hg, hfirst, saidOn_append, saidOn_cons, if_pos hattached, hmid, hfinish, hpost,
    List.append_assoc]
  rfl

end Shape

/-- The stream of every connection. It begins with the request for the handshake, and until the
handshake is complete answers to the server follow and nothing else. Then come the greeting, which
tells of every open document, what had waited in the queue, and all that is said later. The writer
takes the stream from its front, all of it once nothing waits, and hands over what it takes but for
requests that are settled by then. Whoever asked for the handshake goes on with its outcome once. -/
theorem outbound_stream (settings : Settings) (policy : HolderPolicy) (processId : Nat) (hashing : Hashing)
    (before : List Act) (transport : Nat) (rest : List Act) :
    let start := new settings policy processId hashing
    let acts := before ++ .beginConnect transport :: rest
    let first := (start.run before).initializeFrame
    let c := (start.run before).act (.beginConnect transport)
    let g := c.generation
    (rest.filterMap Act.resumes?).count g ≤ 1 →
    ∃ l, Table.get? g (start.run acts).lines = some l ∧
      (¬Greeted g c rest →
        OnlyAnswers (saidOn g answers rest c) ∧ l.pushed = first :: saidOn g answers rest c) ∧
      (∀ mid outcome post, rest = mid ++ .finishConnect g outcome :: post →
        (c.run mid).completes g outcome = true →
        let done := (c.run mid).act (.finishConnect g outcome)
        ∃ introduction, Introduced (c.run mid).documents done.documents introduction ∧
          OnlyAnswers (saidOn g answers mid c) ∧
          l.pushed = first :: (saidOn g answers mid c ++ (.initialized :: (introduction ++
            ((c.run mid).queue ++ saidOn g frames post done))))) ∧
      Writing.takenOf g (writings acts start) = l.pushed.take l.taken ∧
      (l.waiting = [] → Writing.takenOf g (writings acts start) = l.pushed) ∧
      ∀ past a future, acts = past ++ a :: future → ∀ t,
        ((start.run past).act a).mail t = (start.run past).mail t ++ (start.run past).posted t a ∨
          (start.run past).writing? a = none ∧
            ((start.run past).act a).mail t <:+ (start.run past).mail t := by
  intro start acts first c g hturn
  obtain ⟨hready, hfirst⟩ := (start.run before).pushed_beginConnect transport
  have htied : c.bond.Tied :=
    (tied_run (tied_new settings policy processId hashing) before).step (bond_step _ _)
  have hrun : start.run acts = c.run rest := start.run_append before (.beginConnect transport :: rest)
  obtain ⟨l, hl, hpushed⟩ : ∃ l, Table.get? g (c.run rest).lines = some l ∧
      l.pushed = first :: saidOn g tells rest c := by
    refine Option.map_eq_some_iff.mp ?_
    have hpushed := pushed_run (Nat.le_refl c.generation) rest
    rw [hfirst] at hpushed
    exact hpushed
  have htold : (c.run rest).wire.pushed g = some l.pushed := congrArg (Option.map Line.pushed) hl
  have htaken : Writing.takenOf g (writings acts start) = l.pushed.take l.taken :=
    takenOf_writings (writes_run (writes_new settings policy processId hashing) acts) (hrun ▸ hl)
  refine ⟨l, hrun ▸ hl, fun hquiet => ⟨onlyAnswers_saidOn rest, ?_⟩, ?_, htaken, fun hdrained => ?_,
    fun past a _ _ t => mail_act a t⟩
  · exact Option.some.inj
      (htold.symm.trans (pushed_of_not_greeted htied (Nat.le_refl _) hready hfirst hquiet))
  · rintro mid outcome post rfl hdone
    obtain ⟨hmid, hpost⟩ := not_mem_of_count hturn
    have hsound : (c.run mid).documents.Sound :=
      sound_run (sound_act (sound_run (sound_new ..) before) _) mid
    intro done
    rw [show done.documents = _ from documents_of_completes hdone]
    refine ⟨_, introduced_openFrames hsound, onlyAnswers_saidOn mid, ?_⟩
    exact Option.some.inj (htold.symm.trans (pushed_of_completes htied (Nat.le_refl _) hready hfirst
      (not_greeted_of_not_mem hmid) hdone (not_greeted_of_not_mem hpost)))
  · rw [htaken, List.take_of_length_le (List.drop_eq_nil_iff.mp hdrained)]

theorem outbound_stream_of_handshake :
    let start := new .standard .exclusive 1 .rising
    let before : List Act := [.openFile "b" "text" "x", .openFile "a" "text" "hi",
      .updateFile "a" [⟨2, 2, "!"⟩], .request "textDocument/hover" none none]
    let mid : List Act := [.respond (.number 7) (.ok .null), .write 1]
    let answer : Outcome := .ok (.object [("capabilities", .object [])])
    let post : List Act := [.notify "custom/note" none, .write 2, .write 3, .write 4]
    let acts := before ++ .beginConnect 0 :: (mid ++ .finishConnect 1 answer :: post)
    ((mid ++ .finishConnect 1 answer :: post).filterMap Act.resumes?).count 1 ≤ 1 ∧
      ∃ l introduction, Table.get? 1 (start.run acts).lines = some l ∧
        introduction.map Frame.documentNotice? =
          [some (.opened "a" 1 "hi!"), some (.opened "b" 0 "x")] ∧
        l.pushed = (start.run before).initializeFrame :: ([.response (.success (.number 7) .null)] ++
          (.initialized :: (introduction ++ ([.request 1 "textDocument/hover" none] ++
            [.notification "custom/note" none])))) ∧
        Writing.takenOf 1 (writings acts start) = l.pushed.take l.taken := by
  intro start before mid answer post acts
  have hturn : ((mid ++ .finishConnect 1 answer :: post).filterMap Act.resumes?).count 1 ≤ 1 := by
    decide
  have hg : ((start.run before).act (.beginConnect 0)).generation = 1 := by decide
  have hstream :=
    outbound_stream .standard .exclusive 1 .rising before 0 (mid ++ .finishConnect 1 answer :: post)
  dsimp only at hstream
  rw [show new .standard .exclusive 1 .rising = start from rfl, hg] at hstream
  obtain ⟨l, hl, -, hgreeted, htaken, -⟩ := hstream hturn
  obtain ⟨introduction, hintroduced, -, hpushed⟩ :=
    hgreeted mid answer post rfl (by decide)
  have hnotices : ((((start.run before).act (.beginConnect 0)).run mid).act
      (.finishConnect 1 answer)).documents.workspace.files.map (fun e =>
        some (DocumentNotice.opened e.1 e.2.version e.2.text)) =
      [some (.opened "a" 1 "hi!"), some (.opened "b" 0 "x")] := by
    decide
  have hanswers : saidOn 1 answers mid ((start.run before).act (.beginConnect 0)) =
      [.response (.success (.number 7) .null)] := by
    decide
  have hqueue : (((start.run before).act (.beginConnect 0)).run mid).queue =
      [.request 1 "textDocument/hover" none] := by
    decide
  have hpost : saidOn 1 frames post ((((start.run before).act (.beginConnect 0)).run mid).act
      (.finishConnect 1 answer)) = [.notification "custom/note" none] := by
    decide
  rw [hanswers, hqueue, hpost] at hpushed
  exact ⟨hturn, l, introduction, hl, hintroduced.told.trans hnotices, hpushed, htaken⟩

end Client
end LanguageClient
