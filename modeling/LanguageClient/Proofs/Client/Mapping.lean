import LanguageClient.Proofs.Client.Moves

namespace LanguageClient.Client

open Documents (Move)

variable {c : Client} {uri : String}

section Runs

def movesIn : List Act → Client → List Move
  | [], _ => []
  | a :: rest, c => c.moves a ++ movesIn rest (c.act a)

theorem documents_run (acts : List Act) (c : Client) :
    (c.run acts).documents = c.documents.run (movesIn acts c) := by
  induction acts generalizing c with
  | nil => rfl
  | cons a rest ih =>
    rw [movesIn, Documents.run_append, ← c.documents_act a]
    exact ih (c.act a)

theorem closesIn_movesIn (acts : List Act) (c : Client) :
    Documents.closesIn uri (movesIn acts c) c.documents = closesIn uri acts c := by
  induction acts generalizing c with
  | nil => rfl
  | cons a rest ih =>
    rw [movesIn, Documents.closesIn_append, c.closesIn_moves, ← c.documents_act a, ih, closesIn]

theorem editsIn_movesIn (acts : List Act) (c : Client) :
    Documents.editsIn uri (movesIn acts c) c.documents = editsIn uri acts c := by
  induction acts generalizing c with
  | nil => rfl
  | cons a rest ih =>
    rw [movesIn, Documents.editsIn_append, c.editsIn_moves, ← c.documents_act a, ih, editsIn]

theorem sound_run (hs : c.documents.Sound) (acts : List Act) : (c.run acts).documents.Sound := by
  rw [documents_run]
  exact hs.run

theorem sound_act (hs : c.documents.Sound) (a : Act) : (c.act a).documents.Sound :=
  sound_run hs [a]

theorem sound_new (settings : Settings) (policy : HolderPolicy) (processId : Nat) (hashing : Hashing) :
    (new settings policy processId hashing).documents.Sound :=
  Documents.sound_new policy

variable {m : Mapping} {acts : List Act}

theorem released_of_mem_movesIn (hs : c.documents.Sound) (hm : c.documents.Holds m)
    (hlive : ∀ a ∈ acts, a.released? ≠ some m.scope) :
    ∀ mv ∈ movesIn acts c, mv.released? ≠ some m.scope := by
  induction acts generalizing c with
  | nil =>
    intro mv hmv
    cases hmv
  | cons a rest ih =>
    have hmoves : ∀ mv ∈ c.moves a, mv.released? ≠ some m.scope := by
      intro mv hmv hscope
      cases c.released_of_mem_moves hmv hscope with
      | inl ha => exact hlive a List.mem_cons_self ha
      | inr hnext =>
        have := hs.history.fresh _ (Table.mem_of_get? hm)
        rw [← hnext] at this
        exact Nat.lt_irrefl _ this
    have hm' : (c.act a).documents.Holds m := by
      rw [documents_act]
      exact hm.run hs hmoves
    intro mv hmv
    cases List.mem_append.mp hmv with
    | inl hmv => exact hmoves mv hmv
    | inr hmv =>
      exact ih (sound_act hs a) hm' (fun a' h => hlive a' (List.mem_cons_of_mem _ h)) mv hmv

end Runs

section Start

theorem startMapping_of_mapping? {a : Act} {m : Mapping} (hs : c.documents.Sound)
    (hm : c.mapping? a = some m) :
    ∃ s : Documents, s.Sound ∧ s.startMapping = (m, (c.act a).documents) := by
  cases a with
  | startMapping =>
    cases hm
    exact ⟨c.documents, hs, rfl⟩
  | startMapped method params key =>
    rw [mapping?] at hm
    rw [act]
    cases c.mappedCourse method params key with
    | unready _ hmapped | refused _ _ hmapped =>
      rw [hmapped] at hm
      cases hm
    | asks _ hstart hmapped =>
      rw [hmapped] at hm ⊢
      cases hm
      refine ⟨c.sync.2.documents, sound_act hs .sync, ?_⟩
      dsimp only
      rw [documents_of_startRequest hstart]
      rfl
  | _ => cases hm

end Start

section Pending

def pending (c : Client) (uri : String) : List Edit :=
  ((c.documents.get? uri).map Document.pending).getD []

def JustSynced (c : Client) (uri : String) (b : Baseline) : Prop :=
  ∃ d, c.documents.get? uri = some d ∧ d.baseline = b ∧ d.pending = []

theorem pending_of_act {a : Act} {d' : Document} (h : (c.act a).documents.get? uri = some d') :
    d'.pending = [] ∨ ∃ d, c.documents.get? uri = some d ∧ d'.baseline = d.baseline ∧
      d'.pending = d.pending ++ c.edits uri a := by
  rw [documents_act] at h
  rw [← editsIn_moves]
  cases ha : a.isQuiet with
  | true =>
    have hquiet : ∀ mv ∈ c.moves a, mv.isQuiet = true := fun mv h => c.isQuiet_of_mem_moves ha h
    rw [Documents.editsIn_of_isQuiet hquiet]
    simpa using Documents.pending_of_run hquiet h
  | false =>
    -- an act that closes or edits makes one move at most
    have hsingle : ∃ mv, c.moves a = [mv] ∨ c.moves a = [] := by
      cases a with
      | closeFile uri => exact ⟨_, .inl rfl⟩
      | updateFile uri edits => exact ⟨_, .inl rfl⟩
      | replaceText other text =>
        rw [moves]
        cases c.documents.get? other with
        | none => exact ⟨.sync, .inr rfl⟩
        | some d => exact ⟨_, .inl rfl⟩
      | _ => cases ha
    obtain ⟨mv, hmoves | hmoves⟩ := hsingle
    · rw [hmoves] at h ⊢
      simpa [Documents.editsIn] using Documents.pending_of_step (c.documents.step_move mv) h
    · rw [hmoves] at h ⊢
      exact .inr ⟨d', h, rfl, (List.append_nil _).symm⟩

theorem pending_of_run {acts : List Act} {d : Document}
    (h : (c.run acts).documents.get? uri = some d) :
    (∃ pre since, acts = pre ++ since ∧ (c.run pre).JustSynced uri d.baseline ∧
      d.pending = editsIn uri since (c.run pre)) ∨
    ∃ d₀, c.documents.get? uri = some d₀ ∧ d.baseline = d₀.baseline ∧
      d.pending = d₀.pending ++ editsIn uri acts c := by
  induction acts generalizing c with
  | nil => exact .inr ⟨d, h, rfl, (List.append_nil _).symm⟩
  | cons a rest ih =>
    cases ih h with
    | inl hsplit =>
      obtain ⟨pre, since, rfl, hsynced, hpending⟩ := hsplit
      exact .inl ⟨a :: pre, since, rfl, hsynced, hpending⟩
    | inr hkept =>
      obtain ⟨d₁, hget, hbaseline, hpending⟩ := hkept
      cases pending_of_act hget with
      | inl hnil =>
        refine .inl ⟨[a], rest, rfl, ⟨d₁, hget, hbaseline.symm, hnil⟩, ?_⟩
        rw [hpending, hnil]
        rfl
      | inr hsome =>
        obtain ⟨d₀, hget₀, hbaseline₀, hpending₀⟩ := hsome
        refine .inr ⟨d₀, hget₀, hbaseline.trans hbaseline₀, ?_⟩
        rw [hpending, hpending₀, editsIn, List.append_assoc]

end Pending

section Follow

variable {a : Act} {after : List Act} {m : Mapping} {b : Baseline}

/-- A document that was not closed since a mapping was made is followed from its baseline. The edits since
are those that were pending then and all that came later. -/
theorem follows_of_mapping? (hs : c.documents.Sound) (hm : c.mapping? a = some m)
    (hlive : ∀ a' ∈ after, a'.released? ≠ some m.scope) (hb : Table.get? uri m.baseline = some b)
    (hopen : closesIn uri after (c.act a) = false) :
    ((c.act a).run after).documents.Follows uri b
      ((c.act a).pending uri ++ editsIn uri after (c.act a)) := by
  obtain ⟨s, hs', hmapping⟩ := startMapping_of_mapping? hs hm
  obtain ⟨rfl, hdocuments⟩ : s.startMapping.1 = m ∧ s.startMapping.2 = (c.act a).documents := by
    rw [hmapping]
    exact ⟨rfl, rfl⟩
  have hsound : (c.act a).documents.Sound := sound_act hs a
  have hholds : (c.act a).documents.Holds s.startMapping.1 := by
    rw [← hdocuments]
    exact Documents.holds_startMapping s
  obtain ⟨d, hget, -, hfollows⟩ := Documents.follows_startMapping hs' hb
  have hpending : (c.act a).pending uri = d.pending := by
    have hget' : (c.act a).documents.get? uri = some d := hdocuments ▸ hget
    rw [pending, hget']
    rfl
  rw [hdocuments] at hfollows
  rw [← closesIn_movesIn] at hopen
  rw [hpending, ← editsIn_movesIn, documents_run]
  exact hfollows.run hsound hholds (released_of_mem_movesIn hsound hholds hlive) hb hopen

theorem exists_changes_of_mapping? (settings : Settings) (policy : HolderPolicy) (processId : Nat) (hashing : Hashing)
    {before : List Act} (hm : ((new settings policy processId hashing).run before).mapping? a = some m)
    (hlive : ∀ a' ∈ after, a'.released? ≠ some m.scope) (hb : Table.get? uri m.baseline = some b)
    (hopen : closesIn uri after ((new settings policy processId hashing).run (before ++ [a])) = false) :
    let c := (new settings policy processId hashing).run (before ++ [a])
    let edits := c.pending uri ++ editsIn uri after c
    ∃ d delta, (c.run after).documents.get? uri = some d ∧ Edit.applyAll edits b.text = .ok d.text ∧
      Delta.ofEdits (Text.size b.text) edits = .ok delta ∧
      m.changes (c.run after).documents uri = .ok delta := by
  intro c edits
  have hstart : ((new settings policy processId hashing).run before).documents.Sound :=
    sound_run (sound_new ..) before
  have hc : c = ((new settings policy processId hashing).run before).act a := run_append _ before [a]
  have hsound : (c.run after).documents.Sound := hc ▸ sound_run (sound_act hstart a) after
  have hfollows : (c.run after).documents.Follows uri b edits := by
    simp only [edits, hc]
    exact follows_of_mapping? hstart hm hlive hb (hc ▸ hopen)
  obtain ⟨d, hget, htext⟩ := hfollows.exists_text hsound
  obtain ⟨delta, hdelta, hchanges⟩ := hfollows.changes hb hsound
  exact ⟨d, delta, hget, htext, hdelta, hchanges⟩

end Follow

/-- A mapping is exact. Whatever is done after it was made, short of releasing it: a document that was
not open then is unknown, one that was closed since is closed, and of any other the answer is the delta
of the edits since the baseline was synced, those that were pending and all that came later. -/
theorem changes_exact (settings : Settings) (policy : HolderPolicy) (processId : Nat) (hashing : Hashing)
    (before : List Act) (a : Act) (after : List Act) (m : Mapping)
    (hm : ((new settings policy processId hashing).run before).mapping? a = some m)
    (hlive : ∀ a' ∈ after, a'.released? ≠ some m.scope) (uri : String) :
    let start := new settings policy processId hashing
    let c := start.run (before ++ [a])
    let answer := m.changes (c.run after).documents uri
    (Table.get? uri m.baseline = none → answer = .error (.unknownDocument uri)) ∧
      ∀ b, Table.get? uri m.baseline = some b →
        (closesIn uri after c = true → answer = .error (.documentClosed uri)) ∧
        (closesIn uri after c = false →
          ∃ d pre since, before ++ [a] = pre ++ since ∧ (start.run pre).JustSynced uri b ∧
            c.pending uri = editsIn uri since (start.run pre) ∧
            Delta.ofEdits (Text.size b.text) (c.pending uri ++ editsIn uri after c) = .ok d ∧
            answer = .ok d) := by
  intro start c answer
  have hstart : (start.run before).documents.Sound := sound_run (sound_new ..) before
  obtain ⟨s, hs, hmapping⟩ := startMapping_of_mapping? hstart hm
  have hc : c = (start.run before).act a := start.run_append before [a]
  have hm' : m = s.startMapping.1 := by rw [hmapping]
  have hdocuments : c.documents = s.startMapping.2 := by rw [hmapping, hc]
  refine ⟨fun hb => Documents.changes_of_unknown hb _, ?_⟩
  intro b hb
  have hsound : c.documents.Sound := hc ▸ sound_act hstart a
  have hholds : c.documents.Holds m := by
    rw [hdocuments, hm']
    exact Documents.holds_startMapping s
  have hfree := released_of_mem_movesIn hsound hholds hlive
  obtain ⟨d, hget, rfl, hfollows⟩ := Documents.follows_startMapping hs (hm' ▸ hb)
  rw [← hdocuments] at hfollows
  have hgetc : c.documents.get? uri = some d := by
    rw [hdocuments]
    exact hget
  have hpending : c.pending uri = d.pending := by
    rw [pending, hgetc]
    rfl
  rw [← closesIn_movesIn]
  constructor
  · intro hclosed
    have hgone := hfollows.gone_run hsound hholds hfree hb hclosed
    rw [← documents_run] at hgone
    exact hgone.changes hb
  · intro hopen
    have hfollows' := hfollows.run hsound hholds hfree hb hopen
    rw [← documents_run, editsIn_movesIn, ← hpending] at hfollows'
    obtain ⟨delta, hdelta, hanswer⟩ := hfollows'.changes hb (sound_run hsound after)
    cases pending_of_run hgetc with
    | inl hsplit =>
      obtain ⟨pre, since, hacts, hsynced, hsince⟩ := hsplit
      exact ⟨delta, pre, since, hacts, hsynced, hpending.trans hsince, hdelta, hanswer⟩
    | inr hnew =>
      -- a new client has no document that could have been open from the start
      obtain ⟨d₀, hget₀, -⟩ := hnew
      cases hget₀

theorem changes_exact_of_two_syncs :
    let before : List Act := [.openFile "a" "text" "xy", .updateFile "a" [⟨0, 1, "q"⟩]]
    let after : List Act := [.sync, .startMapping, .updateFile "a" [⟨1, 2, ""⟩, ⟨0, 0, ""⟩], .sync,
      .release ⟨1, []⟩, .updateFile "a" [⟨1, 1, "é"⟩]]
    let c := (new .standard .exclusive 1 .rising).run (before ++ [.startMapping])
    let m : Mapping := ⟨0, [("a", ⟨1, 0, "xy"⟩)]⟩
    ∃ d, Delta.ofEdits 2 [⟨0, 1, "q"⟩, ⟨1, 2, ""⟩, ⟨1, 1, "é"⟩] = .ok d ∧
      m.changes (c.run after).documents "a" = .ok d := by
  intro before after c m
  have hlive : ∀ a' ∈ after, a'.released? ≠ some m.scope := by decide
  obtain ⟨-, hknown⟩ :=
    changes_exact .standard .exclusive 1 .rising before .startMapping after m rfl hlive "a"
  obtain ⟨d, -, -, -, -, -, hd, hanswer⟩ := (hknown ⟨1, 0, "xy"⟩ rfl).2 rfl
  exact ⟨d, hd, hanswer⟩

end LanguageClient.Client
