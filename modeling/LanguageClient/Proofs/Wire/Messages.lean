import LanguageClient.Proofs.Wire.Records
import LanguageClient.Wire.Schema

namespace LanguageClient

open Json (Tidies Record nonNull string? any? signed32? natural_tidies signed32_tidies
  get?_ofPresent)

variable {id : RequestId} {m : Request} {n : Notification} {r : Response} {e : ResponseError}

section Id

def RequestId.IsWord : RequestId → Prop
  | number n => n < word64
  | name _ => True

theorem RequestId.read?_toJson (h : id.IsWord) : read? id.toJson = some id := by
  cases id with
  | number n =>
    have hn : Json.natural? word64 (.ofNat n) = some n := if_pos h
    exact Option.map_eq_some_iff.mpr ⟨n, hn, rfl⟩
  | name s => rfl

theorem RequestId.isWord_of_read? {v : Json} (h : read? v = some id) : id.IsWord := by
  cases id with
  | number n =>
    obtain ⟨n', hn', heq⟩ := Option.map_eq_some_iff.mp (RequestId.tidies.again h)
    cases heq
    exact (Option.ite_none_right_eq_some.mp hn').1
  | name s => trivial

end Id

section Envelopes

/-- The request as it is received: parameters that are null are not there. -/
def Request.received (m : Request) : Request :=
  { m with params := nonNull m.params }

theorem Request.read?_toJson (h : m.id.IsWord) : read? m.toJson = some m.received := by
  rw [read?, toJson]
  refine Json.record?_ofPresent ?_ fun r hget => ?_
  · simp [Table.keys]
  · simp [Record.need, Record.optional_any, hget, Table.get?, string?, RequestId.read?_toJson h,
    received]

theorem Request.tidies : Tidies Request.read? Request.toJson where
  again {v m} h := by
    simp only [read?, Option.bind_eq_bind, Option.bind_eq_some_iff, Option.pure_def,
      Option.some.injEq, Record.optional_any] at h
    obtain ⟨r, -, format, -, id, hid, method, -, _, rfl, rfl⟩ := h
    obtain ⟨v, -, hid⟩ := Record.need_eq_some_iff.mp hid
    rw [read?_toJson (RequestId.isWord_of_read? hid), received, Json.nonNull_nonNull]
  present _ := nofun

def Notification.received (n : Notification) : Notification :=
  { n with params := nonNull n.params }

theorem Notification.read?_toJson : read? n.toJson = some n.received := by
  rw [read?, toJson]
  refine Json.record?_ofPresent ?_ fun r hget => ?_
  · simp [Table.keys]
  · simp [Record.need, Record.optional_any, hget, Table.get?, string?, received]

theorem Notification.tidies : Tidies Notification.read? Notification.toJson where
  again {v n} h := by
    simp only [read?, Option.bind_eq_bind, Option.bind_eq_some_iff, Option.pure_def,
      Option.some.injEq, Record.optional_any] at h
    obtain ⟨r, -, format, -, method, -, _, rfl, rfl⟩ := h
    rw [read?_toJson, received, Json.nonNull_nonNull]
  present _ := nofun

def ResponseError.IsWord (e : ResponseError) : Prop :=
  -2147483648 ≤ e.code ∧ e.code < 2147483648

def ResponseError.received (e : ResponseError) : ResponseError :=
  { e with data := nonNull e.data }

theorem ResponseError.read?_toJson (h : e.IsWord) : read? e.toJson = some e.received := by
  have hcode : signed32? (.integer e.code) = some e.code := if_pos h
  rw [read?, toJson]
  refine Json.record?_ofPresent ?_ fun r hget => ?_
  · simp [Table.keys]
  · simp [Record.need, Record.optional_any, hget, Table.get?, string?, hcode, received]

theorem ResponseError.isWord_received_of_read? {v : Json} (h : read? v = some e) :
    e.IsWord ∧ e.received = e := by
  simp only [read?, Option.bind_eq_bind, Option.bind_eq_some_iff, Option.pure_def,
    Option.some.injEq, Record.optional_any] at h
  obtain ⟨r, -, code, hcode, message, -, _, rfl, rfl⟩ := h
  rw [received, Json.nonNull_nonNull]
  exact ⟨(Option.ite_none_right_eq_some.mp (signed32_tidies.need hcode)).1, rfl⟩

theorem ResponseError.tidies : Tidies ResponseError.read? ResponseError.toJson where
  again {v e} h := by
    obtain ⟨hword, hsame⟩ := isWord_received_of_read? h
    rw [read?_toJson hword, hsame]
  present _ := nofun

structure Response.IsWord (r : Response) : Prop where
  id : ∀ id ∈ r.id, id.IsWord
  error : ∀ e ∈ r.error, e.IsWord

def Response.received (r : Response) : Response :=
  { r with result := nonNull r.result, error := r.error.map ResponseError.received }

theorem Response.read?_toJson (h : r.IsWord) : read? r.toJson = some r.received := by
  rw [read?, toJson]
  refine Json.record?_ofPresent ?_ fun record hget => ?_
  · simp [Table.keys]
  · have hid : record.optional "id" RequestId.read? = some r.id :=
      Record.optional_of_elim (by simp [hget, Table.get?]) fun id hid =>
        have hread := RequestId.read?_toJson (h.id id hid)
        ⟨hread, RequestId.tidies.present hread⟩
    have herror : record.optional "error" ResponseError.read? =
        some (r.error.map ResponseError.received) :=
      Record.optional_map _ (by simp [hget, Table.get?]) fun e he =>
        ⟨ResponseError.read?_toJson (h.error e he), Json.ofPresent_ne_null _⟩
    simp [Record.need, Record.optional_any, hget, Table.get?, string?, hid, herror, received]

theorem Response.tidies : Tidies Response.read? Response.toJson where
  again {v r} h := by
    simp only [read?, Option.bind_eq_bind, Option.bind_eq_some_iff, Option.pure_def,
      Option.some.injEq, Record.optional_any] at h
    obtain ⟨record, -, format, -, id, hid, _, rfl, error, herror, rfl⟩ := h
    have hidWord : ∀ id' ∈ id, id'.IsWord := fun id' hid' =>
      RequestId.isWord_of_read? (RequestId.tidies.optional hid id' hid').1
    have herrorWord : ∀ e ∈ error, e.IsWord ∧ e.received = e := fun e he =>
      ResponseError.isWord_received_of_read? (ResponseError.tidies.optional herror e he).1
    rw [read?_toJson ⟨hidWord, fun e he => (herrorWord e he).1⟩, received, Json.nonNull_nonNull]
    cases error with
    | none => rfl
    | some e => rw [Option.map_some, (herrorWord e rfl).2]
  present _ := nofun

theorem Response.outcome_received (r : Response) :
    r.received.outcome = r.outcome.mapError ResponseError.received := by
  obtain ⟨format, id, result, error⟩ := r
  cases error with
  | some e => rfl
  | none =>
    change Except.ok ((nonNull result).getD .null) = Except.ok (result.getD .null)
    cases result with
    | none => rfl
    | some v => cases v <;> rfl

end Envelopes

section Messages

theorem Message.read?_request (h : m.id.IsWord) :
    read? m.toJson = some (.request m.received) := by
  have hkey (name : String) : m.toJson.get? name = (Table.get? name
      [("jsonrpc", some (.string m.format)), ("id", some m.id.toJson),
        ("method", some (.string m.method)), ("params", m.params)]).join :=
    get?_ofPresent (by simp [Table.keys]) name
  simp [read?, hkey, Table.get?, Request.read?_toJson h]

theorem Message.read?_notification : read? n.toJson = some (.notification n.received) := by
  have hkey (name : String) : n.toJson.get? name = (Table.get? name
      [("jsonrpc", some (.string n.format)), ("method", some (.string n.method)),
        ("params", n.params)]).join :=
    get?_ofPresent (by simp [Table.keys]) name
  simp [read?, hkey, Table.get?, Notification.read?_toJson]

theorem Message.read?_response (h : r.IsWord) :
    read? r.toJson = some (.response r.received) := by
  have hkey (name : String) : r.toJson.get? name = (Table.get? name
      [("jsonrpc", some (.string r.format)), ("id", some (r.id.elim .null RequestId.toJson)),
        ("result", r.result), ("error", r.error.map ResponseError.toJson)]).join :=
    get?_ofPresent (by simp [Table.keys]) name
  simp [read?, hkey, Table.get?, Response.read?_toJson h]

end Messages

namespace Schema

/-- How the values of a type are read and written. -/
structure Form where
  Value : Type
  read? : Json → Option Value
  toJson : Value → Json

def forms : List Form :=
  [⟨_, Request.read?, Request.toJson⟩, ⟨_, Response.read?, Response.toJson⟩,
    ⟨_, Notification.read?, Notification.toJson⟩, ⟨_, RequestId.read?, RequestId.toJson⟩,
    ⟨_, ResponseError.read?, ResponseError.toJson⟩, ⟨_, Identity.read?, Identity.toJson⟩,
    ⟨_, WorkspaceFolder.read?, WorkspaceFolder.toJson⟩,
    ⟨_, InitializeParams.read?, InitializeParams.toJson⟩,
    ⟨_, ClientCapabilities.read?, ClientCapabilities.toJson⟩,
    ⟨_, DocumentCapabilities.read?, DocumentCapabilities.toJson⟩,
    ⟨_, InitializeResult.read?, InitializeResult.toJson⟩,
    ⟨_, ServerCapabilities.read?, ServerCapabilities.toJson⟩,
    ⟨_, SyncKind.read?, SyncKind.toJson⟩, ⟨_, DocumentId.read?, DocumentId.toJson⟩,
    ⟨_, VersionedDocumentId.read?, VersionedDocumentId.toJson⟩,
    ⟨_, DocumentItem.read?, DocumentItem.toJson⟩, ⟨_, DidOpenParams.read?, DidOpenParams.toJson⟩,
    ⟨_, DidChangeParams.read?, DidChangeParams.toJson⟩,
    ⟨_, ContentChange.read?, ContentChange.toJson⟩,
    ⟨_, DidCloseParams.read?, DidCloseParams.toJson⟩,
    ⟨_, PositionParams.read?, PositionParams.toJson⟩, ⟨_, Severity.read?, Severity.toJson⟩,
    ⟨_, MessageParams.read?, MessageParams.toJson⟩, ⟨_, CancelParams.read?, CancelParams.toJson⟩,
    ⟨_, Registration.read?, Registration.toJson⟩,
    ⟨_, RegistrationParams.read?, RegistrationParams.toJson⟩,
    ⟨_, Unregistration.read?, Unregistration.toJson⟩,
    ⟨_, UnregistrationParams.read?, UnregistrationParams.toJson⟩,
    ⟨_, Position.read?, Position.toJson⟩, ⟨_, Range.read?, Range.toJson⟩,
    ⟨_, TextEdit.read?, TextEdit.toJson⟩, ⟨_, Edit.read?, Edit.toJson⟩]

theorem tidies_of_mem_forms : ∀ f ∈ forms, Tidies f.read? f.toJson := by
  simp only [forms, List.forall_mem_cons]
  exact ⟨Request.tidies, Response.tidies, Notification.tidies, RequestId.tidies,
    ResponseError.tidies, Identity.tidies, WorkspaceFolder.tidies, InitializeParams.tidies,
    ClientCapabilities.tidies, DocumentCapabilities.tidies, InitializeResult.tidies,
    ServerCapabilities.tidies, SyncKind.tidies, DocumentId.tidies, VersionedDocumentId.tidies,
    DocumentItem.tidies, DidOpenParams.tidies, DidChangeParams.tidies, ContentChange.tidies,
    DidCloseParams.tidies, PositionParams.tidies, Severity.tidies, MessageParams.tidies,
    CancelParams.tidies, Registration.tidies, RegistrationParams.tidies, Unregistration.tidies,
    UnregistrationParams.tidies, Position.tidies, Range.tidies, TextEdit.tidies, Edit.tidies, nofun⟩

/-- Messages are received as what they were sent as, where null options are not there and the result
null is still null. And whatever a value was read as, is read again from what is written for it, and
written as the same. -/
theorem wire_round_trip :
    (∀ m : Request, m.id.IsWord →
      Message.read? m.toJson = some (.request { m with params := nonNull m.params })) ∧
    (∀ n : Notification,
      Message.read? n.toJson = some (.notification { n with params := nonNull n.params })) ∧
    (∀ (id : RequestId) (result : Json), id.IsWord →
      ∃ r, Message.read? (Response.success id result).toJson = some (.response r) ∧
        r.id = some id ∧ r.outcome = (Response.success id result).outcome ∧ r.outcome = .ok result) ∧
    (∀ (id : RequestId) (e : ResponseError), id.IsWord → e.IsWord →
      ∃ r, Message.read? (Response.failure id e).toJson = some (.response r) ∧
        r.id = some id ∧ r.outcome = .error { e with data := nonNull e.data }) ∧
    ∀ f ∈ forms, ∀ v x, f.read? v = some x →
      f.read? (f.toJson x) = some x ∧
        tidy f.read? f.toJson v = some (f.toJson x) ∧
        tidy f.read? f.toJson (f.toJson x) = some (f.toJson x) := by
  refine ⟨fun m => Message.read?_request, fun n => Message.read?_notification,
    fun id result hid => ?_, fun id e hid he => ?_, fun f hf v x hx => ?_⟩
  · have hword : (Response.success id result).IsWord := ⟨by rintro _ ⟨⟩; exact hid, nofun⟩
    refine ⟨_, Message.read?_response hword, rfl, ?_, ?_⟩
    · exact Response.outcome_received _
    · exact Response.outcome_received _
  · have hword : (Response.failure id e).IsWord :=
      ⟨by rintro _ ⟨⟩; exact hid, by rintro _ ⟨⟩; exact he⟩
    exact ⟨_, Message.read?_response hword, rfl, rfl⟩
  · have hagain := (tidies_of_mem_forms f hf).again hx
    refine ⟨hagain, ?_, ?_⟩
    · rw [tidy, hx, Option.map_some]
    · rw [tidy, hagain, Option.map_some]

theorem wire_round_trip_of_null_options :
    Message.read? (Request.new 7 "shutdown" (some .null)).toJson =
        some (.request (.new 7 "shutdown" none)) ∧
      (∃ r, Message.read? (Response.success (.number 7) .null).toJson = some (.response r) ∧
        r.id = some (.number 7) ∧ r.outcome = .ok .null) ∧
      (∃ r, Message.read? (Response.failure (.name "a") ⟨-32601, "no", some .null⟩).toJson =
        some (.response r) ∧ r.id = some (.name "a") ∧ r.outcome = .error ⟨-32601, "no", none⟩) ∧
      ∃ v p, UnregistrationParams.read? v = some p ∧
        p = ⟨[⟨"1", "textDocument/hover"⟩]⟩ ∧ UnregistrationParams.read? p.toJson = some p := by
  obtain ⟨hrequest, -, hsuccess, hfailure, hforms⟩ := wire_round_trip
  have hword : RequestId.IsWord (.number 7) := by
    change 7 < word64
    decide
  have hcode : ResponseError.IsWord ⟨-32601, "no", some .null⟩ := ⟨by decide, by decide⟩
  have hread : UnregistrationParams.read? (.array [.array [.object [("extra", .bool true),
      ("id", .string "1"), ("method", .string "textDocument/hover")]]]) =
      some ⟨[⟨"1", "textDocument/hover"⟩]⟩ := by
    decide +kernel
  refine ⟨hrequest _ hword, ?_, hfailure (.name "a") _ trivial hcode, _, _, hread, rfl, ?_⟩
  · obtain ⟨r, hr, hid, -, houtcome⟩ := hsuccess (.number 7) .null hword
    exact ⟨r, hr, hid, houtcome⟩
  · exact (hforms ⟨_, UnregistrationParams.read?, UnregistrationParams.toJson⟩
      (by simp [forms]) _ _ hread).1

end Schema

end LanguageClient
