import LanguageClient.Proofs.Json.Record
import LanguageClient.Wire.Document
import LanguageClient.Wire.Handshake
import LanguageClient.Wire.ServerNotice

namespace LanguageClient

open Json (Tidies Record string? natural? list? string_tidies natural_tidies
  list_tidies)

section Coordinates

theorem Position.tidies : Tidies Position.read? Position.toJson :=
  .of_fields (fun _ => by simp [Table.keys]) fun r x h r' hget => by
    simp only [Option.bind_eq_bind, Option.bind_eq_some_iff, Option.pure_def, Option.some.injEq] at h
    obtain ⟨line, hline, character, hcharacter, rfl⟩ := h
    simp [Record.need, hget, Table.get?, (natural_tidies word32).need hline,
      (natural_tidies word32).need hcharacter]

theorem Range.tidies : Tidies Range.read? Range.toJson :=
  .of_fields (fun _ => by simp [Table.keys]) fun r x h r' hget => by
    simp only [Option.bind_eq_bind, Option.bind_eq_some_iff, Option.pure_def, Option.some.injEq] at h
    obtain ⟨start, hstart, stop, hstop, rfl⟩ := h
    simp [Record.need, hget, Table.get?, Position.tidies.need hstart, Position.tidies.need hstop]

theorem TextEdit.tidies : Tidies TextEdit.read? TextEdit.toJson :=
  .of_fields (fun _ => by simp [Table.keys]) fun r x h r' hget => by
    simp only [Option.bind_eq_bind, Option.bind_eq_some_iff, Option.pure_def, Option.some.injEq] at h
    obtain ⟨range, hrange, newText, -, rfl⟩ := h
    simp [Record.need, hget, Table.get?, string?, Range.tidies.need hrange]

theorem Edit.tidies : Tidies Edit.read? Edit.toJson :=
  .of_fields (fun _ => by simp [Table.keys]) fun r x h r' hget => by
    simp only [Option.bind_eq_bind, Option.bind_eq_some_iff, Option.pure_def, Option.some.injEq] at h
    obtain ⟨start, hstart, stop, hstop, insert, -, rfl⟩ := h
    simp [Record.need, hget, Table.get?, string?, (natural_tidies word64).need hstart,
      (natural_tidies word64).need hstop]

end Coordinates

section Documents

theorem DocumentId.tidies : Tidies DocumentId.read? DocumentId.toJson :=
  .of_fields (fun _ => by simp [Table.keys]) fun r x h r' hget => by
    simp only [Option.bind_eq_bind, Option.bind_eq_some_iff, Option.pure_def, Option.some.injEq] at h
    obtain ⟨uri, -, rfl⟩ := h
    simp [Record.need, hget, Table.get?, string?]

theorem VersionedDocumentId.tidies : Tidies VersionedDocumentId.read? VersionedDocumentId.toJson :=
  .of_fields (fun _ => by simp [Table.keys]) fun r x h r' hget => by
    simp only [Option.bind_eq_bind, Option.bind_eq_some_iff, Option.pure_def, Option.some.injEq] at h
    obtain ⟨uri, -, version, hversion, rfl⟩ := h
    simp [Record.need, hget, Table.get?, string?, (natural_tidies word64).need hversion]

theorem DocumentItem.tidies : Tidies DocumentItem.read? DocumentItem.toJson :=
  .of_fields (fun _ => by simp [Table.keys]) fun r x h r' hget => by
    simp only [Option.bind_eq_bind, Option.bind_eq_some_iff, Option.pure_def, Option.some.injEq] at h
    obtain ⟨uri, -, languageId, -, version, hversion, text, -, rfl⟩ := h
    simp [Record.need, hget, Table.get?, string?, (natural_tidies word64).need hversion]

theorem DidOpenParams.tidies : Tidies DidOpenParams.read? DidOpenParams.toJson :=
  .of_fields (fun _ => by simp [Table.keys]) fun r x h r' hget => by
    simp only [Option.bind_eq_bind, Option.bind_eq_some_iff, Option.pure_def, Option.some.injEq] at h
    obtain ⟨document, hdocument, rfl⟩ := h
    simp [Record.need, hget, Table.get?, DocumentItem.tidies.need hdocument]

theorem ContentChange.tidies : Tidies ContentChange.read? ContentChange.toJson :=
  .of_present (fun _ => by simp [Table.keys]) fun r x h r' hget => by
    simp only [Option.bind_eq_bind, Option.bind_eq_some_iff, Option.pure_def, Option.some.injEq] at h
    obtain ⟨range, hrange, text, -, rfl⟩ := h
    have hrange' : r'.optional "range" Range.read? = some range :=
      Record.optional_of_map (by simp [hget, Table.get?]) (Range.tidies.optional hrange)
    simp [Record.need, hget, Table.get?, string?, hrange']

theorem DidChangeParams.tidies : Tidies DidChangeParams.read? DidChangeParams.toJson :=
  .of_fields (fun _ => by simp [Table.keys]) fun r x h r' hget => by
    simp only [Option.bind_eq_bind, Option.bind_eq_some_iff, Option.pure_def, Option.some.injEq] at h
    obtain ⟨document, hdocument, changes, hchanges, rfl⟩ := h
    simp [Record.need, hget, Table.get?, VersionedDocumentId.tidies.need hdocument,
      (list_tidies ContentChange.tidies).need hchanges]

theorem DidCloseParams.tidies : Tidies DidCloseParams.read? DidCloseParams.toJson :=
  .of_fields (fun _ => by simp [Table.keys]) fun r x h r' hget => by
    simp only [Option.bind_eq_bind, Option.bind_eq_some_iff, Option.pure_def, Option.some.injEq] at h
    obtain ⟨document, hdocument, rfl⟩ := h
    simp [Record.need, hget, Table.get?, DocumentId.tidies.need hdocument]

theorem PositionParams.tidies : Tidies PositionParams.read? PositionParams.toJson :=
  .of_fields (fun _ => by simp [Table.keys]) fun r x h r' hget => by
    simp only [Option.bind_eq_bind, Option.bind_eq_some_iff, Option.pure_def, Option.some.injEq] at h
    obtain ⟨document, hdocument, position, hposition, rfl⟩ := h
    simp [Record.need, hget, Table.get?, DocumentId.tidies.need hdocument,
      Position.tidies.need hposition]

end Documents

section Handshake

theorem Identity.tidies : Tidies Identity.read? Identity.toJson :=
  .of_present (fun _ => by simp [Table.keys]) fun r x h r' hget => by
    simp only [Option.bind_eq_bind, Option.bind_eq_some_iff, Option.pure_def, Option.some.injEq] at h
    obtain ⟨name, -, version, hversion, rfl⟩ := h
    have hversion' : r'.optional "version" string? = some version :=
      Record.optional_of_map (by simp [hget, Table.get?]) (string_tidies.optional hversion)
    simp [Record.need, hget, Table.get?, string?, hversion']

theorem WorkspaceFolder.tidies : Tidies WorkspaceFolder.read? WorkspaceFolder.toJson :=
  .of_fields (fun _ => by simp [Table.keys]) fun r x h r' hget => by
    simp only [Option.bind_eq_bind, Option.bind_eq_some_iff, Option.pure_def, Option.some.injEq] at h
    obtain ⟨uri, -, name, -, rfl⟩ := h
    simp [Record.need, hget, Table.get?, string?]

theorem DocumentCapabilities.tidies :
    Tidies DocumentCapabilities.read? DocumentCapabilities.toJson :=
  .of_present (fun _ => by simp [Table.keys]) fun r x h r' hget => by
    simp only [Option.bind_eq_bind, Option.bind_eq_some_iff, Option.pure_def, Option.some.injEq,
      Record.optional_any] at h
    obtain ⟨_, rfl, _, rfl, _, rfl, _, rfl, _, rfl, _, rfl, _, rfl, _, rfl, rfl⟩ := h
    simp [Record.optional_any, hget, Table.get?]

theorem ClientCapabilities.tidies : Tidies ClientCapabilities.read? ClientCapabilities.toJson :=
  .of_present (fun _ => by simp [Table.keys]) fun r x h r' hget => by
    simp only [Option.bind_eq_bind, Option.bind_eq_some_iff, Option.pure_def, Option.some.injEq,
      Record.optional_any] at h
    obtain ⟨_, rfl, _, rfl, document, hdocument, _, rfl, rfl⟩ := h
    have hdocument' : r'.optional "textDocument" DocumentCapabilities.read? = some document :=
      Record.optional_of_map (by simp [hget, Table.get?])
        (DocumentCapabilities.tidies.optional hdocument)
    simp [Record.optional_any, hget, Table.get?, hdocument']

theorem InitializeParams.tidies : Tidies InitializeParams.read? InitializeParams.toJson :=
  .of_present (fun _ => by simp [Table.keys]) fun r x h r' hget => by
    simp only [Option.bind_eq_bind, Option.bind_eq_some_iff, Option.pure_def, Option.some.injEq,
      Record.optional_any] at h
    obtain ⟨processId, hprocess, rootUri, hroot, folders, hfolders, capabilities, hcapabilities,
      clientInfo, hinfo, _, rfl, rfl⟩ := h
    -- these two are null when they have no value, and the next two are left out
    have hprocess' : r'.optional "processId" (natural? word32) = some processId :=
      Record.optional_of_elim (by simp [hget, Table.get?])
        ((natural_tidies word32).optional hprocess)
    have hroot' : r'.optional "rootUri" string? = some rootUri :=
      Record.optional_of_elim (by simp [hget, Table.get?]) (string_tidies.optional hroot)
    have hfolders' : r'.optional "workspaceFolders" (list? WorkspaceFolder.read?) = some folders :=
      Record.optional_of_map (by simp [hget, Table.get?])
        ((list_tidies WorkspaceFolder.tidies).optional hfolders)
    have hinfo' : r'.optional "clientInfo" Identity.read? = some clientInfo :=
      Record.optional_of_map (by simp [hget, Table.get?]) (Identity.tidies.optional hinfo)
    simp [Record.need, Record.optional_any, hget, Table.get?, hprocess', hroot', hfolders', hinfo',
      ClientCapabilities.tidies.need hcapabilities]

theorem SyncKind.tidies : Tidies SyncKind.read? SyncKind.toJson where
  again {v kind} _ := by cases kind <;> rfl
  present _ := nofun

theorem ServerCapabilities.tidies : Tidies ServerCapabilities.read? ServerCapabilities.toJson where
  again _ := rfl
  present _ := nofun

theorem InitializeResult.tidies : Tidies InitializeResult.read? InitializeResult.toJson :=
  .of_present (fun _ => by simp [Table.keys]) fun r x h r' hget => by
    simp only [Option.bind_eq_bind, Option.bind_eq_some_iff, Option.pure_def, Option.some.injEq] at h
    obtain ⟨capabilities, hcapabilities, serverInfo, hinfo, rfl⟩ := h
    have hinfo' : r'.optional "serverInfo" Identity.read? = some serverInfo :=
      Record.optional_of_map (by simp [hget, Table.get?]) (Identity.tidies.optional hinfo)
    simp [Record.need, hget, Table.get?, hinfo', ServerCapabilities.tidies.need hcapabilities]

end Handshake

section Notices

theorem RequestId.tidies : Tidies RequestId.read? RequestId.toJson where
  again {v id} h := by
    cases v with
    | string s =>
      cases h
      rfl
    | integer n =>
      obtain ⟨n', hn, rfl⟩ := Option.map_eq_some_iff.mp h
      exact Option.map_eq_some_iff.mpr ⟨n', (natural_tidies word64).again hn, rfl⟩
    | _ => cases h
  present {v id} _ := by cases id <;> nofun

theorem Severity.tidies : Tidies Severity.read? Severity.toJson where
  again {v severity} _ := by cases severity <;> rfl
  present _ := nofun

theorem MessageParams.tidies : Tidies MessageParams.read? MessageParams.toJson :=
  .of_fields (fun _ => by simp [Table.keys]) fun r x h r' hget => by
    simp only [Option.bind_eq_bind, Option.bind_eq_some_iff, Option.pure_def, Option.some.injEq] at h
    obtain ⟨severity, hseverity, message, -, rfl⟩ := h
    simp [Record.need, hget, Table.get?, string?, Severity.tidies.need hseverity]

theorem CancelParams.tidies : Tidies CancelParams.read? CancelParams.toJson :=
  .of_fields (fun _ => by simp [Table.keys]) fun r x h r' hget => by
    simp only [Option.bind_eq_bind, Option.bind_eq_some_iff, Option.pure_def, Option.some.injEq] at h
    obtain ⟨id, hid, rfl⟩ := h
    simp [Record.need, hget, Table.get?, RequestId.tidies.need hid]

theorem Registration.tidies : Tidies Registration.read? Registration.toJson :=
  .of_present (fun _ => by simp [Table.keys]) fun r x h r' hget => by
    simp only [Option.bind_eq_bind, Option.bind_eq_some_iff, Option.pure_def, Option.some.injEq,
      Record.optional_any] at h
    obtain ⟨id, -, method, -, _, rfl, rfl⟩ := h
    simp [Record.need, Record.optional_any, hget, Table.get?, string?]

theorem RegistrationParams.tidies : Tidies RegistrationParams.read? RegistrationParams.toJson :=
  .of_fields (fun _ => by simp [Table.keys]) fun r x h r' hget => by
    simp only [Option.bind_eq_bind, Option.bind_eq_some_iff, Option.pure_def, Option.some.injEq] at h
    obtain ⟨registrations, hregistrations, rfl⟩ := h
    simp [Record.need, hget, Table.get?, (list_tidies Registration.tidies).need hregistrations]

theorem Unregistration.tidies : Tidies Unregistration.read? Unregistration.toJson :=
  .of_fields (fun _ => by simp [Table.keys]) fun r x h r' hget => by
    simp only [Option.bind_eq_bind, Option.bind_eq_some_iff, Option.pure_def, Option.some.injEq] at h
    obtain ⟨id, -, method, -, rfl⟩ := h
    simp [Record.need, hget, Table.get?, string?]

theorem UnregistrationParams.tidies : Tidies UnregistrationParams.read? UnregistrationParams.toJson :=
  .of_fields (fun _ => by simp [Table.keys]) fun r x h r' hget => by
    simp only [Option.bind_eq_bind, Option.bind_eq_some_iff, Option.pure_def, Option.some.injEq] at h
    obtain ⟨unregistrations, hunregistrations, rfl⟩ := h
    simp [Record.need, hget, Table.get?, (list_tidies Unregistration.tidies).need hunregistrations]

end Notices

end LanguageClient
