import LanguageClient.Capability.Feature
import LanguageClient.Capability.Gate
import LanguageClient.Client.Agenda
import LanguageClient.Client.Basic
import LanguageClient.Client.Call
import LanguageClient.Client.Connection
import LanguageClient.Client.Editing
import LanguageClient.Client.Error
import LanguageClient.Client.Frame
import LanguageClient.Client.Inbound
import LanguageClient.Client.Requests
import LanguageClient.Client.Turn
import LanguageClient.CommandLine.Arguments
import LanguageClient.CommandLine.Exchange
import LanguageClient.CommandLine.Files
import LanguageClient.CommandLine.Output
import LanguageClient.CommandLine.Path
import LanguageClient.CommandLine.Script
import LanguageClient.CommandLine.Setup
import LanguageClient.Config.File
import LanguageClient.Config.Settings
import LanguageClient.Decimal.Rounding
import LanguageClient.Decimal.Shortest
import LanguageClient.Decimal.Word
import LanguageClient.Delta.Basic
import LanguageClient.Delta.Compose
import LanguageClient.Delta.Machine
import LanguageClient.Delta.Track
import LanguageClient.Inspection
import LanguageClient.Json.Basic
import LanguageClient.Json.Number
import LanguageClient.Json.Printer
import LanguageClient.Json.Reader
import LanguageClient.Json.Record
import LanguageClient.Main
import LanguageClient.Proofs.Capability.History
import LanguageClient.Proofs.Capability.Registered
import LanguageClient.Proofs.Client.Act
import LanguageClient.Proofs.Client.Answers
import LanguageClient.Proofs.Client.Attachment
import LanguageClient.Proofs.Client.Batch
import LanguageClient.Proofs.Client.Bond
import LanguageClient.Proofs.Client.Cancellation
import LanguageClient.Proofs.Client.Confined
import LanguageClient.Proofs.Client.Connection
import LanguageClient.Proofs.Client.ContentChanges
import LanguageClient.Proofs.Client.Deadlines
import LanguageClient.Proofs.Client.Dealings
import LanguageClient.Proofs.Client.Deed
import LanguageClient.Proofs.Client.Happening
import LanguageClient.Proofs.Client.Ledger
import LanguageClient.Proofs.Client.LiveGate
import LanguageClient.Proofs.Client.Mapping
import LanguageClient.Proofs.Client.Mirror
import LanguageClient.Proofs.Client.Moves
import LanguageClient.Proofs.Client.Once
import LanguageClient.Proofs.Client.Placed
import LanguageClient.Proofs.Client.Places
import LanguageClient.Proofs.Client.Queue
import LanguageClient.Proofs.Client.Rebase
import LanguageClient.Proofs.Client.Registrations
import LanguageClient.Proofs.Client.Retrying
import LanguageClient.Proofs.Client.ServerMirror
import LanguageClient.Proofs.Client.Shutdown
import LanguageClient.Proofs.Client.Stream
import LanguageClient.Proofs.Client.Traffic
import LanguageClient.Proofs.Client.Whereabouts
import LanguageClient.Proofs.Client.Wire
import LanguageClient.Proofs.Delta.Carry
import LanguageClient.Proofs.Delta.Compose
import LanguageClient.Proofs.Delta.Determined
import LanguageClient.Proofs.Delta.Edits
import LanguageClient.Proofs.Delta.Image
import LanguageClient.Proofs.Delta.Machine
import LanguageClient.Proofs.Delta.Normal
import LanguageClient.Proofs.Delta.Regions
import LanguageClient.Proofs.Delta.Replay
import LanguageClient.Proofs.Delta.Touched
import LanguageClient.Proofs.Delta.Track
import LanguageClient.Proofs.Json.Record
import LanguageClient.Proofs.Request.Clock
import LanguageClient.Proofs.Request.Settlement
import LanguageClient.Proofs.Retry
import LanguageClient.Proofs.Table
import LanguageClient.Proofs.Text.Bytes
import LanguageClient.Proofs.Text.FileUri
import LanguageClient.Proofs.Text.Lines
import LanguageClient.Proofs.Text.Order
import LanguageClient.Proofs.Text.Position
import LanguageClient.Proofs.Text.RoundTrip
import LanguageClient.Proofs.Text.Utf8
import LanguageClient.Proofs.Text.Weave
import LanguageClient.Proofs.Transport.Framing
import LanguageClient.Proofs.Wire.Messages
import LanguageClient.Proofs.Wire.Records
import LanguageClient.Proofs.Workspace.Chain
import LanguageClient.Proofs.Workspace.Documents
import LanguageClient.Proofs.Workspace.Follow
import LanguageClient.Proofs.Workspace.History
import LanguageClient.Proofs.Workspace.Lifetimes
import LanguageClient.Proofs.Workspace.Moves
import LanguageClient.Proofs.Workspace.Rebase
import LanguageClient.Proofs.Workspace.Retention
import LanguageClient.Proofs.Workspace.Scopes
import LanguageClient.Proofs.Workspace.Sound
import LanguageClient.Request.Table
import LanguageClient.Retry
import LanguageClient.Table
import LanguageClient.Text.Blank
import LanguageClient.Text.Edit
import LanguageClient.Text.FileUri
import LanguageClient.Text.Position
import LanguageClient.Text.Utf8
import LanguageClient.Toml.Document
import LanguageClient.Toml.Scalar
import LanguageClient.Toml.Token
import LanguageClient.Transport.Buffer
import LanguageClient.Transport.Channel
import LanguageClient.Transport.Framing
import LanguageClient.Wire.Coordinates
import LanguageClient.Wire.Document
import LanguageClient.Wire.Handshake
import LanguageClient.Wire.Message
import LanguageClient.Wire.Schema
import LanguageClient.Wire.ServerNotice
import LanguageClient.Word
import LanguageClient.Workspace.Basic
import LanguageClient.Workspace.Error
import LanguageClient.Workspace.History
import LanguageClient.Workspace.Mapping
