import LanguageClient.Delta.Basic

namespace LanguageClient

inductive WorkspaceError
  | alreadyOpen (uri : String)
  | notOpen (uri : String)
  | invalidEdit (uri reason : String)
  | historyGone (uri : String) (version : Nat)
  | unknownDocument (uri : String)
  | documentClosed (uri : String)
  | outOfRange (uri : String) (offset length : Nat)
  | delta (fault : Delta.Fault)
  deriving DecidableEq, Repr

def WorkspaceError.message : WorkspaceError → String
  | alreadyOpen uri => s!"Document already open: {uri}"
  | notOpen uri => s!"Document not open: {uri}"
  | invalidEdit uri reason => s!"Invalid edit for {uri}: {reason}"
  | historyGone uri version => s!"Edit history for {uri} no longer reaches version {version}"
  | unknownDocument uri => s!"Document was not open when the mapping started: {uri}"
  | documentClosed uri => s!"Document was closed after the mapping started: {uri}"
  | outOfRange uri offset length => s!"Offset {offset} is outside {uri} (length {length})"
  | delta fault => fault.message

end LanguageClient
