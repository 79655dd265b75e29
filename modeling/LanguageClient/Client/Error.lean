import LanguageClient.Wire.Message

namespace LanguageClient

inductive ClientError
  | notConnected
  | transport (reason : String)
  /-- No answer within so many nanoseconds. -/
  | timeout (method : String) (after : Nat)
  | cancelled
  | server (code : Int) (message : String)
  | unsupported (method : String)
  | badAnswer (reason : String)
  | handlerConflict (reason : String)
  | undecodable
  deriving DecidableEq, Repr

namespace ClientError

def message : ClientError → String
  | notConnected => "Not connected to a language server"
  | transport reason => s!"Transport send failed: {reason}"
  | timeout method after => s!"'{method}' timed out after {after / 1000000}ms"
  | cancelled => "Request cancelled"
  | server code message => s!"Server error [{code}]: {message}"
  | unsupported method => s!"Server does not support '{method}'"
  | badAnswer reason => s!"Protocol error: {reason}"
  | handlerConflict reason => s!"Handler registration rejected: {reason}"
  | undecodable => "undecodable value"

def code : ClientError → Int
  | server code _ => code
  | cancelled => ErrorCode.requestCancelled
  | notConnected => ErrorCode.serverNotReady
  | unsupported _ => ErrorCode.methodNotFound
  | undecodable => ErrorCode.parseError
  | _ => ErrorCode.internalError

def isCancelled : ClientError → Bool
  | cancelled => true
  | server code _ => code == ErrorCode.requestCancelled
  | _ => false

def isTimeout : ClientError → Bool
  | timeout _ _ => true
  | _ => false

def isContentModified : ClientError → Bool
  | server code _ => code == ErrorCode.contentModified
  | _ => false

def isRecoverable (e : ClientError) : Bool :=
  e.isTimeout || e.isCancelled || e.isContentModified

def ofResponse (e : ResponseError) : ClientError :=
  if e.code = ErrorCode.requestCancelled then cancelled else server e.code e.message

end ClientError

end LanguageClient
