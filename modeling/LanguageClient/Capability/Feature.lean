namespace LanguageClient

inductive Feature
  | completion
  | hover
  | signatureHelp
  | definition
  | typeDefinition
  | implementation
  | references
  | documentSymbol
  | workspaceSymbol
  | codeAction
  | formatting
  | rangeFormatting
  | rename
  | inlayHints
  deriving DecidableEq, Repr

namespace Feature

def all : List Feature :=
  [completion, hover, signatureHelp, definition, typeDefinition, implementation, references,
    documentSymbol, workspaceSymbol, codeAction, formatting, rangeFormatting, rename, inlayHints]

def method : Feature → String
  | completion => "textDocument/completion"
  | hover => "textDocument/hover"
  | signatureHelp => "textDocument/signatureHelp"
  | definition => "textDocument/definition"
  | typeDefinition => "textDocument/typeDefinition"
  | implementation => "textDocument/implementation"
  | references => "textDocument/references"
  | documentSymbol => "textDocument/documentSymbol"
  | workspaceSymbol => "workspace/symbol"
  | codeAction => "textDocument/codeAction"
  | formatting => "textDocument/formatting"
  | rangeFormatting => "textDocument/rangeFormatting"
  | rename => "textDocument/rename"
  | inlayHints => "textDocument/inlayHint"

def capability : Feature → String
  | completion => "completionProvider"
  | hover => "hoverProvider"
  | signatureHelp => "signatureHelpProvider"
  | definition => "definitionProvider"
  | typeDefinition => "typeDefinitionProvider"
  | implementation => "implementationProvider"
  | references => "referencesProvider"
  | documentSymbol => "documentSymbolProvider"
  | workspaceSymbol => "workspaceSymbolProvider"
  | codeAction => "codeActionProvider"
  | formatting => "documentFormattingProvider"
  | rangeFormatting => "documentRangeFormattingProvider"
  | rename => "renameProvider"
  | inlayHints => "inlayHintProvider"

def displayName : Feature → String
  | completion => "completion"
  | hover => "hover"
  | signatureHelp => "signature help"
  | definition => "go to definition"
  | typeDefinition => "go to type definition"
  | implementation => "find implementations"
  | references => "find references"
  | documentSymbol => "document symbols"
  | workspaceSymbol => "workspace symbols"
  | codeAction => "code actions"
  | formatting => "formatting"
  | rangeFormatting => "range formatting"
  | rename => "rename"
  | inlayHints => "inlay hints"

def ofMethod? (method : String) : Option Feature :=
  all.find? (·.method == method)

def ofCapability? (key : String) : Option Feature :=
  all.find? (·.capability == key)

end Feature

end LanguageClient
