import LanguageClient.Json.Printer

namespace LanguageClient.CommandLine

def failure (message : String) : Json :=
  .ofFields [("success", .bool false), ("error", .string message)]

def success (fields : List (String × Option Json)) : Json :=
  .ofPresent (fields ++ [("success", some (.bool true))])

end LanguageClient.CommandLine
