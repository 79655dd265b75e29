namespace LanguageClient.CommandLine

inductive FileFault
  | notFound
  | notDirectory
  | isDirectory
  | denied
  | other (detail : String)
  deriving DecidableEq, Repr

def FileFault.message : FileFault → String
  | notFound => "No such file or directory (os error 2)"
  | denied => "Permission denied (os error 13)"
  | notDirectory => "Not a directory (os error 20)"
  | isDirectory => "Is a directory (os error 21)"
  | other detail => detail

structure FileTree where
  files : List (List String × String)
  directories : List (List String)
  programs : List (List String)

namespace FileTree

def parts (path : String) : List String :=
  path.splitOn "/"

def text? (t : FileTree) (path : List String) : Option String :=
  (t.files.find? (·.1 == path)).map Prod.snd

def isFile (t : FileTree) (path : List String) : Bool :=
  (t.text? path).isSome || t.programs.contains path

def isDirectory (t : FileTree) (path : List String) : Bool :=
  !t.isFile path &&
    (path.isEmpty || t.directories.any path.isPrefixOf ||
      (t.files.map Prod.fst ++ t.programs).any path.isPrefixOf)

def walk (t : FileTree) : List String → List String → Except FileFault (List String)
  | here, [] => .ok here
  | here, p :: rest =>
    if !t.isDirectory here then .error .notDirectory
    else if p == "" || p == "." then walk t here rest
    else if p == ".." then walk t here.dropLast rest
    else
      let next := here ++ [p]
      if t.isDirectory next || t.isFile next then walk t next rest else .error .notFound

def locate (t : FileTree) (directory path : String) : Except FileFault (List String) :=
  if path.isEmpty then .error .notFound
  else if path.startsWith "/" then t.walk [] (parts path)
  else do t.walk (← t.walk [] (parts directory)) (parts path)

def absolute (place : List String) : String :=
  "/" ++ "/".intercalate place

def read (t : FileTree) (directory path : String) : Except FileFault String := do
  let place ← t.locate directory path
  match t.text? place with
  | some text => return text
  | none => throw (if t.isDirectory place then .isDirectory else .denied)

/-- Whether a program can be started in a directory. One without a slash is looked for elsewhere, where
there is none. -/
def startable (t : FileTree) (directory program : String) : Except FileFault Unit := do
  let here ← t.walk [] (parts directory)
  if !t.isDirectory here then throw .notDirectory
  else if !program.contains '/' then throw .notFound
  else if t.programs.contains (← t.locate directory program) then return
  else throw .denied

end FileTree

end LanguageClient.CommandLine
