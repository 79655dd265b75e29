namespace LanguageClient.Path

inductive Part
  | root
  | here
  | name (cs : List Char)
  deriving DecidableEq, Repr

def start? : List Char → Option Part
  | '/' :: _ => some .root
  | ['.'] => some .here
  | '.' :: '/' :: _ => some .here
  | _ => none

def body (cs : List Char) : List Char :=
  if (start? cs).isSome then cs.drop 1 else cs

def segments : List Char → List (List Char)
  | [] => [[]]
  | c :: cs =>
    if c = '/' then [] :: segments cs
    else match segments cs with
      | [] => [[c]]
      | s :: ss => (c :: s) :: ss

def names (cs : List Char) : List (List Char) :=
  (segments cs).filter fun s => s ≠ [] ∧ s ≠ ['.']

def parts (cs : List Char) : List Part :=
  (start? cs).toList ++ (names (body cs)).map .name

def skip : List Char → List Char
  | '/' :: cs => skip cs
  | ['.'] => []
  | '.' :: '/' :: cs => skip cs
  | cs => cs

def skipEnd (cs : List Char) : List Char :=
  (skip cs.reverse).reverse

def dropNames : Nat → List Char → List Char
  | 0, cs => skip cs
  | n + 1, cs => dropNames n ((skip cs).dropWhile (· != '/'))

def withoutEnd (cs : List Char) : List Char :=
  let kept := (start? cs).toList.length
  cs.take kept ++ skipEnd (cs.drop kept)

/-- The rest of `path` behind `root`; none if `root` is not a front part of it. -/
def relativeTo? (root path : List Char) : Option (List Char) :=
  let n := (parts root).length
  if parts root <+: parts path then
    if n = 0 then some (withoutEnd path)
    else some (skipEnd (dropNames (n - (start? path).toList.length) (body path)))
  else none

def relative (root path : String) : String :=
  match relativeTo? root.toList path.toList with
  | some cs => String.ofList cs
  | none => path

end LanguageClient.Path
