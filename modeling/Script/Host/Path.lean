/-
Paths, as texts with slashes. Names of files are made by joining, and
nothing is resolved in them; only taking the parent of a path passes
over what has no meaning at its end: slashes and single dots.
-/

namespace Script.Host

/-- Whether a path does not depend on the place it is used at. -/
def isAbsolute (path : String) : Bool := path.toList.head? = some '/'

/-- Two paths joined by a slash, unless the first is empty or ends in
one. An absolute path stands for itself. -/
def joinPath (base path : String) : String :=
  if isAbsolute path then path
  else
    match base.toList.getLast? with
    | none => path
    | some '/' => base ++ path
    | some _ => base ++ "/" ++ path

/-- The beginning of a path that is no component to be taken off: the
root, or a dot that stands first. -/
def anchor : List Char → List Char
  | '/' :: _ => ['/']
  | ['.'] => ['.']
  | '.' :: '/' :: _ => ['.']
  | _ => []

/-- A path behind its anchor, last character first, without what has no
meaning at its end. -/
def trimBody : List Char → List Char
  | '/' :: cs => trimBody cs
  | '.' :: '/' :: cs => trimBody cs
  | ['.'] => []
  | cs => cs

/-- The path around a path: the last component taken off. The root and
the empty path have none. -/
def parent? (path : String) : Option String :=
  let cs := path.toList
  let front := anchor cs
  match trimBody (cs.drop front.length).reverse with
  | [] => if front = ['.'] then some "" else none
  | body =>
      let around := trimBody (body.dropWhile (· != '/'))
      some (String.ofList (front ++ around.reverse))

example : (parent? "././main.q", parent? "main.q", parent? "x//y.q",
    parent? "/x", parent? "a/./b/.") =
    (some ".", some "", some "x", some "/", some "a") := by
  decide +kernel

end Script.Host
