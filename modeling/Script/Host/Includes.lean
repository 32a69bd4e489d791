/-
Where included files are looked for: beside the file that asks, then in
the search directories in order. The first candidate that can be read is
taken, and its path is its name.
-/
import Script.Clean.Basic
import Script.Host.Folder
import Script.Host.Path

namespace Script.Host

/-- The paths at which an included file may be: the name of the asking
file, then the path asked for. An absolute path is only tried as it
is. -/
def candidates (directories : List String) (asking path : String) :
    List String :=
  if isAbsolute path then [path]
  else
    ((parent? asking).toList ++ directories).map fun base =>
      joinPath base path

/-- Looks for included files among the candidates. -/
def resolver (read : Reader) (directories : List String) :
    Clean.Resolver := fun asking path =>
  (candidates directories asking path).findSome? fun name =>
    (read name).toOption.map fun text => ⟨name, text⟩

/-- Reads a file and registers it under its path. -/
def load (read : Reader) (sources : Sources) (path : String) :
    Except Fault (FileId × Sources) :=
  match read path with
  | .ok text => .ok (sources.add path text)
  | .error f => .error (.unreadable path f)

end Script.Host
