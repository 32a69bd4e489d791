/-
A directory as a value: files and directories by their paths, and
reading a file in it. It stands for the directory that a run takes place
in; what lies outside of it is taken to be empty.
-/
import Script.Host.Fault

namespace Script.Host

/-- Reads a file as text. -/
abbrev Reader := String → Except ReadFault String

/-- A directory: its files with their contents, and directories that may
be empty. Paths are lists of components; every path on the way to an
entry is a directory. -/
structure Folder where
  files : List (List String × ByteArray)
  directories : List (List String)

namespace Folder

/-- The components of a path. -/
def components (path : String) : List String := path.splitOn "/"

/-- Whether a component stays where it is. -/
def staysPut (c : String) : Bool := c == "" || c == "."

/-- The place that a path without steps upward leads to. -/
def placeOf (path : String) : List String :=
  (components path).filter fun c => !staysPut c

/-- A directory with given files and directories in it. -/
def ofEntries (files : List (String × ByteArray))
    (directories : List String) : Folder :=
  ⟨files.map fun (path, bytes) => (placeOf path, bytes),
    directories.map placeOf⟩

/-- Whether there is a directory at a path. -/
def isDirectory (f : Folder) (path : List String) : Bool :=
  path.isEmpty || (f.directories ++ f.files.map (·.1.dropLast)).any
    fun entry => path.isPrefixOf entry

/-- The content of the file at a path. -/
def content? (f : Folder) (path : List String) : Option ByteArray :=
  f.files.lookup path

/-- Whether components stay where they are or go up. -/
def leadsNowhere (cs : List String) : Bool :=
  cs.all fun c => staysPut c || c == ".."

/-- Follows components from a path inside of the directory. -/
def follow (f : Folder) (path : List String) :
    List String → Except ReadFault (List String)
  | [] => .ok path
  | c :: cs =>
      if !f.isDirectory path then
        .error (if (f.content? path).isSome then .notDirectory else .notFound)
      else if staysPut c then f.follow path cs
      else if c == ".." then
        if path.isEmpty then
          .error (if leadsNowhere cs then .isDirectory else .notFound)
        else f.follow path.dropLast cs
      else f.follow (path ++ [c]) cs

/-- Reads a file as text. -/
def read (f : Folder) : Reader := fun path => do
  let cs := components path
  if path.isEmpty then throw .notFound
  if cs.head? = some "" then
    throw (if leadsNowhere cs then .isDirectory else .notFound)
  let place ← f.follow [] cs
  match f.content? place with
  | some bytes =>
      match String.fromUTF8? bytes with
      | some text => return text
      | none => throw .notText
  | none => throw (if f.isDirectory place then .isDirectory else .notFound)

end Folder

end Script.Host
