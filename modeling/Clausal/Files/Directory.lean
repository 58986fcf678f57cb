/-
A directory held in memory, and how paths are followed in it. A path is followed
from its first component to its last. An empty component and a single dot stay
where they are, two dots go up, and any other component goes down by name. Every
step needs a directory to start from, so a path through a file fails, also if
nothing but a slash comes after the file.

Above the directory there is a place of which nothing is known but that it is a
directory. It is where absolute paths start, too.
-/
import Clausal.Files

set_option autoImplicit false

namespace Clausal

/-- Files with their paths from the root of the directory, each path given by its
components. -/
structure Directory where
  files : List (List String × List UInt8)

namespace Directory

def components (path : String) : List String :=
  (path.toList.splitOn '/').map String.ofList

/-- A component that stays where it is. -/
def isHere (component : String) : Bool := component == "" || component == "."

def ofFiles (files : List (String × List UInt8)) : Directory :=
  ⟨files.map fun f => ((components f.1).filter (!isHere ·), f.2)⟩

/-- Where following a path has come to. -/
inductive Place where
  /-- A place above the directory or beside it. -/
  | outside
  /-- A directory, given by the components that lead to it. -/
  | inside (path : List String)
  | file (bytes : List UInt8)

/-- Goes down by name. -/
def enter (d : Directory) (path : List String) (name : String) : Except FileError Place :=
  let path := path ++ [name]
  match d.files.lookup path with
  | some bytes => .ok (.file bytes)
  | none => if d.files.any fun f => path.isPrefixOf f.1 then .ok (.inside path) else .error .notFound

def step (d : Directory) (place : Place) (component : String) : Except FileError Place :=
  match place with
  | .file _ => .error .notDirectory
  | .outside => if isHere component || component == ".." then .ok .outside else .error .notFound
  | .inside path =>
    if isHere component then .ok place
    else if component == ".." then .ok (if path.isEmpty then .outside else .inside path.dropLast)
    else d.enter path component

/-- Follows a path to its end. -/
def follow (d : Directory) (path : String) : Except FileError Place :=
  if path.isEmpty then .error .notFound
  else
    let start := if path.toList.head? = some '/' then Place.outside else .inside []
    (components path).foldlM d.step start

/-- The bytes of the file that a path leads to. -/
def read (d : Directory) (path : String) : Except FileError (List UInt8) := do
  match ← d.follow path with
  | .file bytes => pure bytes
  | .inside _ | .outside => throw .isDirectory

/-- The directory as a file system. Files that include one another without going
round in a circle cannot nest deeper than there are files. -/
def toFileSystem (d : Directory) : FileSystem := ⟨d.read, d.files.length + 1⟩

end Directory

end Clausal
