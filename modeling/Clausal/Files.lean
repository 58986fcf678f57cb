/-
Files as the reading of a problem sees them: a path leads to bytes or to one of
the reasons why there are none. Nothing else about a file system matters, except
how deep files can include one another before they go round in a circle.
-/

set_option autoImplicit false

namespace Clausal

/-- Why a file cannot be read. -/
inductive FileError where
  /-- Nothing has this path. -/
  | notFound
  /-- Something on the way that has to be a directory is none. -/
  | notDirectory
  /-- The path leads to a directory. -/
  | isDirectory
  /-- Any other reason, as the system numbers and words it. -/
  | other (code : Nat) (reason : String)
deriving DecidableEq, Inhabited

/-- The system's wording of a reason, with its number. -/
def FileError.message : FileError → String
  | notFound => "No such file or directory (os error 2)"
  | notDirectory => "Not a directory (os error 20)"
  | isDirectory => "Is a directory (os error 21)"
  | other code reason => reason ++ " (os error " ++ toString code ++ ")"

/-- The files that can be read, and a bound on how deep they include one another. -/
structure FileSystem where
  read : String → Except FileError (List UInt8)
  depth : Nat

namespace FileSystem

def empty : FileSystem := ⟨fun _ => .error .notFound, 1⟩

end FileSystem

/-! ## Paths -/

/-- The directory part of a path, up to and including its last slash. -/
def directoryOf (path : String) : String :=
  String.ofList (path.toList.reverse.dropWhile (· != '/')).reverse

/-- The path of a file that is named from within a directory; a name that begins
with a slash stands for itself. -/
def locate (directory name : String) : String :=
  if name.toList.head? = some '/' then name else directory ++ name

end Clausal
