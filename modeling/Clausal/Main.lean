/-
The program. All it adds to `CommandLine.run` is contact with the world: it reads
the problem file and whatever that file includes from the disk, puts the time of
day before each line of the report, and ends with the status of the run.
-/
import Clausal.CommandLine
import Std.Time.Format

set_option autoImplicit false

namespace Clausal.Main

/-- The system's number for an error; some are counted downwards from zero. -/
def errorCode (code : UInt32) : Nat :=
  if code.toNat < 0x80000000 then code.toNat else 0x100000000 - code.toNat

/-- The reason why a file cannot be read, from the system's error. -/
def fileError : IO.Error → FileError
  | .noFileOrDirectory _ _ _ => .notFound
  | .inappropriateType _ code reason =>
    match errorCode code with
    | 20 => .notDirectory
    | 21 => .isDirectory
    | other => .other other reason.capitalize
  | .permissionDenied _ code reason | .resourceExhausted _ code reason
  | .invalidArgument _ code reason | .noSuchThing _ code reason | .otherError code reason =>
    .other (errorCode code) reason.capitalize
  | e => .other 5 (toString e)

/-- The bytes of a file on the disk. -/
def readDisk (path : String) : IO (Except FileError (List UInt8)) := do
  try
    let bytes ← IO.FS.readBinFile path
    pure (.ok bytes.data.toList)
  catch e => pure (.error (fileError e))

/-- The paths that a file includes as a whole. -/
def included (path : String) (bytes : List UInt8) : List String :=
  (Problem.Document.ofBytes bytes).items.filterMap fun
    | .inclusion file none => some (locate (directoryOf path) file)
    | _ => none

/-- What has been read from the disk so far, by path. -/
abbrev Loaded := List (String × Except FileError (List UInt8))

/-- Reads files and all that they include, each once. -/
partial def load (loaded : Loaded) : List String → IO Loaded
  | [] => pure loaded
  | path :: rest => do
    if (loaded.lookup path).isSome then load loaded rest
    else
      let result ← readDisk path
      let more :=
        match result with
        | .ok bytes => included path bytes
        | .error _ => []
      load (loaded ++ [(path, result)]) (more ++ rest)

/-- The files that have been read as a file system. -/
def toFileSystem (loaded : Loaded) : FileSystem :=
  ⟨fun path => (loaded.lookup path).getD (.error .notFound), loaded.length + 1⟩

def twoDigits (n : Int) : String := if n < 10 then "0" ++ toString n else toString n

/-- The time of day, as it stands before a line of the report. -/
def timeOfDay : IO String := do
  let now ← Std.Time.PlainTime.now
  pure (twoDigits now.hour.val ++ ":" ++ twoDigits now.minute.val ++ ":" ++
    twoDigits now.second.val ++ "|")

/-- The files that a request needs. -/
def filesFor : Option CommandLine.Request → IO FileSystem
  | some (.inferences options) => do return toFileSystem (← load [] [options.file])
  | _ => pure .empty

end Clausal.Main

/-- Derives all factors and paramodulants of a given clause in a problem file. -/
def main (arguments : List String) : IO UInt32 := do
  let request := Clausal.CommandLine.Request.parse? arguments
  let files ← Clausal.Main.filesFor request
  let report := Clausal.CommandLine.run files arguments
  if request.isNone then
    IO.eprintln "usage: paraprover [--given NAME] [--keep-trivial] FILE"
  report.output.forM fun line => IO.println line
  report.log.forM fun line => do IO.eprintln ((← Clausal.Main.timeOfDay) ++ line)
  pure report.status.toUInt32
