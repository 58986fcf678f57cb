/-
The command line. It names a problem file and draws every inference from one given
clause of it: all factors of the given clause, and all paramodulants between it
and each other clause. The given clause is chosen by name, and without a name it
is the last one of the problem. Tautologies are dropped unless they are wanted.
The arguments may also ask for help, and are then described instead.

`run` takes the arguments and the files and says what is printed, what is
reported, and with which status the program ends.
-/
import Clausal.Factoring
import Clausal.Paramodulation
import Clausal.Problem.Reading
import Clausal.Rendering.Named
import Clausal.Tautology
import Clausal.Text.Quoted

set_option autoImplicit false

namespace Clausal.CommandLine

/-! ## Requests -/

/-- What inferences are to be drawn from. -/
structure Options where
  file : String
  /-- The name of the given clause. -/
  given : Option String
  /-- Tautologies are printed, too. -/
  keepTrivial : Bool
deriving DecidableEq, Inhabited

/-- What the arguments ask for. -/
inductive Request where
  /-- The inferences from a given clause. -/
  | inferences (options : Options)
  /-- A description of the arguments. -/
  | help
deriving DecidableEq, Inhabited

/-- The options of a request for inferences. -/
def Request.options? : Request → Option Options
  | inferences options => some options
  | help => none

/-! ## Arguments -/

/-- The arguments seen so far, which may not have named a file yet. -/
structure Seen where
  file : Option String
  given : Option String
  keepTrivial : Bool

namespace Seen

/-- Before the first argument. -/
def nothing : Seen := ⟨none, none, false⟩

/-- Notes the name of the file, once. The name must not be empty. -/
def file? (s : Seen) (file : String) : Option Seen :=
  if s.file.isSome || file.isEmpty then none else some { s with file := some file }

/-- Notes the name of the given clause, once. -/
def name? (s : Seen) (given : String) : Option Seen :=
  if s.given.isSome then none else some { s with given := some given }

/-- Notes that tautologies are wanted, once. -/
def keep? (s : Seen) : Option Seen :=
  if s.keepTrivial then none else some { s with keepTrivial := true }

/-- The request for inferences that all arguments make together. A file must have been
named. -/
def request? (s : Seen) : Option Request :=
  s.file.map fun file => .inferences ⟨file, s.given, s.keepTrivial⟩

end Seen

/-- The argument is meant as an option: it begins with a hyphen and is not a hyphen
alone. -/
def looksLikeOption (argument : String) : Bool :=
  argument.toList.head? == some '-' && argument != "-"

/-- The argument asks for help. Letters behind one hyphen are options one by one, and an
`h` in front of them has its effect before any other is looked at. -/
def asksForHelp (argument : String) : Bool :=
  argument == "--help" || "-h".toList.isPrefixOf argument.toList

/-- What follows `--given=` in an argument. -/
def givenValue? (argument : String) : Option String :=
  let front := "--given=".toList
  if front.isPrefixOf argument.toList then
    some (String.ofList (argument.toList.drop front.length))
  else none

/-- Goes through the arguments. Options and the file may be mixed; everything after
two hyphens is a file. The first fault or request for help settles the matter, whatever
comes after it. -/
def request? : Seen → List String → Option Request
  | s, [] => s.request?
  | s, "--" :: files => do (← files.foldlM Seen.file? s).request?
  | s, "--keep-trivial" :: rest => do request? (← s.keep?) rest
  | s, "--given" :: value :: rest => do
    if looksLikeOption value then none else request? (← s.name? value) rest
  | s, argument :: rest =>
    match givenValue? argument with
    | some value => do request? (← s.name? value) rest
    | none =>
      if asksForHelp argument then some .help
      else if looksLikeOption argument then none
      else do request? (← s.file? argument) rest

/-- What the arguments ask for, if they are well formed. -/
def Request.parse? (arguments : List String) : Option Request := request? .nothing arguments

/-- The options that the arguments stand for, if they are well formed and do not ask for
help. -/
def Options.parse? (arguments : List String) : Option Options :=
  Request.parse? arguments >>= Request.options?

/-- The description of the arguments, line by line. -/
def helpText : List String :=
  ["Derive all factors and paramodulants of a given clause in a TPTP CNF problem",
    "",
    "Usage: paraprover [OPTIONS] <FILE>",
    "",
    "Arguments:",
    "  <FILE>  Path to a tptp problem file",
    "",
    "Options:",
    "      --given <GIVEN>  Name of the given clause, the last clause of the problem by " ++
      "default. All other clauses are treated as processed",
    "      --keep-trivial   Also print derived clauses that are tautologies",
    "  -h, --help           Print help"]

/-! ## Inferences -/

/-- The given clause and all others: the first clause of the wanted name, or the
last clause if no name is wanted. -/
def chooseGiven (name : Option String) (clauses : List Clause) : Option (Clause × List Clause) :=
  match name with
  | some n => (selections clauses).find? fun s => s.1.label? == some n
  | none => (selections clauses).getLast?

/-- All factors of the given clause, and then all its paramodulants with the
processed clauses. -/
def derive (given : Clause) (processed : List Clause) : Except InferenceError (List Clause) := do
  let factors ← given.factors
  let others ← paramodulants processed given
  pure (factors ++ others)

/-- The derived clauses as they are printed, numbered from 0 after the tautologies
have been dropped. -/
def printed (σ : Signature) (keepTrivial : Bool) (derived : List Clause) : List String :=
  (derived.filter fun c => keepTrivial || !c.isTrivial).zipIdx.map fun p => p.1.annotated σ p.2

/-! ## Runs -/

/-- What a run of the program comes to. -/
structure Report where
  status : UInt8
  /-- The lines printed. -/
  output : List String
  /-- The lines reported, without the time of day. -/
  log : List String
deriving DecidableEq, Inhabited

namespace Report

/-- A run that ends well. -/
def success (output : List String) : Report := ⟨0, output, []⟩

/-- A run that ends with an error. -/
def failure (message : String) : Report := ⟨1, [], ["ERROR  |paraprover| " ++ message]⟩

/-- A run that never starts, because its arguments make no sense. -/
def usage : Report := ⟨2, [], []⟩

end Report

/-- Reads the problem, chooses the given clause, and prints what can be derived. -/
def runWith (files : FileSystem) (options : Options) : Report :=
  let path := Text.quote options.file
  match (Problem.fromFile files options.file).run Signature.initial with
  | (.error e, _) => .failure ("Failed to read " ++ path ++ ": " ++ e.message)
  | (.ok clauses, σ) =>
    match chooseGiven options.given clauses with
    | none => .failure ("No given clause found in " ++ path)
    | some (given, processed) =>
      match derive given processed with
      | .error e => .failure ("Inference failed: " ++ e.message)
      | .ok derived => .success (printed σ options.keepTrivial derived)

/-- A run of the program. -/
def run (files : FileSystem) (arguments : List String) : Report :=
  match Request.parse? arguments with
  | none => .usage
  | some .help => .success helpText
  | some (.inferences options) => runWith files options

end Clausal.CommandLine
