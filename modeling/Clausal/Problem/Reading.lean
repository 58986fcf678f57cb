/-
Reading a problem: from items to clauses over a signature. A clause is named after
its item. Each clause has variables of its own, numbered where they first occur;
function and predicate symbols are shared and numbered after their arguments.
Numbers and distinct objects are read as constants.

Items are read one by one, so a complaint about an early item comes before one
about the form of a later item, and what has been added to the signature by then
stays there. An inclusion is replaced by the clauses of the file included.
-/
import Clausal.Files
import Clausal.Problem.Document
import Clausal.Signature

set_option autoImplicit false

namespace Clausal.Problem

/-! ## Errors -/

/-- Why a problem cannot be read. -/
inductive ReadError where
  | file (error : FileError)
  /-- The statement that begins at the position is no item. -/
  | malformed (position : Nat)
  /-- A reserved word stands for a term. -/
  | reservedTerm (spelling : String)
  /-- A reserved word stands for an atom. -/
  | reservedAtom (spelling : String)
  /-- The formula is not given as a clause. -/
  | notClausal (spelling : String)
  /-- Only some formulas of a file are to be included. -/
  | selection (names : List String)
  /-- The files include one another without end. -/
  | circular (path : String)
deriving DecidableEq, Inhabited

/-- The wording of each error. -/
def ReadError.message : ReadError → String
  | file e => "IO error: " ++ e.message
  | malformed n => "syntax error at byte " ++ toString n
  | reservedTerm s => "unsupported input: term " ++ s
  | reservedAtom s => "unsupported input: atom " ++ s
  | notClausal s => "unsupported input: only cnf formulae are supported, got " ++ s
  | selection names =>
    "include with a formula selection is not supported: " ++ ",".intercalate names
  | circular path => "circular inclusion of " ++ path

/-- A computation that extends a signature, and keeps the extension also when it
fails. -/
abbrev Reading := ExceptT ReadError (StateM Signature)

/-! ## Clauses -/

/-- The signature together with the variables of the clause being read. -/
structure Scope where
  signature : Signature
  bound : List (String × Nat)

/-- A computation inside one clause. -/
abbrev InClause := ExceptT ReadError (StateM Scope)

namespace Scope

/-- The variable of a name, which is new where the name first occurs. -/
def resolve (name : String) (s : Scope) : Term × Scope :=
  match s.bound.lookup name with
  | some x => (.var x, s)
  | none =>
    let (x, signature) := s.signature.addVariable name
    (.var x, ⟨signature, s.bound ++ [(name, x)]⟩)

/-- The application of a function symbol given by name. -/
def apply (name : String) (args : List Term) (s : Scope) : Term × Scope :=
  let (f, signature) := s.signature.internFunction ⟨name, args.length⟩
  (.app f args, { s with signature })

/-- The application of a predicate symbol given by name. -/
def atom (name : String) (args : List Term) (s : Scope) : Atom × Scope :=
  let (p, signature) := s.signature.internPredicate ⟨name, args.length⟩
  (⟨p, args⟩, { s with signature })

end Scope

namespace Expr

mutual

/-- Reads an expression as a term. The arguments come before their symbol, and a reserved name is
refused. -/
def read : Expr → InClause Term
  | .var name => modifyGet (Scope.resolve name)
  | .apply name args => do
    let ts ← readList args
    modifyGet (Scope.apply name ts)
  | .constant spelling => modifyGet (Scope.apply spelling [])
  | .reserved name args => throw (.reservedTerm (Expr.reserved name args).text)

/-- Reads an argument list, first argument first. -/
def readList : List Expr → InClause (List Term)
  | [] => pure []
  | e :: es => do
    let t ← e.read
    let ts ← readList es
    pure (t :: ts)

end

end Expr

/-- Reads an atom, whose arguments come before its predicate. The number of equality is known, so
an equation interns nothing. -/
def AtomExpr.read : AtomExpr → InClause Atom
  | .plain name args => do
    let ts ← Expr.readList args
    modifyGet (Scope.atom name ts)
  | .reserved name args => throw (.reservedAtom (Expr.reserved name args).text)
  | .equation lhs rhs => do
    let s ← lhs.read
    let t ← rhs.read
    pure (Atom.equation s t)

/-- Reads a literal; a denied equation is read as the equation and negated. -/
def LiteralExpr.read : LiteralExpr → InClause Literal
  | .positive a => Literal.pos <$> a.read
  | .negative a => Literal.neg <$> a.read
  | .inequation lhs rhs => Literal.neg <$> (AtomExpr.equation lhs rhs).read

/-- Reads the literals of a clause, first literal first. -/
def readLiterals : List LiteralExpr → InClause (List Literal)
  | [] => pure []
  | l :: ls => do
    let m ← l.read
    let ms ← readLiterals ls
    pure (m :: ms)

/-- Reads a clause, with no variable known at its beginning. -/
def readClause (name : String) (literals : List LiteralExpr) : Reading Clause := fun σ =>
  let (result, scope) := (readLiterals literals).run ⟨σ, []⟩
  (result.map fun ls => Clause.make ls (.named name), scope.signature)

/-! ## Documents and files -/

/-- Reads an item of a text in a directory; `included` reads another file. -/
def Item.read (included : String → Reading (List Clause)) (directory : String) :
    Item → Reading (List Clause)
  | .clause name literals => do
    let c ← readClause name literals
    pure [c]
  | .formula spelling => throw (.notClausal spelling)
  | .inclusion _ (some names) => throw (.selection names)
  | .inclusion file none => included (locate directory file)

/-- Reads some items, each in the signature that the ones before it leave. -/
def readItems (included : String → Reading (List Clause)) (directory : String) :
    List Item → Reading (List Clause)
  | [] => pure []
  | i :: is => do
    let here ← i.read included directory
    let later ← readItems included directory is
    pure (here ++ later)

/-- Reads a document: all its items, and then its fault, if it has one. -/
def Document.read (included : String → Reading (List Clause)) (directory : String)
    (d : Document) : Reading (List Clause) := do
  let clauses ← readItems included directory d.items
  match d.fault with
  | some position => throw (.malformed position)
  | none => pure clauses

/-- Reads a file that is included at most `depth` deep. -/
def readNested (files : FileSystem) : (depth : Nat) → (path : String) → Reading (List Clause)
  | 0, path => throw (.circular path)
  | depth + 1, path =>
    match files.read path with
    | .error e => throw (.file e)
    | .ok bytes =>
      (Document.ofBytes bytes).read (readNested files depth) (directoryOf path)

/-- Reads a file, and the files that it includes. -/
def fromFile (files : FileSystem) (path : String) : Reading (List Clause) :=
  readNested files files.depth path

/-- The bytes of a text in UTF-8. -/
def utf8 (text : String) : List UInt8 := text.toList.flatMap String.utf8EncodeChar

/-- Reads the clauses of a text; files are found from the current directory. -/
def fromText (files : FileSystem) (text : String) : Reading (List Clause) :=
  (Document.ofBytes (utf8 text)).read (readNested files files.depth) "./"

end Clausal.Problem
