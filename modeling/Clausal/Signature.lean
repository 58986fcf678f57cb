/-
Signatures: the names behind the numbers in terms and atoms. Symbols of one kind
are numbered in the order in which they are added, and a number once given never
changes its meaning.

A function or predicate symbol is a name with an arity. The same symbol may be
added several times, each time under a new number; looking it up finds the first
number it got. For this a table keeps, beside its entries, an index of first
numbers. Variables have a name only, and a name may stand for many variables.

Predicate symbol 0 of every signature is equality.
-/
import Clausal.Clause

set_option autoImplicit false

namespace Clausal

/-- A name together with a number of arguments. -/
structure Symbol where
  name : String
  arity : Nat
deriving DecidableEq, Inhabited

/-! ## Tables of symbols -/

/-- Numbered symbols, with an index from each symbol to its first number. -/
structure SymbolTable where
  entries : Array Symbol
  index : List (Symbol × Nat)
deriving DecidableEq, Inhabited

namespace SymbolTable

def empty : SymbolTable := ⟨#[], []⟩

/-- The symbol with a number. -/
def get? (t : SymbolTable) (id : Nat) : Option Symbol := t.entries[id]?

/-- The number of a symbol, as far as it is known. -/
def find? (t : SymbolTable) (s : Symbol) : Option Nat := t.index.lookup s

/-- Adds a symbol under the next free number, which is returned. The index gains
an entry only if the symbol had none. -/
def add (t : SymbolTable) (s : Symbol) : Nat × SymbolTable :=
  let id := t.entries.size
  let index := if (t.find? s).isSome then t.index else t.index ++ [(s, id)]
  (id, ⟨t.entries.push s, index⟩)

/-- The number of a symbol, which is added if it is new. -/
def intern (t : SymbolTable) (s : Symbol) : Nat × SymbolTable :=
  match t.find? s with
  | some id => (id, t)
  | none => t.add s

@[simp] theorem entries_add (t : SymbolTable) (s : Symbol) :
    (t.add s).2.entries = t.entries.push s := rfl

@[simp] theorem add_fst (t : SymbolTable) (s : Symbol) : (t.add s).1 = t.entries.size := rfl

end SymbolTable

/-! ## Signatures -/

/-- The variables, function symbols and predicate symbols known by name. -/
structure Signature where
  variableNames : Array String
  functions : SymbolTable
  predicates : SymbolTable
deriving DecidableEq, Inhabited

namespace Signature

/-- The signature that knows equality and nothing else. -/
def initial : Signature := ⟨#[], .empty, (SymbolTable.empty.add ⟨"=", 2⟩).2⟩

/-- Adds a variable under the next free number, which is returned. -/
def addVariable (σ : Signature) (name : String) : Nat × Signature :=
  (σ.variableNames.size, { σ with variableNames := σ.variableNames.push name })

/-- Adds a function symbol, whether or not it is known already. -/
def addFunction (σ : Signature) (s : Symbol) : Nat × Signature :=
  let (id, functions) := σ.functions.add s
  (id, { σ with functions })

def addPredicate (σ : Signature) (s : Symbol) : Nat × Signature :=
  let (id, predicates) := σ.predicates.add s
  (id, { σ with predicates })

/-- The number of a function symbol, which is added if it is new. -/
def internFunction (σ : Signature) (s : Symbol) : Nat × Signature :=
  let (id, functions) := σ.functions.intern s
  (id, { σ with functions })

def internPredicate (σ : Signature) (s : Symbol) : Nat × Signature :=
  let (id, predicates) := σ.predicates.intern s
  (id, { σ with predicates })

/-- The name of a variable. -/
def variableName? (σ : Signature) (x : Nat) : Option String := σ.variableNames[x]?

/-- The function symbol with a number. -/
def functionSymbol? (σ : Signature) (f : Nat) : Option Symbol := σ.functions.get? f

/-- The predicate symbol with a number. -/
def predicateSymbol? (σ : Signature) (p : Nat) : Option Symbol := σ.predicates.get? p

/-! ## Renaming apart -/

/-- Adds a variable that is named like a given one, or by its number if the given
one is unknown. -/
def copyVariable (σ : Signature) (x : Nat) : Signature :=
  (σ.addVariable ((σ.variableName? x).getD ("X" ++ toString x))).2

/-- A copy of a clause over new variables, so that it shares none with any clause
over known variables. The distinct variables of the clause are copied in the
order of their first occurrence, and all of them are renamed at once, so a new
number may well be the old number of another variable. -/
def freshCopy (σ : Signature) (c : Clause) : Clause × Signature :=
  let fresh (x : Nat) : Nat :=
    match c.distinctVars.idxOf? x with
    | some k => σ.variableNames.size + k
    | none => x
  (c.rename fresh, c.distinctVars.foldl copyVariable σ)

end Signature

end Clausal
