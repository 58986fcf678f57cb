/-
Clauses: disjunctions of literals, with the name or the inference they come
from. A clause is meant as a set of literals, but it is kept as a list because
the order of its literals decides the order in which inferences are drawn and
printed. Every way of making a clause keeps the first of equal literals, and two
clauses count as equal when they have the same literals, wherever these come
from.
-/
import Clausal.Distinct
import Clausal.Rendering.Numbered
import Clausal.Substitution

set_option autoImplicit false

namespace Clausal

/-- The rules of inference. -/
inductive Rule where
  | factoring
  | paramodulation
deriving DecidableEq, Inhabited

/-- The name under which a derivation cites a rule. -/
def Rule.name : Rule → String
  | factoring => "factoring"
  | paramodulation => "paramodulation"

/-- Where a clause comes from. -/
inductive Provenance where
  /-- Nothing is known. -/
  | unnamed
  /-- It was given under a name. -/
  | named (label : String)
  /-- It was derived by a rule from clauses with these names, where a parent may
  be without a name. -/
  | derived (rule : Rule) (parents : List (Option String))
deriving DecidableEq, Inhabited

/-- A disjunction of literals with its provenance. -/
structure Clause where
  literals : List Literal
  provenance : Provenance
deriving DecidableEq, Inhabited

namespace Clause

/-! ## Making clauses -/

/-- The clause of these literals, the first of equal ones kept. -/
def make (literals : List Literal) (provenance : Provenance) : Clause :=
  ⟨literals.eraseDups, provenance⟩

/-- The clause of these literals without a name or a derivation. -/
def ofLiterals (literals : List Literal) : Clause := make literals .unnamed

/-- The name of a clause that was given under one. -/
def label? (c : Clause) : Option String :=
  match c.provenance with
  | .named label => some label
  | _ => none

/-- The rule that derived a clause. -/
def rule? (c : Clause) : Option Rule :=
  match c.provenance with
  | .derived rule _ => some rule
  | _ => none

/-- The names of the clauses that a clause was derived from. -/
def parents (c : Clause) : List (Option String) :=
  match c.provenance with
  | .derived _ parents => parents
  | _ => []

/-- The same literals, now cited as derived. -/
def derivedBy (c : Clause) (rule : Rule) (parents : List (Option String)) : Clause :=
  make c.literals (.derived rule parents)

/-! ## Looking at clauses -/

def size (c : Clause) : Nat := c.literals.length

/-- The clause has no literal, so it is false. -/
def isEmpty (c : Clause) : Bool := c.literals.isEmpty

/-- Whether there is one literal only. -/
def isUnit (c : Clause) : Bool := c.size == 1

/-- The literals except those at the given places; a place that does not exist
takes nothing away. -/
def without (c : Clause) (places : List Nat) : List Literal :=
  (c.literals.zipIdx.filter fun p => p.2 ∉ places).map Prod.fst

/-- Every variable occurrence of a clause, left to right and with repetitions. -/
def vars (c : Clause) : List Nat := c.literals.flatMap Literal.vars

/-- The distinct variables of a clause in the order of their first occurrence. -/
def distinctVars (c : Clause) : List Nat := c.vars.eraseDups

/-- Equality of clauses as sets of literals, whatever their provenance: the two
have equally many literals, and all of the first one's are among the second
one's. -/
def sameLiterals (c d : Clause) : Bool :=
  c.size == d.size && c.literals.all fun l => l ∈ d.literals

def numbered (c : Clause) : String := disjunctionText (c.literals.map Literal.numbered)

/-! ## Changing variables -/

/-- Replaces every variable by its image. Literals that become equal are merged
into the first of them, and the provenance stays. -/
def subst (θ : Nat → Term) (c : Clause) : Clause :=
  make (c.literals.map (Literal.subst θ)) c.provenance

instance : HasSubst Clause := ⟨subst⟩

/-- Renames the variables, literal by literal. A renaming that keeps the
variables of the clause apart keeps its literals apart, so nothing is merged. -/
def rename (ρ : Nat → Nat) (c : Clause) : Clause :=
  { c with literals := c.literals.map (Literal.subst fun x => .var (ρ x)) }

/-! ## No literal is repeated -/

/-- A clause that is made has no literal twice. -/
theorem nodup_make (literals : List Literal) (provenance : Provenance) :
    (make literals provenance).literals.Nodup :=
  nodup_eraseDups literals

/-- A clause that is made has the literals that are given, and no others. -/
theorem mem_make {l : Literal} {literals : List Literal} {provenance : Provenance} :
    l ∈ (make literals provenance).literals ↔ l ∈ literals :=
  List.mem_eraseDups

end Clause

end Clausal
