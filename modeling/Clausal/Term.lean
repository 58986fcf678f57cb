/-
First-order terms. Variables and function symbols are numbered, and a constant
is a function symbol without arguments. A function symbol carries no arity of
its own: two applications of one symbol to argument lists of different lengths
are simply different terms.

The argument lists nest inside the type, so each operation is a pair of
structural recursions, one on a term and one on a list of terms. Where the list
half is a `map` or a `flatMap` of the term half, the lemma that says so stands
next to the definition, and after it the list half need not be mentioned again.
-/

set_option autoImplicit false

namespace Clausal

/-- A first-order term over numbered variables and numbered function symbols. -/
inductive Term where
  | var (x : Nat)
  | app (f : Nat) (args : List Term)
deriving Inhabited

namespace Term

/-! ## Induction -/

/-- Induction on a term that offers the hypothesis for every argument of an
application. -/
@[elab_as_elim, induction_eliminator]
theorem induction {motive : Term → Prop} (var : ∀ x, motive (.var x))
    (app : ∀ f args, (∀ t ∈ args, motive t) → motive (.app f args)) (t : Term) : motive t :=
  match t with
  | .var x => var x
  | .app f args => app f args fun s _ => induction var app s
termination_by sizeOf t
decreasing_by
  have := List.sizeOf_lt_of_mem ‹s ∈ args›
  simp only [Term.app.sizeOf_spec]
  omega

/-! ## Equality -/

mutual

/-- Equality is decided along the first term, argument by argument. -/
def decEq : (s t : Term) → Decidable (s = t)
  | .var x, .var y =>
    if h : x = y then isTrue (congrArg Term.var h) else isFalse fun e => h (var.inj e)
  | .var _, .app _ _ => isFalse Term.noConfusion
  | .app _ _, .var _ => isFalse Term.noConfusion
  | .app f ss, .app g ts =>
    if h : f = g then
      match decEqList ss ts with
      | isTrue h' => isTrue (h ▸ h' ▸ rfl)
      | isFalse h' => isFalse fun e => h' (app.inj e).2
    else isFalse fun e => h (app.inj e).1

def decEqList : (ss ts : List Term) → Decidable (ss = ts)
  | [], [] => isTrue rfl
  | [], t :: ts => isFalse (List.cons_ne_nil t ts).symm
  | s :: ss, [] => isFalse (List.cons_ne_nil s ss)
  | s :: ss, t :: ts =>
    match decEq s t with
    | isFalse h => isFalse fun e => h (List.cons.inj e).1
    | isTrue h =>
      match decEqList ss ts with
      | isFalse h' => isFalse fun e => h' (List.cons.inj e).2
      | isTrue h' => isTrue (h ▸ h' ▸ rfl)

end

instance : DecidableEq Term := decEq

/-! ## Order

Variables come before applications. Two variables are ordered by number; two
applications by function symbol and then argument by argument, where a list
that runs out first is the smaller one. -/

mutual

/-- The order of terms, as it is described above. -/
def compare : Term → Term → Ordering
  | .var x, .var y => Ord.compare x y
  | .var _, .app _ _ => .lt
  | .app _ _, .var _ => .gt
  | .app f ss, .app g ts => (Ord.compare f g).then (compareList ss ts)

/-- The lexicographic order of argument lists. -/
def compareList : List Term → List Term → Ordering
  | [], [] => .eq
  | [], _ :: _ => .lt
  | _ :: _, [] => .gt
  | s :: ss, t :: ts => (compare s t).then (compareList ss ts)

end

instance : Ord Term := ⟨compare⟩

/-! ## Variables -/

mutual

/-- Every variable occurrence of a term, left to right and with repetitions. -/
def vars : Term → List Nat
  | .var x => [x]
  | .app _ args => varsList args

def varsList : List Term → List Nat
  | [] => []
  | t :: ts => t.vars ++ varsList ts

end

@[simp] theorem vars_var (x : Nat) : (var x).vars = [x] := rfl

/-- The list half is a concatenation over the terms. -/
@[simp] theorem varsList_eq (ts : List Term) : varsList ts = ts.flatMap vars := by
  induction ts with
  | nil => rfl
  | cons t ts ih => simp [varsList, ih]

/-- The variable occurrences of an application are those of its arguments, in turn. -/
@[simp] theorem vars_app (f : Nat) (args : List Term) :
    (app f args).vars = args.flatMap vars :=
  varsList_eq args

/-- Whether the term is a variable. -/
def isVar : Term → Bool
  | .var _ => true
  | .app _ _ => false

/-- The number of a variable; an application has none. -/
def varIndex? : Term → Option Nat
  | .var x => some x
  | .app _ _ => none

/-- The arguments of an application; a variable has none, not even the empty
list. -/
def args? : Term → Option (List Term)
  | .var _ => none
  | .app _ args => some args

/-- A term is ground when no variable occurs in it. -/
def isGround (t : Term) : Bool := t.vars.isEmpty

/-! ## Size -/

mutual

/-- The number of nodes of a term. -/
def size : Term → Nat
  | .var _ => 1
  | .app _ args => 1 + sizeList args

/-- The number of nodes of all terms of a list together. -/
def sizeList : List Term → Nat
  | [] => 0
  | t :: ts => t.size + sizeList ts

end

@[simp] theorem size_var (x : Nat) : (var x).size = 1 := rfl

@[simp] theorem size_app (f : Nat) (args : List Term) :
    (app f args).size = 1 + sizeList args := rfl

@[simp] theorem sizeList_nil : sizeList [] = 0 := rfl

@[simp] theorem sizeList_cons (t : Term) (ts : List Term) :
    sizeList (t :: ts) = t.size + sizeList ts := rfl

/-- Every term has a node, its root. -/
theorem size_pos (t : Term) : 0 < t.size := by
  cases t with
  | var x => exact Nat.one_pos
  | app f args => rw [size_app]; omega

end Term

end Clausal
