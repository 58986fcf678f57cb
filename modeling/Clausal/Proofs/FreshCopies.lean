/-
Copies over new variables. A copy of a clause is the clause itself with its variables
renamed: the distinct variables, in the order in which they first occur, become the next
free numbers of the signature, and the signature gains just these (`freshCopy_apart`). So a
copy shares no variable with any clause over known variables.

Nothing is assumed of the clause. It may have variables that the signature does not know,
and their numbers may be the very ones that are about to be given away. No variable is
captured even then, because all of them are renamed at once: it is only as a map on the
variables of the clause that the renaming has to be injective, and `renumber` is.

Where unknown variables do show is in the names. The name of a variable is looked up when its
turn comes, and a number given away by then is known (`variableName?_freshCopy`).
-/
import Clausal.Proofs.Renaming
import Clausal.Proofs.Signatures

set_option autoImplicit false

namespace Clausal

/-! ## The renaming -/

theorem Clause.vars_rename (ρ : Nat → Nat) (c : Clause) : (c.rename ρ).vars = c.vars.map ρ := by
  rw [vars, vars, rename, List.flatMap_map, List.map_flatMap]
  refine List.flatMap_congr fun l _ => ?_
  exact (Atom.vars_subst _ l.atom).trans List.map_eq_flatMap.symm

/-- An injective renaming renames the variables in the order of their first occurrences. -/
theorem Clause.distinctVars_rename {ρ : Nat → Nat} (hρ : Function.Injective ρ) (c : Clause) :
    (c.rename ρ).distinctVars = c.distinctVars.map ρ := by
  rw [distinctVars, vars_rename, eraseDups_map_of_injective hρ]
  rfl

/-- The listed variables are numbered through. -/
theorem map_renumber (n : Nat) {vs : List Nat} (hvs : vs.Nodup) :
    vs.map (renumber n vs) = List.range' n vs.length := by
  refine List.ext_getElem (by simp) fun k hk _ => ?_
  rw [List.length_map] at hk
  have hplace : vs.idxOf? vs[k] = some k := by
    refine List.idxOf?_eq_some_iff.2 ⟨hk, rfl, fun j hj heq => ?_⟩
    exact Nat.ne_of_lt hj ((hvs.getElem_inj_iff).1 heq)
  rw [List.getElem_map, renumber_of_idxOf? hplace, List.getElem_range', Nat.one_mul]

namespace Signature

/-! ## The variables of a copy -/

/-- The copy has as many variables, and they are the next numbers in order. -/
theorem distinctVars_freshCopy (σ : Signature) (c : Clause) :
    (σ.freshCopy c).1.distinctVars =
      List.range' σ.variableNames.size c.distinctVars.length := by
  rw [σ.freshCopy_fst, Clause.distinctVars_rename (renumber_injective _ _)]
  exact map_renumber _ (nodup_eraseDups c.vars)

/-- The variables of a copy are new. -/
theorem variableName?_eq_none_of_mem_freshCopy (σ : Signature) {c : Clause} {x : Nat}
    (hx : x ∈ (σ.freshCopy c).1.vars) : σ.variableName? x = none := by
  have hmem : x ∈ (σ.freshCopy c).1.distinctVars := List.mem_eraseDups.2 hx
  rw [distinctVars_freshCopy, List.mem_range'_1] at hmem
  exact Array.getElem?_eq_none hmem.1

/-! ## The signature of a copy -/

/-- Copying variables adds names to the signature, one for each variable. -/
theorem exists_names_foldl_copyVariable (σ : Signature) (xs : List Nat) :
    ∃ names : Array String, names.size = xs.length ∧
      xs.foldl copyVariable σ = { σ with variableNames := σ.variableNames ++ names } := by
  induction xs generalizing σ with
  | nil => exact ⟨#[], rfl, by simp⟩
  | cons x xs ih =>
    obtain ⟨names, hsize, hnames⟩ := ih (σ.copyVariable x)
    refine ⟨#[(σ.variableName? x).getD ("X" ++ toString x)] ++ names, ?_, ?_⟩
    · rw [Array.size_append, hsize, List.length_cons, Nat.add_comm]
      rfl
    · rw [List.foldl_cons, hnames, copyVariable, addVariable, ← Array.append_assoc]
      rfl

/-- Known variables keep their names. -/
theorem variableName?_foldl_copyVariable (σ : Signature) (xs : List Nat) {y : Nat}
    (hy : y < σ.variableNames.size) :
    (xs.foldl copyVariable σ).variableName? y = σ.variableName? y := by
  obtain ⟨names, -, hnames⟩ := σ.exists_names_foldl_copyVariable xs
  rw [hnames]
  exact Array.getElem?_append_left hy

theorem variableName?_copyVariable (σ : Signature) (x : Nat) :
    (σ.copyVariable x).variableName? σ.variableNames.size =
      some ((σ.variableName? x).getD ("X" ++ toString x)) :=
  Array.getElem?_push_size

/-- **Names of copies.** A new variable is named like the one it stands for, if that one's
number is below its own, and by that number otherwise. So a variable that was unknown before
the copy takes part in the first case when its number is given away earlier in the same
copy. -/
theorem variableName?_freshCopy (σ : Signature) (c : Clause) {k x : Nat}
    (hx : c.distinctVars[k]? = some x) :
    (σ.freshCopy c).2.variableName? (σ.variableNames.size + k) =
      if x < σ.variableNames.size + k then (σ.freshCopy c).2.variableName? x
      else some ("X" ++ toString x) := by
  show (c.distinctVars.foldl copyVariable σ).variableName? _ =
    if _ then (c.distinctVars.foldl copyVariable σ).variableName? _ else _
  generalize c.distinctVars = xs at hx
  -- along the variables that are copied, each into the signature with the ones before it
  induction xs generalizing σ k with
  | nil => simp at hx
  | cons y ys ih =>
    have hsize : (σ.copyVariable y).variableNames.size = σ.variableNames.size + 1 :=
      Array.size_push _
    rcases k with _ | k
    · -- the first variable is looked up in the signature as it was
      obtain rfl : y = x := by simpa using hx
      have hnew : ((y :: ys).foldl copyVariable σ).variableName? σ.variableNames.size =
          some ((σ.variableName? y).getD ("X" ++ toString y)) := by
        rw [List.foldl_cons, variableName?_foldl_copyVariable _ _ (by omega),
          variableName?_copyVariable]
      rw [Nat.add_zero, hnew]
      by_cases hy : y < σ.variableNames.size
      · have hname : σ.variableName? y = some σ.variableNames[y] := Array.getElem?_eq_getElem hy
        rw [if_pos hy, variableName?_foldl_copyVariable _ _ hy, hname, Option.getD_some]
      · have hname : σ.variableName? y = none := Array.getElem?_eq_none (Nat.le_of_not_lt hy)
        rw [if_neg hy, hname, Option.getD_none]
    · have hlater := ih (σ.copyVariable y) (by simpa using hx)
      have hnumber : σ.variableNames.size + 1 + k = σ.variableNames.size + (k + 1) := by omega
      rwa [hsize, hnumber] at hlater

/-! ## Copies -/

/-- **Renaming apart.** A copy of a clause keeps its provenance and is the clause under an
injective renaming, which merges no literals and keeps their order. The distinct variables of
the clause, in the order of their first occurrence, become the numbers from the first free
one on, and these are what the signature gains, and all that it gains. So no variable of the
copy is a variable of any clause, the copied one or another, whose variables were known
before. -/
theorem freshCopy_apart (σ : Signature) (c : Clause) :
    (σ.freshCopy c).1.provenance = c.provenance ∧
    (∃ ρ : Nat → Nat, Function.Injective ρ ∧
      (σ.freshCopy c).1.literals = c.literals.map (Literal.subst fun x => .var (ρ x)) ∧
      (σ.freshCopy c).1.distinctVars = c.distinctVars.map ρ) ∧
    (σ.freshCopy c).1.distinctVars =
      List.range' σ.variableNames.size c.distinctVars.length ∧
    (∃ names : Array String, names.size = c.distinctVars.length ∧
      (σ.freshCopy c).2 = { σ with variableNames := σ.variableNames ++ names }) ∧
    ∀ d : Clause, (∀ x ∈ d.vars, (σ.variableName? x).isSome = true) →
      ∀ x ∈ d.vars, x ∉ (σ.freshCopy c).1.vars := by
  have hcopy := σ.freshCopy_fst c
  have hinjective := renumber_injective σ.variableNames.size c.distinctVars
  refine ⟨by rw [hcopy]; rfl,
    ⟨renumber σ.variableNames.size c.distinctVars, hinjective, congrArg Clause.literals hcopy, ?_⟩,
    σ.distinctVars_freshCopy c, σ.exists_names_foldl_copyVariable _, fun d hd x hx hmem => ?_⟩
  · rw [hcopy, Clause.distinctVars_rename hinjective]
  · have hknown := hd x hx
    rw [σ.variableName?_eq_none_of_mem_freshCopy hmem] at hknown
    exact Bool.false_ne_true hknown

/-- A signature with one variable, and a clause of variables that it does not know. Their
numbers move on in a circle, so renaming one variable after the other would make all of them
equal. -/
theorem freshCopy_apart_overlapping :
    ((Signature.initial.addVariable "X").2.freshCopy
        ⟨[.pos ⟨1, [.var 3, .var 1]⟩, .neg ⟨1, [.var 2, .var 3]⟩], .named "c"⟩).1 =
      ⟨[.pos ⟨1, [.var 1, .var 2]⟩, .neg ⟨1, [.var 3, .var 1]⟩], .named "c"⟩ ∧
    (∀ x ∈ Clause.vars ⟨[.pos ⟨1, [.var 0]⟩], .unnamed⟩,
      ((Signature.initial.addVariable "X").2.variableName? x).isSome = true) ∧
    ∀ x ∈ Clause.vars ⟨[.pos ⟨1, [.var 0]⟩], .unnamed⟩,
      x ∉ ((Signature.initial.addVariable "X").2.freshCopy
        ⟨[.pos ⟨1, [.var 3, .var 1]⟩, .neg ⟨1, [.var 2, .var 3]⟩], .named "c"⟩).1.vars := by
  have hknown : ∀ x ∈ Clause.vars ⟨[.pos ⟨1, [.var 0]⟩], .unnamed⟩,
      ((Signature.initial.addVariable "X").2.variableName? x).isSome = true := by decide
  obtain ⟨-, -, -, -, hdisjoint⟩ := freshCopy_apart (Signature.initial.addVariable "X").2
    ⟨[.pos ⟨1, [.var 3, .var 1]⟩, .neg ⟨1, [.var 2, .var 3]⟩], .named "c"⟩
  exact ⟨by decide +kernel, hknown, hdisjoint _ hknown⟩

end Signature

end Clausal
