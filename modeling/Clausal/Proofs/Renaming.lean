/-
Renaming variables. A substitution only ever looks at the variables that occur
(`Term.subst_congr`), and a renaming that keeps all variables apart keeps all terms and
literals apart (`Term.subst_var_injective`), so it merges no literals of a clause.

Copying a clause over new variables and reading it from a text both number its variables
in the order of their first occurrence, after all variables known before. `renumber` is
this renaming, made injective: it sends the listed variables behind the known ones, in the
order of the list, and makes room for them by moving up whatever was there.
-/
import Clausal.Proofs.Composition
import Clausal.Signature
import Mathlib.Data.List.Nodup

set_option autoImplicit false

namespace Clausal

/-! ## Only the variables that occur matter -/

section

variable {θ η : Nat → Term}

/-- Only the images of the variables that occur matter. -/
theorem Term.subst_congr {t : Term} (h : ∀ x ∈ t.vars, θ x = η x) : t.subst θ = t.subst η := by
  induction t with
  | var x => exact h x (by simp)
  | app f args ih =>
    rw [subst_app, subst_app]
    refine congrArg _ (List.map_congr_left fun t ht => ih t ht fun x hx => h x ?_)
    rw [vars_app]
    exact List.mem_flatMap.2 ⟨t, ht, hx⟩

/-- The same for literals. -/
theorem Literal.subst_congr {l : Literal} (h : ∀ x ∈ l.vars, θ x = η x) :
    l.subst θ = l.subst η := by
  rw [Literal.subst, Literal.subst, Atom.subst, Atom.subst, Term.substList_eq, Term.substList_eq]
  refine congrArg (fun args => Literal.mk l.negated ⟨l.atom.pred, args⟩) ?_
  exact List.map_congr_left fun t ht =>
    Term.subst_congr fun x hx => h x (List.mem_flatMap.2 ⟨t, ht, hx⟩)

/-- Renamings that agree on the variables of a clause give the same clause. -/
theorem Clause.rename_congr {c : Clause} {ρ π : Nat → Nat} (h : ∀ x ∈ c.vars, ρ x = π x) :
    c.rename ρ = c.rename π := by
  have hliterals : c.literals.map (Literal.subst fun x => .var (ρ x)) =
      c.literals.map (Literal.subst fun x => .var (π x)) :=
    List.map_congr_left fun l hl => Literal.subst_congr fun x hx =>
      congrArg Term.var (h x (List.mem_flatMap.2 ⟨l, hl, hx⟩))
  rw [Clause.rename, Clause.rename, hliterals]

end

/-! ## Injective renamings -/

/-- What has been renamed injectively can be renamed back. -/
theorem subst_var_injective {α : Type} [HasSubst α] [LawfulSubst α] {ρ : Nat → Nat}
    (hρ : Function.Injective ρ) :
    Function.Injective (HasSubst.subst (α := α) fun x => .var (ρ x)) := by
  obtain ⟨π, hπ⟩ := hρ.hasLeftInverse
  refine Function.LeftInverse.injective (g := HasSubst.subst fun x => .var (π x)) fun a => ?_
  have hid : Substitution.comp (fun x => .var (π x)) (fun x => .var (ρ x)) = Term.var := by
    funext x
    exact congrArg Term.var (hπ x)
  rw [LawfulSubst.subst_subst, hid, LawfulSubst.subst_var]

/-- An injective renaming merges no literals. -/
theorem nodup_map_subst_var {ρ : Nat → Nat} (hρ : Function.Injective ρ) {ls : List Literal}
    (h : ls.Nodup) : (ls.map (Literal.subst fun x => .var (ρ x))).Nodup :=
  h.map (subst_var_injective hρ)

/-! ## Renumbering -/

/-- Sends the listed variables to the numbers from `n` on, in the order of the list, keeps
those below `n`, and moves the others up by the length of the list. -/
def renumber (n : Nat) (vs : List Nat) (x : Nat) : Nat :=
  match vs.idxOf? x with
  | some k => n + k
  | none => if x < n then x else x + vs.length

/-- A variable of the list gets a new number by its place in the list. -/
theorem renumber_of_idxOf? {n : Nat} {vs : List Nat} {x k : Nat} (h : vs.idxOf? x = some k) :
    renumber n vs x = n + k := by
  rw [renumber, h]

/-- Any other variable keeps its number, or makes room for the new ones. -/
theorem renumber_of_not_mem {n : Nat} {vs : List Nat} {x : Nat} (h : x ∉ vs) :
    renumber n vs x = if x < n then x else x + vs.length := by
  rw [renumber, List.idxOf?_eq_none_iff.2 h]

/-- A listed variable has a place in the list. -/
theorem exists_idxOf? {vs : List Nat} {x : Nat} (h : x ∈ vs) :
    ∃ (k : Nat) (hk : k < vs.length), vs.idxOf? x = some k ∧ vs[k] = x := by
  obtain ⟨k, hk⟩ := Option.isSome_iff_exists.1 (List.isSome_idxOf?.2 h)
  obtain ⟨hlt, heq, -⟩ := List.idxOf?_eq_some_iff.1 hk
  exact ⟨k, hlt, hk, heq⟩

/-- No two variables get one number. -/
theorem renumber_injective (n : Nat) (vs : List Nat) : Function.Injective (renumber n vs) := by
  intro x y hxy
  -- listed variables go between `n` and `n + vs.length`, the others do not
  by_cases hx : x ∈ vs <;> by_cases hy : y ∈ vs
  · obtain ⟨i, hi, hix, rfl⟩ := exists_idxOf? hx
    obtain ⟨j, hj, hjy, rfl⟩ := exists_idxOf? hy
    rw [renumber_of_idxOf? hix, renumber_of_idxOf? hjy] at hxy
    obtain rfl : i = j := by omega
    rfl
  · obtain ⟨i, hi, hix, -⟩ := exists_idxOf? hx
    rw [renumber_of_idxOf? hix, renumber_of_not_mem hy] at hxy
    split at hxy <;> omega
  · obtain ⟨j, hj, hjy, -⟩ := exists_idxOf? hy
    rw [renumber_of_idxOf? hjy, renumber_of_not_mem hx] at hxy
    split at hxy <;> omega
  · rw [renumber_of_not_mem hx, renumber_of_not_mem hy] at hxy
    split at hxy <;> split at hxy <;> omega

/-- Known variables stay below the listed ones. -/
theorem renumber_lt {n : Nat} {vs : List Nat} {x : Nat} (h : x < n) :
    renumber n vs x < n + vs.length := by
  by_cases hx : x ∈ vs
  · obtain ⟨k, hk, hkx, -⟩ := exists_idxOf? hx
    rw [renumber_of_idxOf? hkx]
    omega
  · rw [renumber_of_not_mem hx, if_pos h]
    omega

/-- A copy of a clause is the clause with its variables renumbered. -/
theorem Signature.freshCopy_fst (σ : Signature) (c : Clause) :
    (σ.freshCopy c).1 = c.rename (renumber σ.variableNames.size c.distinctVars) := by
  refine Clause.rename_congr fun x hx => ?_
  obtain ⟨k, -, hk, -⟩ := exists_idxOf? (List.mem_eraseDups.2 hx)
  have hk : c.distinctVars.idxOf? x = some k := hk
  rw [renumber_of_idxOf? hk]
  simp only [hk]

/-! ## First occurrences -/

theorem idxOf?_append (l m : List Nat) (x : Nat) :
    (l ++ m).idxOf? x = (l.idxOf? x).or ((m.idxOf? x).map (· + l.length)) :=
  List.findIdx?_append

/-- The place of an entry among the distinct entries of a list is settled where the entry
first occurs. -/
theorem idxOf?_eraseDups_append {l m : List Nat} {x : Nat} (h : x ∈ l) :
    (l ++ m).eraseDups.idxOf? x = l.eraseDups.idxOf? x := by
  obtain ⟨k, -, hk, -⟩ := exists_idxOf? (List.mem_eraseDups.2 h)
  rw [List.eraseDups_append, idxOf?_append, hk, Option.some_or]

end Clausal
