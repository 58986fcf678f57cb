/-
Tautologies are true. A clause that asserts of a term that it equals itself is valid in
every normal interpretation, and a clause with a literal and its complement in every
interpretation, so a clause that is trivial by its form is a consequence of nothing
(`Clause.valid_of_isTrivial`). Whoever leaves such clauses out of a list keeps all of its
models (`forall_valid_filter_iff`).

The test goes through the list of literals and looks for the complement of each among those
behind it. What it finds out is a matter of the set of literals alone
(`Clause.isTrivial_iff`).
-/
import Clausal.Proofs.ParamodulationSoundness
import Clausal.Tautology

set_option autoImplicit false

universe u

namespace Clausal

variable {D : Type u} {M : Interpretation D}

/-! ## The test -/

/-- A positive equation of a term with itself. -/
theorem Literal.isReflexivity_iff {l : Literal} :
    l.isReflexivity = true ↔ ∃ t, l = .pos (.equation t t) := by
  constructor
  · intro h
    rw [isReflexivity] at h
    split at h
    · next s t hst =>
      obtain rfl := beq_iff_eq.1 h
      exact ⟨s, equation?_eq_some hst⟩
    · exact absurd h Bool.false_ne_true
  · rintro ⟨t, rfl⟩
    exact beq_self_eq_true t

/-- Two literals with one atom and different signs. -/
theorem Literal.isComplementOf_iff {l m : Literal} :
    l.isComplementOf m = true ↔ ∃ a, l = .pos a ∧ m = .neg a ∨ l = .neg a ∧ m = .pos a := by
  constructor
  · intro h
    obtain ⟨negated, a⟩ := l
    obtain ⟨negated', b⟩ := m
    rw [isComplementOf, Bool.and_eq_true, bne_iff_ne, beq_iff_eq] at h
    obtain ⟨hsign, rfl⟩ := h
    -- the atoms are the same, so the signs have to differ
    cases negated <;> cases negated'
    · exact absurd rfl hsign
    · exact ⟨a, .inl ⟨rfl, rfl⟩⟩
    · exact ⟨a, .inr ⟨rfl, rfl⟩⟩
    · exact absurd rfl hsign
  · rintro ⟨a, ⟨rfl, rfl⟩ | ⟨rfl, rfl⟩⟩
    · exact beq_self_eq_true a
    · exact beq_self_eq_true a

theorem Literal.pos_ne_neg (a b : Atom) : Literal.pos a ≠ .neg b :=
  fun h => Bool.false_ne_true (congrArg Literal.negated h)

/-- The test only looks for complements behind a literal, but one of two complements is
behind the other. -/
theorem hasComplements_iff {ls : List Literal} :
    hasComplements ls = true ↔ ∃ a, .pos a ∈ ls ∧ .neg a ∈ ls := by
  induction ls with
  | nil => simp [hasComplements]
  | cons l ls ih =>
    rw [hasComplements, Bool.or_eq_true, List.any_eq_true, ih]
    constructor
    · rintro (⟨m, hm, hlm⟩ | ⟨a, hpos, hneg⟩)
      · obtain ⟨a, ⟨rfl, rfl⟩ | ⟨rfl, rfl⟩⟩ := Literal.isComplementOf_iff.1 hlm
        · exact ⟨a, List.mem_cons_self, List.mem_cons_of_mem _ hm⟩
        · exact ⟨a, List.mem_cons_of_mem _ hm, List.mem_cons_self⟩
      · exact ⟨a, List.mem_cons_of_mem _ hpos, List.mem_cons_of_mem _ hneg⟩
    · rintro ⟨a, hpos, hneg⟩
      -- where each of the two stands: in front, or further on
      rcases List.mem_cons.1 hpos with rfl | hpos' <;> rcases List.mem_cons.1 hneg with hl | hneg'
      · exact absurd hl.symm (Literal.pos_ne_neg a a)
      · exact .inl ⟨.neg a, hneg', Literal.isComplementOf_iff.2 ⟨a, .inl ⟨rfl, rfl⟩⟩⟩
      · exact .inl ⟨.pos a, hpos', Literal.isComplementOf_iff.2 ⟨a, .inr ⟨hl.symm, rfl⟩⟩⟩
      · exact .inr ⟨a, hpos', hneg'⟩

/-- **Trivial clauses.** A clause is trivial by its form if one of its literals says of a term
that it equals itself, or if it both asserts and denies an atom. -/
theorem Clause.isTrivial_iff {c : Clause} :
    c.isTrivial = true ↔ (∃ t, .pos (.equation t t) ∈ c.literals) ∨
      ∃ a, .pos a ∈ c.literals ∧ .neg a ∈ c.literals := by
  rw [isTrivial, Bool.or_eq_true, hasComplements_iff, List.any_eq_true]
  refine or_congr_left ?_
  simp only [Literal.isReflexivity_iff]
  constructor
  · rintro ⟨_, hl, t, rfl⟩
    exact ⟨t, hl⟩
  · rintro ⟨t, hl⟩
    exact ⟨_, hl, t, rfl⟩

/-! ## Truth -/

/-- **A tautology is valid** where equality is identity. -/
theorem Clause.valid_of_isTrivial (hM : M.IsNormal) {c : Clause} (h : c.isTrivial = true) :
    M.Valid c := by
  intro v
  rcases isTrivial_iff.1 h with ⟨t, ht⟩ | ⟨a, hpos, hneg⟩
  · exact ⟨_, ht, (Interpretation.holdsAtom_equation hM v t t).2 rfl⟩
  · by_cases ha : M.HoldsAtom v a
    · exact ⟨_, hpos, ha⟩
    · exact ⟨_, hneg, ha⟩

/-- Without its tautologies a list of clauses has the same models. -/
theorem forall_valid_filter_iff (hM : M.IsNormal) {cs : List Clause} :
    (∀ c ∈ cs.filter (!·.isTrivial), M.Valid c) ↔ ∀ c ∈ cs, M.Valid c := by
  constructor
  · intro h c hc
    by_cases htrivial : c.isTrivial = true
    · exact Clause.valid_of_isTrivial hM htrivial
    · exact h c (List.mem_filter.2 ⟨hc, by simpa using htrivial⟩)
  · intro h c hc
    exact h c (List.mem_filter.1 hc).1

end Clausal
