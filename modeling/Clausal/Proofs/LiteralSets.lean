/-
Clauses as sets of literals.

Two clauses count as equal when they have equally many literals and all of the first one's
are among the second one's. By itself this is no equality, not even a symmetric relation:
it takes the literals of both clauses to be distinct, and then it says that the clauses
have the same ones (`Clause.sameLiterals_iff`).

The literals of a clause are distinct because every operation on clauses keeps them so
(`Clause.Made.nodup`). All operations but one leave out repetitions at the end. The
exception is a copy over new variables, which renames the literals one by one and counts on
the renaming being injective. It is, also where a new variable has the number of another
old one, since all variables of the clause are renamed at once.

That repetitions go after every single binding has no effect on what a unifier makes of a
clause, neither on its literals nor on their order (`Clause.apply_onePass`).
-/
import Clausal.Proofs.InferenceSteps
import Clausal.Proofs.Renaming
import Mathlib.Data.List.Perm.Subperm

set_option autoImplicit false

namespace Clausal

namespace Clause

/-! ## Equality -/

/-- If no literal is repeated, the comparison decides whether the clauses have the same
literals. -/
theorem sameLiterals_iff {c d : Clause} (hc : c.literals.Nodup) (hd : d.literals.Nodup) :
    c.sameLiterals d = true ↔ ∀ l, l ∈ c.literals ↔ l ∈ d.literals := by
  rw [sameLiterals, size, size, Bool.and_eq_true, beq_iff_eq, List.all_eq_true,
    ← List.perm_ext_iff_of_nodup hc hd]
  simp only [decide_eq_true_eq]
  constructor
  · rintro ⟨hlength, hsubset⟩
    exact (List.subperm_of_subset hc hsubset).perm_of_length_le hlength.ge
  · intro hperm
    exact ⟨hperm.length_eq, hperm.subset⟩

/-- With a literal repeated, the comparison is not even symmetric. -/
example :
    (Clause.mk [.pos ⟨1, []⟩, .pos ⟨1, []⟩] .unnamed).sameLiterals
        ⟨[.pos ⟨1, []⟩, .pos ⟨2, []⟩], .unnamed⟩ = true ∧
      (Clause.mk [.pos ⟨1, []⟩, .pos ⟨2, []⟩] .unnamed).sameLiterals
        ⟨[.pos ⟨1, []⟩, .pos ⟨1, []⟩], .unnamed⟩ = false := by
  decide

/-! ## Operations -/

/-- A binding may make literals equal, and then one of them stays. -/
theorem nodup_bind (b : Binding) (c : Clause) : (b.apply c).literals.Nodup :=
  nodup_make _ _

theorem nodup_apply (u : Unifier) {c : Clause} (hc : c.literals.Nodup) :
    (u.apply c).literals.Nodup := by
  induction u using Unifier.push_induction with
  | empty => exact hc
  | push u b ih =>
    rw [Unifier.apply_push]
    exact nodup_bind b _

/-- A copy has no literal twice if the clause has none, since its variables are renamed apart. -/
theorem nodup_freshCopy (σ : Signature) {c : Clause} (hc : c.literals.Nodup) :
    (σ.freshCopy c).1.literals.Nodup := by
  rw [σ.freshCopy_fst]
  exact nodup_map_subst_var (renumber_injective _ _) hc

/-- The clause comes about by the operations on clauses. -/
inductive Made : Clause → Prop where
  /-- From any literals, with a name, with a derivation or with neither. -/
  | make (literals : List Literal) (provenance : Provenance) : Made (make literals provenance)
  | bind {c : Clause} (made : Made c) (b : Binding) : Made (b.apply c)
  | apply {c : Clause} (made : Made c) (u : Unifier) : Made (u.apply c)
  /-- The signature may know the variables of the clause or not. -/
  | freshCopy {c : Clause} (made : Made c) (σ : Signature) : Made (σ.freshCopy c).1
  | factor {rest : List Literal} {l m : Literal} {c : Clause} (eq_ok : factor rest l m = .ok c) :
    Made c
  | paramodulate {rest targetRest : List Literal} {equation : Term × Term} {target : Literal}
    {position : Nat} {c : Clause}
    (eq_ok : paramodulate rest equation targetRest target position = .ok c) : Made c
  | factors {c f : Clause} {fs : List Clause} (made : Made c) (eq_ok : c.factors = .ok fs)
    (mem : f ∈ fs) : Made f
  | literalParamodulants {rest targetRest : List Literal} {equation target : Literal} {r : Clause}
    {rs : List Clause} (eq_ok : literalParamodulants rest equation targetRest target = .ok rs)
    (mem : r ∈ rs) : Made r
  | paramodulants {processed : List Clause} {given r : Clause} {rs : List Clause}
    (processed_made : ∀ c ∈ processed, Made c) (given_made : Made given)
    (eq_ok : Clausal.paramodulants processed given = .ok rs) (mem : r ∈ rs) : Made r

theorem nodup_of_factor {rest : List Literal} {l m : Literal} {c : Clause}
    (h : Clausal.factor rest l m = .ok c) : c.literals.Nodup := by
  obtain ⟨-, -, w, -, rfl⟩ := factor_eq_ok_iff.1 h
  exact nodup_apply w (nodup_make _ _)

theorem nodup_of_paramodulate {rest targetRest : List Literal} {equation : Term × Term}
    {target : Literal} {position : Nat} {c : Clause}
    (h : Clausal.paramodulate rest equation targetRest target position = .ok c) :
    c.literals.Nodup := by
  obtain ⟨-, w, -, -, -, -, rfl⟩ := paramodulate_eq_ok h
  exact nodup_apply w (nodup_make _ _)

/-- **No literal is repeated**, whatever operations a clause has come about by. -/
theorem Made.nodup {c : Clause} (h : c.Made) : c.literals.Nodup := by
  -- along the operations; whatever makes a clause removes repetitions at last
  induction h with
  | make literals provenance => exact nodup_make literals provenance
  | bind made b ih => exact nodup_bind b _
  | apply made u ih => exact nodup_apply u ih
  | freshCopy made σ ih => exact nodup_freshCopy σ ih
  | factor eq_ok => exact nodup_of_factor eq_ok
  | paramodulate eq_ok => exact nodup_of_paramodulate eq_ok
  | factors made eq_ok mem ih =>
    obtain ⟨w, hstep⟩ := exists_factorStep eq_ok mem
    exact hstep.nodup
  | literalParamodulants eq_ok mem =>
    obtain ⟨_, _, -, _, -, _, hr⟩ := exists_of_mem_literalParamodulants eq_ok mem
    exact nodup_of_paramodulate hr
  | paramodulants processed_made given_made eq_ok mem processed_ih given_ih =>
    obtain ⟨c, -, w, hstep⟩ := exists_paramodulationStep eq_ok mem
    exact hstep.nodup

/-! ## Equality is a congruence -/

/-- Instances of the same literals are the same literals. -/
theorem sameLiterals_bind {c d : Clause} (hc : c.literals.Nodup) (hd : d.literals.Nodup)
    (h : c.sameLiterals d = true) (b : Binding) : (b.apply c).sameLiterals (b.apply d) = true := by
  rw [sameLiterals_iff hc hd] at h
  rw [sameLiterals_iff (nodup_bind b c) (nodup_bind b d)]
  intro l
  rw [mem_literals_bind, mem_literals_bind]
  simp only [h]

/-- Equality of clauses is an equivalence. -/
theorem made_equivalence :
    Equivalence fun c d : { c : Clause // c.Made } => c.1.sameLiterals d.1 = true where
  refl c := (sameLiterals_iff c.2.nodup c.2.nodup).2 fun _ => Iff.rfl
  symm {c d} h := by
    rw [sameLiterals_iff c.2.nodup d.2.nodup] at h
    exact (sameLiterals_iff d.2.nodup c.2.nodup).2 fun l => (h l).symm
  trans {c d e} h h' := by
    rw [sameLiterals_iff c.2.nodup d.2.nodup] at h
    rw [sameLiterals_iff d.2.nodup e.2.nodup] at h'
    exact (sameLiterals_iff c.2.nodup e.2.nodup).2 fun l => (h l).trans (h' l)

/-- **Clauses are sets of literals.** Clauses that come about by the operations repeat no
literal. So the comparison of two of them says whether they have the same literals, it is
an equivalence, and what it makes equal stays equal under every binding. -/
theorem made_nodup_sameLiterals :
    (∀ c : Clause, c.Made → c.literals.Nodup) ∧
    (∀ c d : Clause, c.Made → d.Made →
      (c.sameLiterals d = true ↔ ∀ l, l ∈ c.literals ↔ l ∈ d.literals)) ∧
    (Equivalence fun c d : { c : Clause // c.Made } => c.1.sameLiterals d.1 = true) ∧
    ∀ c d : Clause, c.Made → d.Made → c.sameLiterals d = true →
      ∀ b : Binding, (b.apply c).sameLiterals (b.apply d) = true :=
  ⟨fun _ hc => hc.nodup, fun _ _ hc hd => sameLiterals_iff hc.nodup hd.nodup, made_equivalence,
    fun _ _ hc hd h => sameLiterals_bind hc.nodup hd.nodup h⟩

/-- The copy of `p1(X1,X0) | p1(X0,X1)` over a signature without variables exchanges the
two variables, so it is the same clause with the literals in the other order. -/
theorem made_nodup_sameLiterals_exchanged :
    Made (Signature.initial.freshCopy
      (ofLiterals [.pos ⟨1, [.var 1, .var 0]⟩, .pos ⟨1, [.var 0, .var 1]⟩])).1 ∧
    (Signature.initial.freshCopy
      (ofLiterals [.pos ⟨1, [.var 1, .var 0]⟩, .pos ⟨1, [.var 0, .var 1]⟩])).1.literals =
        [.pos ⟨1, [.var 0, .var 1]⟩, .pos ⟨1, [.var 1, .var 0]⟩] ∧
    (Signature.initial.freshCopy
      (ofLiterals [.pos ⟨1, [.var 1, .var 0]⟩, .pos ⟨1, [.var 0, .var 1]⟩])).1.literals.Nodup ∧
    (Signature.initial.freshCopy
      (ofLiterals [.pos ⟨1, [.var 1, .var 0]⟩, .pos ⟨1, [.var 0, .var 1]⟩])).1.sameLiterals
        (ofLiterals [.pos ⟨1, [.var 1, .var 0]⟩, .pos ⟨1, [.var 0, .var 1]⟩]) = true ∧
    ((Binding.mk 0 (.var 1)).apply (Signature.initial.freshCopy
      (ofLiterals [.pos ⟨1, [.var 1, .var 0]⟩, .pos ⟨1, [.var 0, .var 1]⟩])).1).sameLiterals
        ((Binding.mk 0 (.var 1)).apply
          (ofLiterals [.pos ⟨1, [.var 1, .var 0]⟩, .pos ⟨1, [.var 0, .var 1]⟩])) = true := by
  obtain ⟨hnodup, hsame, -, hbind⟩ := made_nodup_sameLiterals
  have hmade : Made (ofLiterals [.pos ⟨1, [.var 1, .var 0]⟩, .pos ⟨1, [.var 0, .var 1]⟩]) :=
    .make _ _
  have hcopy := hmade.freshCopy .initial
  have hliterals : (Signature.initial.freshCopy
      (ofLiterals [.pos ⟨1, [.var 1, .var 0]⟩, .pos ⟨1, [.var 0, .var 1]⟩])).1.literals =
        [.pos ⟨1, [.var 0, .var 1]⟩, .pos ⟨1, [.var 1, .var 0]⟩] := by decide +kernel
  have hequal := (hsame _ _ hcopy hmade).2 <| by
    intro l
    rw [hliterals, ofLiterals, mem_make, List.mem_pair, List.mem_pair]
    exact or_comm
  exact ⟨hcopy, hliterals, hnodup _ hcopy, hequal, hbind _ _ hcopy hmade hequal _⟩

/-! ## Unifiers in one pass -/

/-- **A unifier in one pass.** Literals merge after every binding, each at the binding that
makes them equal. The clause that results has the literals, in the same order, that are left
when all bindings are applied to each literal first and the first of equal ones is kept once
in the end. Its provenance is the old one, and making a clause of its literals anew changes
none of them. -/
theorem apply_onePass {c : Clause} (hc : c.Made) (u : Unifier) :
    (u.apply c).literals = (c.literals.map u.apply).eraseDups ∧
    (u.apply c).provenance = c.provenance ∧
    (ofLiterals (u.apply c).literals).literals = (u.apply c).literals ∧
    ∀ (rule : Rule) (parents : List (Option String)),
      ((u.apply c).derivedBy rule parents).literals = (u.apply c).literals := by
  have hmake : u.apply c = make (c.literals.map u.apply) c.provenance := by
    rw [← apply_make, make_of_nodup hc.nodup]
  have hnodup : (u.apply c).literals.Nodup := (hc.apply u).nodup
  refine ⟨congrArg Clause.literals hmake, ?_, ?_, fun rule parents => ?_⟩
  · rw [hmake]
    rfl
  · rw [ofLiterals, make_of_nodup hnodup]
  · rw [derivedBy, make_of_nodup hnodup]

/-- The first binding merges the second literal into the first, the last one the fourth into
the third. -/
theorem apply_onePass_merged :
    Made (make [.pos ⟨1, [.var 0]⟩, .pos ⟨1, [.var 1]⟩, .neg ⟨1, [.app 0 []]⟩, .neg ⟨1, [.var 2]⟩]
      (.named "c")) ∧
    ((Unifier.mk [⟨0, .var 1⟩, ⟨1, .var 2⟩, ⟨2, .app 0 []⟩]).apply
      (make [.pos ⟨1, [.var 0]⟩, .pos ⟨1, [.var 1]⟩, .neg ⟨1, [.app 0 []]⟩, .neg ⟨1, [.var 2]⟩]
        (.named "c"))).literals = [.pos ⟨1, [.app 0 []]⟩, .neg ⟨1, [.app 0 []]⟩] ∧
    ((Unifier.mk [⟨0, .var 1⟩, ⟨1, .var 2⟩, ⟨2, .app 0 []⟩]).apply
      (make [.pos ⟨1, [.var 0]⟩, .pos ⟨1, [.var 1]⟩, .neg ⟨1, [.app 0 []]⟩, .neg ⟨1, [.var 2]⟩]
        (.named "c"))).provenance = .named "c" := by
  have hmade : Made (make [.pos ⟨1, [.var 0]⟩, .pos ⟨1, [.var 1]⟩, .neg ⟨1, [.app 0 []]⟩,
      .neg ⟨1, [.var 2]⟩] (.named "c")) := .make _ _
  obtain ⟨hliterals, hprovenance, -⟩ :=
    apply_onePass hmade ⟨[⟨0, .var 1⟩, ⟨1, .var 2⟩, ⟨2, .app 0 []⟩]⟩
  exact ⟨hmade, hliterals.trans (by decide +kernel), hprovenance⟩

end Clause

end Clausal
