/-
Most general unifiers of the same propositions are variants of one another.

The order in which propositions are listed, and how often, decides which disagreement is
found first, which of two variables is bound to the other and how far a term has been
resolved when it is bound. Two runs on the same set of propositions may therefore have no
step in common. What they find is still the same up to a renaming, because each unifier is
unnoticed by the other one: `Substitution.Variants`.

From this alone the renaming is read off. A variable that the first substitution leaves as
it is becomes a variable under the second one, which leaves that variable as it is, and
which the first one takes back (`Variants.exists_partner`). So the variables left alone by
the two substitutions correspond one to one. There are finitely many variables in play, and
equally many of them are left alone on both sides, so equally many are bound, and the
correspondence extends to a permutation of all variables (`Variants.exists_perm`).
-/
import Clausal.Proofs.Lifting
import Clausal.Proofs.Renaming
import Clausal.Proofs.TriangularForm
import Mathlib.Algebra.Group.End
import Mathlib.Data.Finset.Card
import Mathlib.Logic.Equiv.Fintype

set_option autoImplicit false

namespace Clausal

namespace Substitution

/-! ## Substitutions that absorb one another -/

/-- Neither substitution notices the other when it acts after it. -/
structure Variants (σ τ : Nat → Term) : Prop where
  left : comp τ σ = τ
  right : comp σ τ = σ

section

variable {σ τ : Nat → Term}

theorem Variants.symm (h : Variants σ τ) : Variants τ σ := ⟨h.right, h.left⟩

/-- A variable that the first substitution leaves alone corresponds to one that the second
leaves alone. -/
theorem Variants.exists_partner (h : Variants σ τ) {x : Nat} (hx : σ x = .var x) :
    ∃ y, τ x = .var y ∧ τ y = .var y ∧ σ y = .var x := by
  have hback : (τ x).subst σ = .var x := (congrFun h.right x).trans hx
  -- no application is taken back to a variable
  rcases hτ : τ x with y | ⟨f, args⟩ <;> rw [hτ] at hback
  · refine ⟨y, rfl, ?_, hback⟩
    have hy : (σ y).subst τ = τ y := congrFun h.left y
    rw [show σ y = .var x from hback] at hy
    exact hy.symm.trans hτ
  · rw [Term.subst_app] at hback
    cases hback

/-- The substitution moves only variables of the set, and moves them inside it. -/
structure Within (V : Finset Nat) (σ : Nat → Term) : Prop where
  eq_var : ∀ x ∉ V, σ x = .var x
  vars_subset : ∀ x ∈ V, ∀ y ∈ (σ x).vars, y ∈ V

/-- The variables of the set that are left alone. -/
def kept (V : Finset Nat) (σ : Nat → Term) : Finset Nat := V.filter fun x => σ x = .var x

theorem mem_kept {V : Finset Nat} {x : Nat} : x ∈ kept V σ ↔ x ∈ V ∧ σ x = .var x :=
  Finset.mem_filter

/-- The partner of a variable that is left alone. -/
def partner (τ : Nat → Term) (x : Nat) : Nat := (τ x).varIndex?.getD x

/-- A variable that one substitution leaves alone is mapped by the other to a variable that this
leaves alone, and back. -/
theorem Variants.partner_spec (h : Variants σ τ) {x : Nat} (hx : σ x = .var x) :
    τ x = .var (partner τ x) ∧ τ (partner τ x) = .var (partner τ x) ∧
      σ (partner τ x) = .var x := by
  obtain ⟨y, hy, hkept, hback⟩ := h.exists_partner hx
  have hpartner : partner τ x = y := by
    rw [partner, hy]
    rfl
  rw [hpartner]
  exact ⟨hy, hkept, hback⟩

variable {V : Finset Nat}

theorem Variants.partner_mem_kept (h : Variants σ τ) (hτ : Within V τ) {x : Nat}
    (hx : x ∈ kept V σ) : partner τ x ∈ kept V τ := by
  obtain ⟨hV, hx⟩ := mem_kept.1 hx
  obtain ⟨hy, hkept, -⟩ := h.partner_spec hx
  refine mem_kept.2 ⟨hτ.vars_subset x hV _ ?_, hkept⟩
  rw [hy, Term.vars_var]
  exact List.mem_singleton_self _

/-- No two variables left alone have the same partner. -/
theorem Variants.partner_inj (h : Variants σ τ) {x y : Nat} (hx : σ x = .var x)
    (hy : σ y = .var y) (heq : partner τ x = partner τ y) : x = y := by
  have hback := (h.partner_spec hx).2.2
  rw [heq, (h.partner_spec hy).2.2] at hback
  exact (Term.var.inj hback).symm

theorem Variants.card_kept_le (h : Variants σ τ) (hτ : Within V τ) :
    (kept V σ).card ≤ (kept V τ).card :=
  Finset.card_le_card_of_injOn (partner τ) (fun _ hx => h.partner_mem_kept hτ hx)
    fun _ hx _ hy heq => h.partner_inj (mem_kept.1 hx).2 (mem_kept.1 hy).2 heq

/-- Two variants leave equally many variables alone. -/
theorem Variants.card_kept_eq (h : Variants σ τ) (hσ : Within V σ) (hτ : Within V τ) :
    (kept V σ).card = (kept V τ).card :=
  Nat.le_antisymm (h.card_kept_le hτ) (h.symm.card_kept_le hσ)

/-- **The correspondence is a permutation**, which moves no variable outside the set. -/
theorem Variants.exists_perm (h : Variants σ τ) (hτ : Within V τ) :
    ∃ ρ : Equiv.Perm Nat, (∀ x ∉ V, ρ x = x) ∧ ∀ x, σ x = .var x → τ x = .var (ρ x) := by
  -- within the finite set the correspondence extends to the variables that are moved
  obtain ⟨π, hπ⟩ := Equiv.Perm.exists_extending_pair (α := kept V σ) (β := V)
    (fun x => ⟨x, (mem_kept.1 x.2).1⟩)
    (fun x => ⟨partner τ x, (mem_kept.1 (h.partner_mem_kept hτ x.2)).1⟩)
    (fun x y heq => Subtype.ext (Subtype.mk.inj heq))
    (fun x y heq => Subtype.ext (h.partner_inj (mem_kept.1 x.2).2 (mem_kept.1 y.2).2
      (Subtype.mk.inj heq)))
  refine ⟨Equiv.Perm.ofSubtype π, fun x hx => Equiv.Perm.ofSubtype_apply_of_not_mem π hx, ?_⟩
  intro x hx
  by_cases hV : x ∈ V
  · have hvalue := hπ ⟨x, mem_kept.2 ⟨hV, hx⟩⟩
    rw [Equiv.Perm.ofSubtype_apply_of_mem π hV, hvalue]
    exact (h.partner_spec hx).1
  · rw [Equiv.Perm.ofSubtype_apply_of_not_mem π hV]
    exact hτ.eq_var x hV

end

end Substitution

/-! ## The variables a unifier binds -/

open Substitution

namespace Unifier

theorem toSubst_eq_var_of_not_mem {u : Unifier} {x : Nat}
    (h : x ∉ u.bindings.map Binding.var) : u.toSubst x = .var x := by
  induction u using push_induction with
  | empty => rfl
  | push u b ih =>
    rw [push, List.map_append, List.mem_append, not_or, List.map_singleton,
      List.mem_singleton] at h
    rw [toSubst_push, comp, ih h.1, Term.subst_var, Binding.toSubst_of_ne h.2]

/-- Bindings in triangular form move exactly the variables that they bind. -/
theorem Triangular.toSubst_eq_var_iff {u : Unifier} (h : u.Triangular) {x : Nat} :
    u.toSubst x = .var x ↔ x ∉ u.bindings.map Binding.var := by
  refine ⟨fun hx hmem => ?_, toSubst_eq_var_of_not_mem⟩
  obtain ⟨b, hb, rfl⟩ := List.mem_map.1 hmem
  refine h.not_mem_vars_toSubst hb b.var ?_
  rw [hx, Term.vars_var]
  exact List.mem_singleton_self _

/-- The bindings are made of variables of the set. -/
def Confined (V : Finset Nat) (u : Unifier) : Prop :=
  ∀ b ∈ u.bindings, b.var ∈ V ∧ ∀ x ∈ b.term.vars, x ∈ V

variable {V : Finset Nat} {u : Unifier}

theorem Confined.within (h : u.Confined V) : Within V u.toSubst where
  eq_var x hx := toSubst_eq_var_of_not_mem fun hmem => by
    obtain ⟨b, hb, rfl⟩ := List.mem_map.1 hmem
    exact hx (h b hb).1
  vars_subset x hx y hy := by
    rcases mem_vars_toSubst hy with rfl | ⟨b, hb, hy⟩
    · exact hx
    · exact (h b hb).2 y hy

/-- Every variable of the set is bound, once, or left alone. -/
theorem Triangular.size_add_card_kept (h : u.Triangular) (hV : u.Confined V) :
    u.size + (kept V u.toSubst).card = V.card := by
  have hbound : ((u.bindings.map Binding.var).toFinset).card = u.size := by
    rw [List.toFinset_card_of_nodup h.nodup_vars, List.length_map]
    rfl
  have hsubset : (u.bindings.map Binding.var).toFinset ⊆ V := by
    intro x hx
    obtain ⟨b, hb, rfl⟩ := List.mem_map.1 (List.mem_toFinset.1 hx)
    exact (hV b hb).1
  have hkept : kept V u.toSubst = V \ (u.bindings.map Binding.var).toFinset := by
    ext x
    rw [mem_kept, h.toSubst_eq_var_iff, Finset.mem_sdiff, List.mem_toFinset]
  rw [hkept, ← hbound, Nat.add_comm]
  exact Finset.card_sdiff_add_card_eq_card hsubset

end Unifier

/-! ## Unifiers of the same set -/

/-- Only the members of a list are unified. -/
theorem Unifies.congr {θ : Nat → Term} {ps qs : List Proposition} (h : ∀ p, p ∈ ps ↔ p ∈ qs)
    (hθ : Unifies θ ps) : Unifies θ qs := by
  obtain ⟨r, hr⟩ := hθ
  exact ⟨r, fun p hp => hr p ((h p).2 hp)⟩

/-- Whether unification succeeds depends on the members only. -/
theorem exists_mgu_congr {ps qs : List Proposition} (h : ∀ p, p ∈ ps ↔ p ∈ qs)
    (hps : ∃ u, mgu ps = .ok u) : ∃ v, mgu qs = .ok v := by
  obtain ⟨u, hu⟩ := hps
  obtain ⟨v, hv, -⟩ := exists_mgu_of_unifies ((unifies_of_mgu_eq_ok hu).congr h)
  exact ⟨v, hv⟩

/-- Two unifiers found for the same set do not notice each other. -/
theorem variants_of_mgu {ps qs : List Proposition} (h : ∀ p, p ∈ ps ↔ p ∈ qs) {u v : Unifier}
    (hu : mgu ps = .ok u) (hv : mgu qs = .ok v) : Variants u.toSubst v.toSubst where
  left := comp_eq_of_mgu_eq_ok hu ((unifies_of_mgu_eq_ok hv).congr fun p => (h p).symm)
  right := comp_eq_of_mgu_eq_ok hv ((unifies_of_mgu_eq_ok hu).congr h)

/-- What a successful run has found is in triangular form, and made of the variables it
was given. -/
theorem triangular_confined_of_mgu {ps : List Proposition} {u : Unifier} (h : mgu ps = .ok u) :
    u.Triangular ∧ u.Confined (ps.flatMap Proposition.vars).toFinset := by
  obtain ⟨v, helim, rfl⟩ := eliminates_of_mgu_eq_ok h
  refine ⟨helim.triangular, fun b hb => ⟨List.mem_toFinset.2 (helim.confined b hb).1, ?_⟩⟩
  exact fun x hx => List.mem_toFinset.2 ((helim.confined b hb).2 x hx)

/-- Lists with the same members have the same variables. -/
theorem toFinset_vars_congr {ps qs : List Proposition} (h : ∀ p, p ∈ ps ↔ p ∈ qs) :
    (qs.flatMap Proposition.vars).toFinset = (ps.flatMap Proposition.vars).toFinset := by
  ext x
  simp only [List.mem_toFinset, List.mem_flatMap, h]

/-- What a unifier leaves of a term is made of variables that it leaves alone. -/
theorem Unifier.Triangular.toSubst_eq_var_of_mem {u : Unifier} (h : u.Triangular) {x : Nat}
    {t : Term} (hx : x ∈ (u.apply t).vars) : u.toSubst x = .var x := by
  rw [u.apply_eq_subst] at hx
  obtain ⟨y, -, hy⟩ := List.mem_flatMap.1 ((Term.vars_subst u.toSubst t) ▸ hx)
  refine h.toSubst_eq_var_iff.2 fun hmem => ?_
  obtain ⟨b, hb, rfl⟩ := List.mem_map.1 hmem
  exact h.not_mem_vars_toSubst hb y hy

/-- **Unification does not depend on order or repetition, up to renaming.** Two lists with
the same members are unified or rejected together; the two unifiers have equally many
bindings, and a permutation of the variables, which moves only variables of the
propositions, takes what the first one makes of any term to what the second one makes of
it. -/
theorem mgu_variant {ps qs : List Proposition} (h : ∀ p, p ∈ ps ↔ p ∈ qs) :
    ((∃ u, mgu ps = .ok u) ↔ ∃ v, mgu qs = .ok v) ∧
      ∀ u v, mgu ps = .ok u → mgu qs = .ok v → u.size = v.size ∧
        ∃ ρ : Equiv.Perm Nat, (∀ x, ρ x ≠ x → x ∈ ps.flatMap Proposition.vars) ∧
          ∀ t : Term, v.apply t = (u.apply t).subst fun x => .var (ρ x) := by
  refine ⟨⟨exists_mgu_congr h, exists_mgu_congr fun p => (h p).symm⟩, fun u v hu hv => ?_⟩
  have hvariants := variants_of_mgu h hu hv
  obtain ⟨htu, hcu⟩ := triangular_confined_of_mgu hu
  obtain ⟨htv, hcv⟩ := triangular_confined_of_mgu hv
  rw [toFinset_vars_congr h] at hcv
  refine ⟨?_, ?_⟩
  · -- equally many variables are left alone, out of the same ones
    have hkept := hvariants.card_kept_eq hcu.within hcv.within
    have hsu := htu.size_add_card_kept hcu
    have hsv := htv.size_add_card_kept hcv
    omega
  · obtain ⟨ρ, hfixed, hρ⟩ := hvariants.exists_perm hcv.within
    refine ⟨ρ, fun x hx => ?_, fun t => ?_⟩
    · by_contra hmem
      exact hx (hfixed x fun hV => hmem (List.mem_toFinset.1 hV))
    · calc v.apply t = HasSubst.subst v.toSubst t := v.apply_eq_subst t
        _ = (u.apply t).subst v.toSubst := (Unifier.subst_apply_of_comp_eq hvariants.left t).symm
        _ = (u.apply t).subst fun x => .var (ρ x) :=
            Term.subst_congr fun x hx => hρ x (htu.toSubst_eq_var_of_mem hx)

/-- `X0`, `f0(X1)` and `f0(X2)`: read in the other order, with one of them twice, the run
begins with other propositions and keeps another variable. -/
theorem mgu_variant_reversed :
    mgu [.term (.var 0), .term (.app 0 [.var 1]), .term (.app 0 [.var 2])] =
      .ok ⟨[⟨0, .app 0 [.var 1]⟩, ⟨1, .var 2⟩]⟩ ∧
    mgu [.term (.app 0 [.var 2]), .term (.app 0 [.var 1]), .term (.var 0),
        .term (.app 0 [.var 2])] = .ok ⟨[⟨2, .var 1⟩, ⟨0, .app 0 [.var 1]⟩]⟩ ∧
    ∃ ρ : Equiv.Perm Nat, ∀ t : Term,
      (Unifier.mk [⟨2, .var 1⟩, ⟨0, .app 0 [.var 1]⟩]).apply t =
        ((Unifier.mk [⟨0, .app 0 [.var 1]⟩, ⟨1, .var 2⟩]).apply t).subst fun x =>
          .var (ρ x) := by
  have hu : mgu [.term (.var 0), .term (.app 0 [.var 1]), .term (.app 0 [.var 2])] =
      .ok ⟨[⟨0, .app 0 [.var 1]⟩, ⟨1, .var 2⟩]⟩ := by decide +kernel
  have hv : mgu [.term (.app 0 [.var 2]), .term (.app 0 [.var 1]), .term (.var 0),
      .term (.app 0 [.var 2])] = .ok ⟨[⟨2, .var 1⟩, ⟨0, .app 0 [.var 1]⟩]⟩ := by decide +kernel
  have hmem : ∀ p : Proposition,
      p ∈ [.term (.var 0), .term (.app 0 [.var 1]), .term (.app 0 [.var 2])] ↔
        p ∈ [.term (.app 0 [.var 2]), .term (.app 0 [.var 1]), .term (.var 0),
          .term (.app 0 [.var 2])] := by
    intro p
    simp only [List.mem_cons, List.not_mem_nil, or_false]
    tauto
  obtain ⟨-, ρ, -, hρ⟩ := (mgu_variant hmem).2 _ _ hu hv
  exact ⟨hu, hv, ρ, hρ⟩

end Clausal
