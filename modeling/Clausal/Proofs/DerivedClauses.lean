/-
What an inference puts into a clause. An inference builds its conclusion from numbers
alone: it looks no symbol up and counts no arguments. That its conclusion is nevertheless
over the signature of its premises is because it only puts together parts of them
(`Clause.FactorStep.over`, `Clause.ParamodulationStep.over`).

The same holds of variables, with more to say. Every variable of a conclusion occurs in a
premise, and a variable that the unifier binds occurs in no conclusion, though the bindings
are applied one after the other and the terms of the earlier ones may bring in variables
that the later ones bind. This is what the triangular form of the bindings is for
(`Clause.mem_vars_derivedBy`).
-/
import Clausal.Proofs.InferenceFailures
import Clausal.Proofs.OverSignature
import Clausal.Proofs.TriangularForm

set_option autoImplicit false

namespace Clausal

/-! ## Variables after a replacement -/

namespace Term

private theorem mem_vars_of_forall_mem {r : Term} {ts : List Term} {x : Nat}
    (ih : ∀ t ∈ ts, ∀ {i : Nat}, x ∈ (replaceNode r t i).vars → x ∈ t.vars ∨ x ∈ r.vars) {i : Nat}
    (h : x ∈ (replaceNodeList r ts i).flatMap vars) : x ∈ ts.flatMap vars ∨ x ∈ r.vars := by
  induction ts generalizing i with
  | nil => exact absurd h List.not_mem_nil
  | cons t ts ihs =>
    rw [List.forall_mem_cons] at ih
    rw [List.flatMap_cons, List.mem_append]
    rw [replaceNodeList] at h
    -- the node is in the first term, or in one of those behind it
    split at h
    · rw [List.flatMap_cons, List.mem_append] at h
      rcases h with h | h
      · exact (ih.1 h).imp_left .inl
      · exact .inl (.inr h)
    · rw [List.flatMap_cons, List.mem_append] at h
      rcases h with h | h
      · exact .inl (.inl h)
      · exact (ihs ih.2 h).imp_left .inr

/-- Replacing a node brings in no variables but those of the new term. -/
theorem mem_vars_replaceNode {r t : Term} {i x : Nat} (h : x ∈ (replaceNode r t i).vars) :
    x ∈ t.vars ∨ x ∈ r.vars := by
  induction t generalizing i with
  | var y =>
    cases i with
    | zero => exact .inr h
    | succ i => exact .inl h
  | app f args ih =>
    cases i with
    | zero => exact .inr h
    | succ i =>
      rw [replaceNode, vars_app] at h
      rw [vars_app]
      exact mem_vars_of_forall_mem ih h

end Term

namespace Atom

/-- A replacement brings no variables in but those of the new subterm. -/
theorem mem_vars_replaceAt {a b : Atom} {i x : Nat} {r : Term} (h : a.replaceAt i r = .ok b)
    (hx : x ∈ b.vars) : x ∈ a.vars ∨ x ∈ r.vars := by
  rw [replaceAt_eq_ok h] at hx
  exact Term.mem_vars_of_forall_mem (fun _ _ _ => Term.mem_vars_replaceNode) hx

theorem vars_subset_of_subtermAt {a : Atom} {i : Nat} {s : Term} (h : a.subtermAt i = .ok s) :
    s.vars ⊆ a.vars := by
  obtain ⟨t, ht, hs⟩ := Term.exists_mem_preorder_of_nodeList? (subtermAt_eq_ok h)
  exact fun x hx => List.mem_flatMap.2 ⟨t, ht, Term.vars_subset_of_mem_preorder hs hx⟩

end Atom

/-! ## Variables of conclusions -/

namespace Clause

/-- A literal of a clause has no variables but those of the clause. -/
theorem vars_subset_of_getElem? {c : Clause} {i : Nat} {l : Literal}
    (h : c.literals[i]? = some l) : l.vars ⊆ c.vars :=
  fun _ hx => List.mem_flatMap.2 ⟨l, List.mem_of_getElem? h, hx⟩

/-- **What a unifier leaves.** The variables of the conclusion occur in the literals that
are put together or in what is unified, and none of them is bound. -/
theorem mem_vars_derivedBy {ps : List Proposition} {w : Unifier} (hw : mgu ps = .ok w)
    {ls : List Literal} {rule : Rule} {parents : List (Option String)} {x : Nat}
    (hx : x ∈ ((w.apply (ofLiterals ls)).derivedBy rule parents).vars) :
    (x ∈ ls.flatMap Literal.vars ∨ x ∈ ps.flatMap Proposition.vars) ∧
      ∀ b ∈ w.bindings, b.var ≠ x := by
  obtain ⟨v, hv, rfl⟩ := eliminates_of_mgu_eq_ok hw
  obtain ⟨l, hl, hx⟩ := List.mem_flatMap.1 hx
  obtain ⟨m, hm, rfl⟩ := mem_literals_derivedBy.1 hl
  rw [v.unifier.apply_eq_subst] at hx
  -- the variable comes from the image of one in the literal as it was
  have hx : x ∈ (m.atom.subst v.unifier.toSubst).vars := hx
  rw [Atom.vars_subst] at hx
  obtain ⟨y, hy, hx⟩ := List.mem_flatMap.1 hx
  constructor
  · rcases Unifier.mem_vars_toSubst hx with rfl | ⟨b, hb, hx⟩
    · exact .inl (List.mem_flatMap.2 ⟨m, hm, hy⟩)
    · exact .inr ((hv.confined b hb).2 x hx)
  · rintro b hb rfl
    exact hv.triangular.not_mem_vars_toSubst hb y hx

/-- The variables of a factor occur in the clause, and none of them is bound. -/
theorem FactorStep.mem_vars {c f : Clause} {w : Unifier} (h : c.FactorStep w f) {x : Nat}
    (hx : x ∈ f.vars) : x ∈ c.vars ∧ ∀ b ∈ w.bindings, b.var ≠ x := by
  obtain ⟨-, left, right, -, -, unify⟩ := h
  obtain ⟨hx, hbound⟩ := mem_vars_derivedBy unify hx
  refine ⟨?_, hbound⟩
  rcases hx with hx | hx
  · obtain ⟨k, hk, hx⟩ := List.mem_flatMap.1 hx
    exact List.mem_flatMap.2 ⟨k, mem_of_mem_merged left hk, hx⟩
  · simp only [List.flatMap_cons, List.flatMap_nil, List.append_nil, List.mem_append] at hx
    exact hx.elim (vars_subset_of_getElem? left ·) (vars_subset_of_getElem? right ·)

/-- The variables of a paramodulant occur in one of the two clauses, and none of them is
bound. -/
theorem ParamodulationStep.mem_vars {c given r : Clause} {w : Unifier}
    (h : c.ParamodulationStep given w r) {x : Nat} (hx : x ∈ r.vars) :
    (x ∈ c.vars ∨ x ∈ given.vars) ∧ ∀ b ∈ w.bindings, b.var ≠ x := by
  rcases h with @⟨one, two, i, j, p, s, t, lhs, rhs, u, target, a, w, premises, equation, direction,
    target_mem, subterm, unify, replace⟩
  obtain ⟨hx, hbound⟩ := mem_vars_derivedBy unify hx
  obtain ⟨hlhs, hrhs⟩ : lhs.vars ⊆ one.vars ∧ rhs.vars ⊆ one.vars := by
    have hsides := vars_subset_of_getElem? equation
    refine forall_of_eq_or_eq_swap (Term.vars · ⊆ one.vars) direction (fun y hy => hsides ?_)
      (fun y hy => hsides ?_) <;> simp [Literal.vars, Atom.vars, Literal.pos, Atom.equation, hy]
  have htarget : target.atom.vars ⊆ two.vars := vars_subset_of_getElem? target_mem
  have hpremises : x ∈ one.vars ∨ x ∈ two.vars := by
    rcases hx with hx | hx
    · obtain ⟨k, hk, hx⟩ := List.mem_flatMap.1 hx
      rw [List.mem_append, List.mem_cons] at hk
      rcases hk with (rfl | hk) | hk
      · -- the literal that is rewritten has variables of both clauses
        exact (Atom.mem_vars_replaceAt replace hx).symm.imp (hrhs ·) (htarget ·)
      · exact .inl (List.mem_flatMap.2 ⟨k, List.mem_of_mem_eraseIdx hk, hx⟩)
      · exact .inr (List.mem_flatMap.2 ⟨k, List.mem_of_mem_eraseIdx hk, hx⟩)
    · simp only [List.flatMap_cons, List.flatMap_nil, List.append_nil, List.mem_append] at hx
      exact hx.imp (hlhs ·) fun hx => htarget (Atom.vars_subset_of_subtermAt subterm hx)
  -- which of the two clauses gives the equation does not matter any more
  obtain ⟨hone, htwo⟩ := forall_of_eq_or_eq_swap (x ∈ vars · → x ∈ c.vars ∨ x ∈ given.vars) premises
    .inl .inr
  exact ⟨hpremises.elim hone htwo, hbound⟩

end Clause

/-! ## Inferences -/

/-- **Inferences stay over the signature.** If the given clause and the processed ones are
over a signature, then so is every clause that can be drawn from them. It is the conclusion
of a step, and for every step that it is the conclusion of, its variables occur in one of
the premises of the step, and none of them is bound by its unifier. Factors can always be
drawn, and paramodulants if equality has two arguments, as in every signature that has been
built up from the initial one. -/
theorem inferences_over {σ : Signature} {processed : List Clause} {given : Clause}
    (hprocessed : ∀ c ∈ processed, c.Over σ) (hgiven : given.Over σ) :
    (∃ fs, given.factors = .ok fs ∧ ∀ f ∈ fs, f.Over σ ∧ (∃ w, given.FactorStep w f) ∧
      ∀ w, given.FactorStep w f →
        ∀ x ∈ f.vars, x ∈ given.vars ∧ ∀ b ∈ w.bindings, b.var ≠ x) ∧
    (∀ rs, paramodulants processed given = .ok rs → ∀ r ∈ rs, r.Over σ ∧
      (∃ c ∈ processed, ∃ w, c.ParamodulationStep given w r) ∧
      ∀ (c : Clause) (w : Unifier), c.ParamodulationStep given w r →
        ∀ x ∈ r.vars, (x ∈ c.vars ∨ x ∈ given.vars) ∧ ∀ b ∈ w.bindings, b.var ≠ x) ∧
    (σ.predicateSymbol? Atom.equality = some ⟨"=", 2⟩ →
      ∃ rs, paramodulants processed given = .ok rs) := by
  refine ⟨⟨_, given.factors_eq, fun f hf => ?_⟩, fun rs hrs r hr => ?_, fun hσ => ?_⟩
  · obtain ⟨w, hstep⟩ := Clause.exists_factorStep given.factors_eq hf
    exact ⟨hstep.over hgiven, ⟨w, hstep⟩, fun _ hstep x hx => hstep.mem_vars hx⟩
  · obtain ⟨c, hc, w, hstep⟩ := exists_paramodulationStep hrs hr
    exact ⟨hstep.over (hprocessed c hc) hgiven, ⟨c, hc, w, hstep⟩,
      fun _ _ hstep x hx => hstep.mem_vars hx⟩
  · exact exists_paramodulants_iff.2 fun c hc l hl m hm =>
      ⟨Literal.equatesTwo_of_length (Atom.Over.length_args hσ (hprocessed c hc l hl)),
        Literal.equatesTwo_of_length (Atom.Over.length_args hσ (hgiven m hm))⟩

/-- The factor of `p1(X0,X1) | p1(f0(X1),f0(X2))`: the first binding brings in `X1`, which
the second one binds. -/
theorem inferences_over_nested :
    ∃ (σ : Signature) (c given f : Clause) (w : Unifier) (rs : List Clause),
      c.Over σ ∧ given.Over σ ∧
      given = ⟨[.pos ⟨1, [.var 0, .var 1]⟩, .pos ⟨1, [.app 0 [.var 1], .app 0 [.var 2]]⟩],
        .named "g"⟩ ∧
      w = ⟨[⟨0, .app 0 [.var 1]⟩, ⟨1, .app 0 [.var 2]⟩]⟩ ∧
      f = ⟨[.pos ⟨1, [.app 0 [.app 0 [.var 2]], .app 0 [.var 2]]⟩],
        .derived .factoring [some "g"]⟩ ∧
      given.factors = .ok [f] ∧ given.FactorStep w f ∧ f.Over σ ∧ f.vars = [2, 2] ∧
      (∀ x ∈ f.vars, x ∈ given.vars ∧ ∀ b ∈ w.bindings, b.var ≠ x) ∧
      paramodulants [c] given = .ok rs ∧ rs ≠ [] ∧ ∀ r ∈ rs, r.Over σ := by
  let σ : Signature := ⟨#["X", "Y", "Z", "U"], ⟨#[⟨"f", 1⟩, ⟨"c", 0⟩], []⟩,
    ⟨#[⟨"=", 2⟩, ⟨"p", 2⟩], []⟩⟩
  let c : Clause := ⟨[.pos (.equation (.app 0 [.var 3]) (.app 1 []))], .named "c"⟩
  let given : Clause :=
    ⟨[.pos ⟨1, [.var 0, .var 1]⟩, .pos ⟨1, [.app 0 [.var 1], .app 0 [.var 2]]⟩], .named "g"⟩
  let f : Clause := ⟨[.pos ⟨1, [.app 0 [.app 0 [.var 2]], .app 0 [.var 2]]⟩],
    .derived .factoring [some "g"]⟩
  let w : Unifier := ⟨[⟨0, .app 0 [.var 1]⟩, ⟨1, .app 0 [.var 2]⟩]⟩
  have happ {t : Term} (ht : t.Over σ) : (Term.app 0 [t]).Over σ :=
    .app rfl (List.forall_mem_singleton.2 ht)
  have hpair {p : Nat} {name : String} {s t : Term} (hp : σ.predicateSymbol? p = some ⟨name, 2⟩)
      (hs : s.Over σ) (ht : t.Over σ) : (Literal.pos ⟨p, [s, t]⟩).Over σ :=
    ⟨⟨name, hp⟩, List.forall_mem_cons.2 ⟨hs, List.forall_mem_singleton.2 ht⟩⟩
  have hvar {x : Nat} (hx : x < 4) : (Term.var x).Over σ := .var hx
  have hc : c.Over σ := List.forall_mem_singleton.2 <| hpair rfl (happ (hvar (by decide)))
    (.app rfl (by simp))
  have hgiven : given.Over σ := List.forall_mem_cons.2
    ⟨hpair rfl (hvar (by decide)) (hvar (by decide)), List.forall_mem_singleton.2 <|
      hpair rfl (happ (hvar (by decide))) (happ (hvar (by decide)))⟩
  have hfactors : given.factors = .ok [f] := by decide +kernel
  have hunify : (Atom.mk 1 [.var 0, .var 1]).unify ⟨1, [.app 0 [.var 1], .app 0 [.var 2]]⟩ =
      .ok w := by decide +kernel
  have hconclusion : (w.apply (Clause.ofLiterals [.pos ⟨1, [.var 0, .var 1]⟩])).derivedBy
      .factoring [some "g"] = f := by decide +kernel
  have hstep : given.FactorStep w f := by
    rw [← hconclusion]
    exact .merge (i := 0) (j := 1) (by decide) rfl rfl rfl rfl hunify
  obtain ⟨⟨fs, hfs, hfactor⟩, hparamodulants, hsucceeds⟩ :=
    inferences_over (List.forall_mem_singleton.2 hc) hgiven
  obtain ⟨rs, hrs⟩ := hsucceeds rfl
  have hne : paramodulants [c] given ≠ .ok [] := by decide +kernel
  obtain rfl : fs = [f] := Except.ok.inj (hfs.symm.trans hfactors)
  obtain ⟨hover, -, hvars⟩ := hfactor f (List.mem_singleton_self f)
  refine ⟨σ, c, given, f, w, rs, hc, hgiven, rfl, rfl, rfl, hfactors, hstep, hover, rfl,
    hvars w hstep, hrs, ?_, fun r hr => (hparamodulants rs hrs r hr).1⟩
  rintro rfl
  exact hne hrs

end Clausal
