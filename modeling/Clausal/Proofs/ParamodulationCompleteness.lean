/-
The enumeration of paramodulants is complete up to subsumption.

Take an equation of one clause, a position in a literal of the other, and a
substitution `θ` that makes a side of the equation equal to the subterm there. The
inference that they suggest is one between instances of the clauses. The enumeration
has a paramodulant that looks just like its conclusion, seen through `θ`, unless it has
passed over the position for one of two reasons: the equation is one between identical
terms, or the subterm is the other side already. In both cases `θ` maps the subterm and
the term put in its place alike. So the conclusion holds the target literal unchanged
and all its companions, and is subsumed by the clause of the target
(`paramodulants_cover`).

The lemmas follow the enumeration from one inference outwards. That the enumeration has
succeeded as a whole is what makes every single choice in it succeed.
-/
import Clausal.Proofs.Lifting
import Clausal.Proofs.ParamodulationSoundness

set_option autoImplicit false

namespace Clausal

/-! ## One inference -/

/-- Where a substitution makes the left side and the subterm equal and the replacement
changes something, there is a paramodulant, and the substitution does not notice the
unifier in it. -/
theorem exists_paramodulate {rest targetRest : List Literal} {equation : Term × Term}
    {target : Literal} {p : Nat} {u : Term} {θ : Nat → Term}
    (hu : target.atom.subtermAt p = .ok u) (hne : equation.2 ≠ u)
    (hθ : equation.1.subst θ = u.subst θ) :
    ∃ d, paramodulate rest equation targetRest target p = .ok d ∧
      instances θ d.literals =
        {(target.replaced p equation.2).subst θ} ∪ instances θ rest ∪ instances θ targetRest := by
  obtain ⟨w, hw, hcomp⟩ := Term.exists_unify hθ
  have hreplaced := Atom.replaceAt_of_ne hu hne.symm
  refine ⟨_, bind_eq_ok_iff.2 ⟨u, hu, bind_eq_ok_iff.2 ⟨w, hw, bind_eq_ok_iff.2
    ⟨_, hreplaced, rfl⟩⟩⟩, ?_⟩
  rw [instances_apply hcomp, Clause.ofLiterals, instances_make, instances_append, instances_cons]
  rfl

/-! ## The enumeration -/

/-- All positions and both orientations are gone through. -/
theorem exists_mem_literalParamodulants {rest targetRest : List Literal} {s t l r u : Term}
    {target : Literal} {cs : List Clause} {p : Nat} {θ : Nat → Term}
    (h : literalParamodulants rest (.pos (.equation s t)) targetRest target = .ok cs)
    (hst : s ≠ t) (hlr : (l, r) = (s, t) ∨ (l, r) = (t, s)) (hp : 1 ≤ p)
    (hlt : p < target.atom.size) (hu : target.atom.subtermAt p = .ok u) (hne : r ≠ u)
    (hθ : l.subst θ = u.subst θ) :
    ∃ d ∈ cs, instances θ d.literals =
      {(target.replaced p r).subst θ} ∪ instances θ rest ∪ instances θ targetRest := by
  have hinference : ∃ d, paramodulate rest (l, r) targetRest target p = .ok d ∧ _ :=
    exists_paramodulate hu hne hθ
  obtain ⟨d, hd, hinstances⟩ := hinference
  refine ⟨d, ?_, hinstances⟩
  -- the sides differ, so all positions and both orientations are gone through
  have h : collect (fun p => collect (fun e => productive (paramodulate rest e targetRest target p))
      [(s, t), (t, s)]) (List.range' 1 (target.atom.size - 1)) = .ok cs := by
    rw [← h]
    exact (if_neg hst).symm
  have hrange : p ∈ List.range' 1 (target.atom.size - 1) := by
    rw [List.mem_range'_1]
    omega
  have horientation : (l, r) ∈ [(s, t), (t, s)] := by
    rw [List.mem_cons, List.mem_singleton]
    exact hlr
  obtain ⟨part, hpart, hsub⟩ := exists_part_of_collect_eq_ok h hrange
  obtain ⟨part', hpart', hsub'⟩ := exists_part_of_collect_eq_ok hpart horientation
  rw [hd, productive, Except.ok.injEq] at hpart'
  exact hsub d (hsub' d (by rw [← hpart']; exact List.mem_singleton_self d))

theorem directedParamodulants_equation (rest : List Literal) (s t : Term)
    (two : Literal × List Literal) :
    directedParamodulants (.pos (.equation s t), rest) two =
      literalParamodulants rest (.pos (.equation s t)) two.2 two.1 := rfl

/-- Both directions between any two selections are gone through, and what they yield is
cited. -/
theorem Clause.exists_directed_of_paramodulants {c given : Clause} {rs : List Clause}
    (h : c.paramodulants given = .ok rs) {one two : Literal × List Literal}
    (hone : one ∈ selections c.literals) (htwo : two ∈ selections given.literals) :
    ∃ forward backward, directedParamodulants one two = .ok forward ∧
      directedParamodulants two one = .ok backward ∧
        ∀ d ∈ forward ++ backward, d.derivedBy .paramodulation [c.label?, given.label?] ∈ rs := by
  obtain ⟨part, hpart, hsub⟩ := exists_part_of_collect_eq_ok h hone
  obtain ⟨ds, hds, rfl⟩ := map_eq_ok_iff.1 hpart
  obtain ⟨es, hes, hsub'⟩ := exists_part_of_collect_eq_ok hds htwo
  rw [selectionParamodulants_eq] at hes
  obtain ⟨forward, hforward, hes⟩ := bind_eq_ok_iff.1 hes
  obtain ⟨backward, hbackward, hes⟩ := bind_eq_ok_iff.1 hes
  refine ⟨forward, backward, hforward, hbackward, fun d hd => hsub _ (List.mem_map_of_mem ?_)⟩
  rw [Except.ok.inj hes] at hd
  exact hsub' d hd

/-- In either direction, the selection of an equation in one clause and of a target in
the other has been gone through. -/
theorem exists_directed_of_paramodulants {processed : List Clause} {given c A B : Clause}
    {rs : List Clause} (h : paramodulants processed given = .ok rs) (hc : c ∈ processed)
    (hAB : (A, B) = (c, given) ∨ (A, B) = (given, c)) {one two : Literal × List Literal}
    (hone : one ∈ selections A.literals) (htwo : two ∈ selections B.literals) :
    ∃ ds, directedParamodulants one two = .ok ds ∧
      ∀ d ∈ ds, d.derivedBy .paramodulation [c.label?, given.label?] ∈ rs := by
  obtain ⟨part, hpart, hsub⟩ := exists_part_of_collect_eq_ok h hc
  rcases hAB with hAB | hAB <;> obtain ⟨rfl, rfl⟩ := Prod.mk.inj hAB
  · obtain ⟨ds, _, hds, -, hmem⟩ := Clause.exists_directed_of_paramodulants hpart hone htwo
    exact ⟨ds, hds, fun d hd => hsub _ (hmem d (List.mem_append_left _ hd))⟩
  · obtain ⟨_, ds, -, hds, hmem⟩ := Clause.exists_directed_of_paramodulants hpart htwo hone
    exact ⟨ds, hds, fun d hd => hsub _ (hmem d (List.mem_append_right _ hd))⟩

/-! ## Completeness -/

/-- An inference in which the subterm and the term put in its place have one image is
subsumed by the clause of the target. -/
theorem instances_subset_of_subst_eq {B : Clause} {j p : Nat} {target : Literal} {u r : Term}
    {θ : Nat → Term} (hj : B.literals[j]? = some target)
    (hu : target.atom.subtermAt p = .ok u) (heq : u.subst θ = r.subst θ) (rest : Set Literal) :
    instances θ B.literals ⊆
      {(target.replaced p r).subst θ} ∪ rest ∪ instances θ (B.literals.eraseIdx j) := by
  have hselection := mem_selections_of_getElem? hj
  rw [instances_congr fun l => mem_iff_of_mem_selections hselection, instances_cons,
    Literal.subst_replaced hu heq, Set.union_right_comm]
  exact Set.subset_union_left

/-- **Completeness up to subsumption.** Take a processed clause and the given clause in
either order, an equation of the first read in either direction, and a position in a
literal of the second. There is a subterm at the position; and whatever substitution maps
it and the left side alike, the conclusion between the instances is the instance of a
paramodulant listed, or it contains the instance of the second clause, and the latter is
needed only if the equation or the replacement is trivial. -/
theorem paramodulants_cover {processed : List Clause} {given c A B : Clause} {rs : List Clause}
    (h : paramodulants processed given = .ok rs) (hc : c ∈ processed)
    (hAB : (A, B) = (c, given) ∨ (A, B) = (given, c)) {i j p : Nat} {s t l r : Term}
    {target : Literal} (hi : A.literals[i]? = some (.pos (.equation s t)))
    (hj : B.literals[j]? = some target) (hlr : (l, r) = (s, t) ∨ (l, r) = (t, s)) (hp : 1 ≤ p)
    (hlt : p < target.atom.size) :
    ∃ u, target.atom.subtermAt p = .ok u ∧ ∀ θ : Nat → Term, l.subst θ = u.subst θ →
      (∃ P ∈ rs, instances θ P.literals =
          {(target.replaced p r).subst θ} ∪ instances θ (A.literals.eraseIdx i) ∪
            instances θ (B.literals.eraseIdx j)) ∨
        (s = t ∨ r = u) ∧ instances θ B.literals ⊆
          {(target.replaced p r).subst θ} ∪ instances θ (A.literals.eraseIdx i) ∪
            instances θ (B.literals.eraseIdx j) := by
  obtain ⟨u, hu⟩ := Atom.exists_subtermAt hp hlt
  refine ⟨u, hu, fun θ hθ => ?_⟩
  by_cases htrivial : s = t ∨ r = u
  · refine .inr ⟨htrivial, instances_subset_of_subst_eq hj hu ?_ _⟩
    rcases htrivial with rfl | rfl
    · -- both sides of the equation are the same term, and the subterm has its image
      have : l = r := by
        rcases hlr with hlr | hlr <;> rw [(Prod.mk.inj hlr).1, (Prod.mk.inj hlr).2]
      rw [← this, hθ]
    · rfl
  · rw [not_or] at htrivial
    obtain ⟨ds, hds, hmem⟩ := exists_directed_of_paramodulants h hc hAB
      (mem_selections_of_getElem? hi) (mem_selections_of_getElem? hj)
    rw [directedParamodulants_equation] at hds
    obtain ⟨d, hd, hinstances⟩ := exists_mem_literalParamodulants hds htrivial.1 hlr hp hlt hu
      htrivial.2 hθ
    refine .inl ⟨_, hmem d hd, ?_⟩
    rw [Clause.derivedBy, instances_make, hinstances]

/-- The given `f0(X0) = f5` used in the processed `~p1(f0(X1))`, under the substitution
that maps every variable to `f7`. -/
theorem paramodulants_cover_constant :
    ∃ rs, paramodulants [⟨[.neg ⟨1, [.app 0 [.var 1]]⟩], .named "c"⟩]
        ⟨[.pos (.equation (.app 0 [.var 0]) (.app 5 []))], .named "g"⟩ = .ok rs ∧
      ∃ P ∈ rs, instances (fun _ => .app 7 []) P.literals = {.neg ⟨1, [.app 5 []]⟩} := by
  have h : paramodulants [⟨[.neg ⟨1, [.app 0 [.var 1]]⟩], .named "c"⟩]
        ⟨[.pos (.equation (.app 0 [.var 0]) (.app 5 []))], .named "g"⟩ =
      .ok [⟨[.neg ⟨1, [.app 5 []]⟩], .derived .paramodulation [some "c", some "g"]⟩,
        ⟨[.neg ⟨1, [.app 0 [.app 5 []]]⟩], .derived .paramodulation [some "c", some "g"]⟩,
        ⟨[.neg ⟨1, [.app 0 [.app 0 [.var 0]]]⟩],
          .derived .paramodulation [some "c", some "g"]⟩] := by decide +kernel
  refine ⟨_, h, ?_⟩
  obtain ⟨u, hu, hcover⟩ := paramodulants_cover (i := 0) (j := 0) (p := 1) h
    (List.mem_singleton_self _) (.inr rfl) rfl rfl (.inl rfl) (by decide) (by decide)
  obtain rfl : .app 0 [.var 1] = u := Except.ok.inj hu
  rcases hcover (fun _ => .app 7 []) rfl with ⟨P, hP, hinstances⟩ | ⟨htrivial, -⟩
  · refine ⟨P, hP, hinstances.trans ?_⟩
    show {_} ∪ instances _ [] ∪ instances _ [] = {_}
    rw [instances_nil, Set.union_empty, Set.union_empty]
    rfl
  · exact absurd htrivial (by decide)

end Clausal
