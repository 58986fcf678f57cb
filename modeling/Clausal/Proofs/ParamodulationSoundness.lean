/-
Paramodulation is sound, and its results cite the clauses they follow from.

The rule replaces a subterm before it applies the unifier, so its soundness is not
a matter of instantiating the premises. Fix a normal interpretation in which both
premises are valid and a valuation, and pull the valuation back along the unifier.
Both premises hold there as well. If a side literal of either holds, it is in the
conclusion. Otherwise the equation holds there, so its two sides have one value,
and this is the value of the subterm too, because the unifier makes the subterm and
the left side equal. Hence the subterm is replaced by a term of the same value, and
the rewritten literal holds because the old one does (`valid_of_paramodulate`). The
premises may share variables; nothing in the argument depends on it.

The rest follows the enumeration outwards: positions and orientations, the two
directions between two selected literals, the selections in two clauses, the list
of processed clauses. Soundness is preserved at each stage because each result of
an enumeration is the result of one of its choices.
-/
import Clausal.Paramodulation
import Clausal.Proofs.MostGeneralUnifier
import Clausal.Proofs.Semantics

set_option autoImplicit false

universe u

namespace Clausal

/-! ## One inference -/

/-- The three parts of an inference: the subterm, its unifier with one side of the
equation, and the atom with the other side put in its place. -/
theorem paramodulate_eq_ok {rest targetRest : List Literal} {equation : Term × Term}
    {target : Literal} {position : Nat} {c : Clause}
    (h : paramodulate rest equation targetRest target position = .ok c) :
    ∃ (s : Term) (w : Unifier) (a : Atom), target.atom.subtermAt position = .ok s ∧
      equation.1.unify s = .ok w ∧ target.atom.replaceAt position equation.2 = .ok a ∧
        c = w.apply (Clause.ofLiterals (⟨target.negated, a⟩ :: rest ++ targetRest)) := by
  obtain ⟨s, hs, h⟩ := bind_eq_ok_iff.1 h
  obtain ⟨w, hw, h⟩ := bind_eq_ok_iff.1 h
  obtain ⟨a, ha, h⟩ := bind_eq_ok_iff.1 h
  exact ⟨s, w, a, hs, hw, ha, (Except.ok.inj h).symm⟩

variable {D : Type u} {M : Interpretation D}

/-- **One inference is sound.** Its conclusion is valid if the equation or a side
literal of its clause always holds, and the target or a side literal of the
target's clause. -/
theorem valid_of_paramodulate {rest targetRest : List Literal} {equation : Term × Term}
    {target : Literal} {position : Nat} {c : Clause}
    (h : paramodulate rest equation targetRest target position = .ok c)
    (hone : ∀ v, M.eval v equation.1 = M.eval v equation.2 ∨ M.SomeHolds v rest)
    (htwo : ∀ v, M.SomeHolds v (target :: targetRest)) : M.Valid c := by
  obtain ⟨s, w, a, hs, hw, ha, rfl⟩ := paramodulate_eq_ok h
  intro v
  rw [M.someHolds_apply]
  -- from here on everything is evaluated under the valuation pulled back
  have hmem : ∀ l ∈ ⟨target.negated, a⟩ :: rest ++ targetRest,
      l ∈ (Clause.ofLiterals (⟨target.negated, a⟩ :: rest ++ targetRest)).literals :=
    fun l => Clause.mem_make.2
  rcases hone (M.pullback v w.toSubst) with hequation | hrest
  · rcases (M.someHolds_cons _).1 (htwo (M.pullback v w.toSubst)) with htarget | hrest
    · have hvalue : M.eval (M.pullback v w.toSubst) s
          = M.eval (M.pullback v w.toSubst) equation.2 := by
        rw [← hequation, ← M.eval_apply, ← M.eval_apply, Term.apply_eq_of_unify hw]
      have hreplaced := M.holdsAtom_replaceAt _ hs ha hvalue
      exact ⟨⟨target.negated, a⟩, hmem _ (by simp),
        (M.holds_congr _ hreplaced target.negated).2 htarget⟩
    · exact hrest.mono fun l hl => hmem l (by simp [hl])
  · exact hrest.mono fun l hl => hmem l (by simp [hl])

/-! ## The enumeration -/

/-- A literal that asserts an equation is one. -/
theorem Literal.equation?_eq_some {l : Literal} {s t : Term} (h : l.equation? = some (s, t)) :
    l = .pos (.equation s t) := by
  obtain ⟨negated, a⟩ := l
  rw [equation?] at h
  split at h
  · exact absurd h (by simp)
  · next hpos =>
    rw [Bool.not_eq_true] at hpos
    rw [Literal.pos, ← Atom.sides?_eq_some_iff.1 h, ← hpos]

theorem Literal.orientations_equation (s t : Term) :
    (Literal.pos (.equation s t)).orientations = [(s, t), (t, s)] := rfl

/-- A paramodulant comes from one inference, with the equation as it stands or turned
round. -/
theorem exists_of_mem_literalParamodulants {rest targetRest : List Literal}
    {equation target : Literal} {cs : List Clause}
    (h : literalParamodulants rest equation targetRest target = .ok cs) {c : Clause}
    (hc : c ∈ cs) :
    ∃ s t, equation = .pos (.equation s t) ∧ ∃ e, (e = (s, t) ∨ e = (t, s)) ∧
      ∃ position, paramodulate rest e targetRest target position = .ok c := by
  unfold literalParamodulants at h
  split at h
  · exact absurd h (by simp)
  · next s t hst =>
    obtain rfl := Literal.equation?_eq_some hst
    split at h
    · -- an equation between identical terms yields nothing
      rw [← Except.ok.inj h] at hc
      exact absurd hc (by simp)
    · obtain ⟨position, -, part, hpart, hc⟩ := (mem_iff_of_collect_eq_ok h).1 hc
      obtain ⟨e, he, part', hpart', hc⟩ := (mem_iff_of_collect_eq_ok hpart).1 hc
      rw [Literal.orientations_equation, List.mem_cons, List.mem_singleton] at he
      exact ⟨s, t, rfl, e, he, position, eq_ok_of_mem_productive hpart' hc⟩

/-- What is enumerated between two literals is valid if both clauses are. -/
theorem valid_of_mem_literalParamodulants (hM : M.IsNormal) {rest targetRest : List Literal}
    {equation target : Literal} {cs : List Clause}
    (h : literalParamodulants rest equation targetRest target = .ok cs)
    (hone : ∀ v, M.SomeHolds v (equation :: rest))
    (htwo : ∀ v, M.SomeHolds v (target :: targetRest)) {c : Clause} (hc : c ∈ cs) :
    M.Valid c := by
  obtain ⟨s, t, rfl, e, he, position, hinference⟩ := exists_of_mem_literalParamodulants h hc
  have hequal : ∀ v, M.eval v s = M.eval v t ∨ M.SomeHolds v rest := by
    intro v
    rcases (M.someHolds_cons v).1 (hone v) with hequation | hrest
    · exact .inl ((Interpretation.holdsAtom_equation hM v s t).1 hequation)
    · exact .inr hrest
  -- as it stands or turned round, the equation says the same
  rcases he with rfl | rfl
  · exact valid_of_paramodulate hinference hequal htwo
  · exact valid_of_paramodulate hinference (fun v => (hequal v).imp_left Eq.symm) htwo

/-- The paramodulants in one direction only: those that use the first selected
literal in the second. -/
def directedParamodulants (one two : Literal × List Literal) :
    Except InferenceError (List Clause) :=
  if one.1.isPositiveEquality then literalParamodulants one.2 one.1 two.2 two.1 else .ok []

/-- The two directions are one and the same enumeration with the selections
exchanged. -/
theorem selectionParamodulants_eq (one two : Literal × List Literal) :
    selectionParamodulants one two =
      directedParamodulants one two >>= fun forward =>
        directedParamodulants two one >>= fun backward => .ok (forward ++ backward) := by
  unfold selectionParamodulants directedParamodulants
  split <;> split <;> rfl

theorem valid_of_mem_directedParamodulants (hM : M.IsNormal) {one two : Literal × List Literal}
    {cs : List Clause} (h : directedParamodulants one two = .ok cs)
    (hone : ∀ v, M.SomeHolds v (one.1 :: one.2)) (htwo : ∀ v, M.SomeHolds v (two.1 :: two.2))
    {c : Clause} (hc : c ∈ cs) : M.Valid c := by
  unfold directedParamodulants at h
  split at h
  · exact valid_of_mem_literalParamodulants hM h hone htwo hc
  · rw [← Except.ok.inj h] at hc
    exact absurd hc (by simp)

/-- The same in both directions. -/
theorem valid_of_mem_selectionParamodulants (hM : M.IsNormal) {one two : Literal × List Literal}
    {cs : List Clause} (h : selectionParamodulants one two = .ok cs)
    (hone : ∀ v, M.SomeHolds v (one.1 :: one.2)) (htwo : ∀ v, M.SomeHolds v (two.1 :: two.2))
    {c : Clause} (hc : c ∈ cs) : M.Valid c := by
  rw [selectionParamodulants_eq] at h
  obtain ⟨forward, hforward, h⟩ := bind_eq_ok_iff.1 h
  obtain ⟨backward, hbackward, h⟩ := bind_eq_ok_iff.1 h
  rw [← Except.ok.inj h, List.mem_append] at hc
  rcases hc with hc | hc
  · exact valid_of_mem_directedParamodulants hM hforward hone htwo hc
  · exact valid_of_mem_directedParamodulants hM hbackward htwo hone hc

/-- A paramodulant of two clauses comes from a selection in each of them, and cites
both. -/
theorem Clause.exists_of_mem_paramodulants {c given : Clause} {rs : List Clause}
    (h : c.paramodulants given = .ok rs) {r : Clause} (hr : r ∈ rs) :
    ∃ one ∈ selections c.literals, ∃ two ∈ selections given.literals, ∃ (ds : List Clause),
      selectionParamodulants one two = .ok ds ∧
        ∃ d ∈ ds, d.derivedBy .paramodulation [c.label?, given.label?] = r := by
  obtain ⟨one, hone, part, hpart, hr⟩ := (mem_iff_of_collect_eq_ok h).1 hr
  obtain ⟨ds, hds, rfl⟩ := map_eq_ok_iff.1 hpart
  obtain ⟨d, hd, rfl⟩ := List.mem_map.1 hr
  obtain ⟨two, htwo, part, hpart, hd⟩ := (mem_iff_of_collect_eq_ok hds).1 hd
  exact ⟨one, hone, two, htwo, part, hpart, d, hd, rfl⟩

/-- A valid clause is a valid disjunction of any literal of it and the others. -/
theorem Interpretation.Valid.selection {c : Clause} (h : M.Valid c)
    {s : Literal × List Literal} (hs : s ∈ selections c.literals) (v : Nat → D) :
    M.SomeHolds v (s.1 :: s.2) :=
  (h v).mono fun _ hl => (mem_iff_of_mem_selections hs).1 hl

/-- **Paramodulation is sound** between two clauses. -/
theorem Clause.entailsEq_of_mem_paramodulants {c given : Clause} {rs : List Clause}
    (h : c.paramodulants given = .ok rs) {r : Clause} (hr : r ∈ rs) :
    EntailsEq.{u} [c, given] r := by
  intro D _ M hM hpremises
  obtain ⟨one, hone, two, htwo, ds, hds, d, hd, rfl⟩ := exists_of_mem_paramodulants h hr
  have hc : M.Valid c := hpremises c (by simp)
  have hgiven : M.Valid given := hpremises given (by simp)
  have hvalid := valid_of_mem_selectionParamodulants hM hds (hc.selection hone)
    (hgiven.selection htwo) hd
  -- recording where the clause comes from merges its literals again, and loses none
  intro v
  exact (hvalid v).mono fun l => Clause.mem_make.2

/-- **Paramodulation is sound.** Every clause in the enumeration is cited as a
paramodulant of the given clause and a processed one, and follows from these two in
the logic with equality. -/
theorem paramodulants_entailsEq {processed : List Clause} {given : Clause} {rs : List Clause}
    (h : paramodulants processed given = .ok rs) :
    ∀ r ∈ rs, r.rule? = some .paramodulation ∧
      ∃ c ∈ processed, r.parents = [c.label?, given.label?] ∧ EntailsEq.{u} [c, given] r := by
  intro r hr
  obtain ⟨c, hc, part, hpart, hr⟩ := (mem_iff_of_collect_eq_ok h).1 hr
  obtain ⟨one, -, two, -, ds, -, d, -, hd⟩ := Clause.exists_of_mem_paramodulants hpart hr
  refine ⟨by rw [← hd]; rfl, c, hc, by rw [← hd]; rfl, ?_⟩
  exact Clause.entailsEq_of_mem_paramodulants hpart hr

/-- `f0(X0) = X0` used in `p1(f0(X0))`, the two sharing their variable: once at
`f0(X0)`, and turned round at the `X0` inside. -/
theorem paramodulants_entailsEq_shared :
    paramodulants [⟨[.pos (.equation (.app 0 [.var 0]) (.var 0))], .named "c"⟩]
        ⟨[.pos ⟨1, [.app 0 [.var 0]]⟩], .named "g"⟩ =
      .ok [⟨[.pos ⟨1, [.var 0]⟩], .derived .paramodulation [some "c", some "g"]⟩,
        ⟨[.pos ⟨1, [.app 0 [.app 0 [.var 0]]]⟩], .derived .paramodulation [some "c", some "g"]⟩] ∧
    EntailsEq.{0} [⟨[.pos (.equation (.app 0 [.var 0]) (.var 0))], .named "c"⟩,
        ⟨[.pos ⟨1, [.app 0 [.var 0]]⟩], .named "g"⟩]
      ⟨[.pos ⟨1, [.var 0]⟩], .derived .paramodulation [some "c", some "g"]⟩ := by
  have h : paramodulants [⟨[.pos (.equation (.app 0 [.var 0]) (.var 0))], .named "c"⟩]
        ⟨[.pos ⟨1, [.app 0 [.var 0]]⟩], .named "g"⟩ =
      .ok [⟨[.pos ⟨1, [.var 0]⟩], .derived .paramodulation [some "c", some "g"]⟩,
        ⟨[.pos ⟨1, [.app 0 [.app 0 [.var 0]]]⟩],
          .derived .paramodulation [some "c", some "g"]⟩] := by decide +kernel
  obtain ⟨-, c, hc, -, hentails⟩ := paramodulants_entailsEq h _ List.mem_cons_self
  rw [List.mem_singleton.1 hc] at hentails
  exact ⟨h, hentails⟩

end Clausal
