/-
What comes of one paramodulation.

The rule looks the subterm up, unifies it with the left side of the equation and puts the
right side in its place, in this order, so of several reasons to fail the first one counts.
Looking up and replacing address the same node: once a subterm has been found, replacing it
cannot fail for its position, but only because it is the right side already. So a position
of no subterm is reported whatever the terms are, terms without a common instance are
reported even if nothing would have changed, and only then is a replacement refused that
changes nothing (`paramodulate_outcome`).

If none of this happens there is a conclusion. Its literals are those put together by the
rule under the whole unifier, the first of equal ones kept, although they are merged after
every single binding (`Clause.apply_make`).
-/
import Clausal.Proofs.InferenceFailures
import Clausal.Proofs.Preorder

set_option autoImplicit false

namespace Clausal

/-! ## Replacing a subterm -/

/-- Replacing a subterm by itself is refused. -/
theorem Atom.replaceAt_self {a : Atom} {p : Nat} {u : Term} (hu : a.subtermAt p = .ok u) :
    a.replaceAt p u = .error (.degenerateReplacement p) := by
  rw [replaceAt, hu]
  exact if_pos rfl

/-! ## Unifying two terms -/

/-- Terms that do not unify have no common instance. -/
theorem Term.not_exists_subst_eq_of_unify {s t : Term} {e : InferenceError}
    (h : s.unify t = .error e) : ¬∃ θ, s.subst θ = t.subst θ := by
  rintro ⟨θ, hθ⟩
  obtain ⟨w, hw, -⟩ := Term.exists_unify hθ
  rw [hw] at h
  exact nomatch h

theorem Term.exists_subst_eq_of_unify {s t : Term} {w : Unifier} (h : s.unify t = .ok w) :
    ∃ θ, s.subst θ = t.subst θ :=
  ⟨w.toSubst, Proposition.term.inj (unifies_pair.1 (unifies_of_mgu_eq_ok h))⟩

/-! ## The steps of the rule -/

section

variable {rest targetRest : List Literal} {l r u : Term} {target : Literal} {p : Nat}

/-- The first thing to fail is looking the subterm up. -/
theorem paramodulate_of_subtermAt_eq_error {e : InferenceError}
    (hu : target.atom.subtermAt p = .error e) :
    paramodulate rest (l, r) targetRest target p = .error e :=
  bind_eq_error_iff.2 (.inl hu)

/-- The second is unification. -/
theorem paramodulate_of_unify_eq_error (hu : target.atom.subtermAt p = .ok u)
    {e : InferenceError} (hw : l.unify u = .error e) :
    paramodulate rest (l, r) targetRest target p = .error e :=
  bind_eq_error_iff.2 (.inr ⟨u, hu, bind_eq_error_iff.2 (.inl hw)⟩)

/-- The third is the replacement. -/
theorem paramodulate_of_replaceAt_eq_error (hu : target.atom.subtermAt p = .ok u) {w : Unifier}
    (hw : l.unify u = .ok w) {e : InferenceError} (ha : target.atom.replaceAt p r = .error e) :
    paramodulate rest (l, r) targetRest target p = .error e :=
  bind_eq_error_iff.2 (.inr ⟨u, hu, bind_eq_error_iff.2 (.inr ⟨w, hw,
    bind_eq_error_iff.2 (.inl ha)⟩)⟩)

theorem paramodulate_of_replaceAt_eq_ok (hu : target.atom.subtermAt p = .ok u) {w : Unifier}
    (hw : l.unify u = .ok w) {a : Atom} (ha : target.atom.replaceAt p r = .ok a) :
    paramodulate rest (l, r) targetRest target p =
      .ok (Clause.ofLiterals
        ((⟨target.negated, a⟩ :: rest ++ targetRest).map w.apply)) := by
  refine bind_eq_ok_iff.2 ⟨u, hu, bind_eq_ok_iff.2 ⟨w, hw, bind_eq_ok_iff.2 ⟨a, ha, ?_⟩⟩⟩
  exact congrArg Except.ok (Clause.apply_make w _ _)

/-! ## All outcomes -/

/-- The outcomes of one paramodulation, each with the circumstances it is the outcome of. No
two of these circumstances go together, and there are no others. -/
inductive ParamodulationOutcome (rest : List Literal) (l r : Term) (targetRest : List Literal)
    (target : Literal) (p : Nat) : Except InferenceError Clause → Prop where
  | atom (position : p = 0) :
    ParamodulationOutcome rest l r targetRest target p (.error (.invalidPosition 0))
  | outside (position : target.atom.size ≤ p) :
    ParamodulationOutcome rest l r targetRest target p
      (.error (.indexOutOfRange p target.atom.size))
  | clash {u : Term} {a b : Proposition} (subterm : target.atom.subtermAt p = .ok u)
    (no_common_instance : ¬∃ θ, l.subst θ = u.subst θ) :
    ParamodulationOutcome rest l r targetRest target p (.error (.nonUnifiable a b))
  | same {u : Term} (subterm : target.atom.subtermAt p = .ok u)
    (common_instance : ∃ θ, l.subst θ = u.subst θ) (same : r = u) :
    ParamodulationOutcome rest l r targetRest target p (.error (.degenerateReplacement p))
  | concluded {u : Term} {w : Unifier} {a : Atom} (subterm : target.atom.subtermAt p = .ok u)
    (common_instance : ∃ θ, l.subst θ = u.subst θ) (changed : r ≠ u)
    (unify : l.unify u = .ok w) (replace : target.atom.replaceAt p r = .ok a) :
    ParamodulationOutcome rest l r targetRest target p
      (.ok ⟨((⟨target.negated, a⟩ :: rest ++ targetRest).map w.apply).eraseDups, .unnamed⟩)

/-- Every paramodulation has one of the outcomes, and has it in these circumstances. -/
theorem outcome_paramodulate :
    ParamodulationOutcome rest l r targetRest target p
      (paramodulate rest (l, r) targetRest target p) := by
  by_cases hzero : p = 0
  · have hu : target.atom.subtermAt p = .error (.invalidPosition 0) := by rw [hzero]; rfl
    rw [paramodulate_of_subtermAt_eq_error hu]
    exact .atom hzero
  by_cases hsize : target.atom.size ≤ p
  · rw [paramodulate_of_subtermAt_eq_error (Atom.subtermAt_of_le hsize)]
    exact .outside hsize
  -- the position is that of a term from here on
  obtain ⟨u, hu⟩ := Atom.exists_subtermAt (Nat.one_le_iff_ne_zero.2 hzero) (Nat.lt_of_not_le hsize)
  rcases hw : l.unify u with e | w
  · rw [paramodulate_of_unify_eq_error hu hw]
    obtain ⟨a, b, rfl⟩ := exists_of_mgu_eq_error hw
    exact .clash hu (Term.not_exists_subst_eq_of_unify hw)
  · have hcommon := Term.exists_subst_eq_of_unify hw
    -- unified; the last thing to fail is a replacement that changes nothing
    by_cases hsame : r = u
    · have ha : target.atom.replaceAt p r = .error (.degenerateReplacement p) := by
        rw [hsame]
        exact Atom.replaceAt_self hu
      rw [paramodulate_of_replaceAt_eq_error hu hw ha]
      exact .same hu hcommon hsame
    · have ha := Atom.replaceAt_of_ne hu (Ne.symm hsame)
      rw [paramodulate_of_replaceAt_eq_ok hu hw ha]
      exact .concluded hu hcommon hsame hw ha

/-- A position where a subterm has been found lies below the atom. -/
theorem Atom.bounds_of_subtermAt {a : Atom} {p : Nat} {u : Term} (h : a.subtermAt p = .ok u) :
    p ≠ 0 ∧ p < a.size := by
  constructor
  · rintro rfl
    exact nomatch h
  · by_contra hle
    rw [subtermAt_of_le (Nat.le_of_not_lt hle)] at h
    exact nomatch h

variable {x : Except InferenceError Clause}

/-- The position is at fault if and only if there is no subterm. -/
theorem ParamodulationOutcome.position_iff
    (h : ParamodulationOutcome rest l r targetRest target p x) :
    (x = .error (.invalidPosition 0) ↔ p = 0) ∧
      (x = .error (.indexOutOfRange p target.atom.size) ↔ target.atom.size ≤ p) := by
  have hsize : 0 < target.atom.size := by
    rw [Atom.size]
    omega
  -- where a subterm has been found, neither of the two can be
  have hbelow : ∀ u, target.atom.subtermAt p = .ok u → ¬p = 0 ∧ ¬target.atom.size ≤ p := by
    intro u hu
    exact (Atom.bounds_of_subtermAt hu).imp_right Nat.not_le.2
  cases h with
  | atom position => exact ⟨iff_of_true rfl position, iff_of_false (by simp) (by omega)⟩
  | outside position => exact ⟨iff_of_false (by simp) (by omega), iff_of_true rfl position⟩
  | clash subterm => simp [hbelow _ subterm]
  | same subterm => simp [hbelow _ subterm]
  | concluded subterm => simp [hbelow _ subterm]

/-- Where there is a subterm, the outcome depends on whether the left side has an instance in
common with it, and then on whether the right side is another term. -/
theorem ParamodulationOutcome.subterm_iff
    (h : ParamodulationOutcome rest l r targetRest target p x)
    (hu : target.atom.subtermAt p = .ok u) :
    ((∃ a b, x = .error (.nonUnifiable a b)) ↔ ¬∃ θ, l.subst θ = u.subst θ) ∧
      (x = .error (.degenerateReplacement p) ↔ (∃ θ, l.subst θ = u.subst θ) ∧ r = u) ∧
      ((∃ θ, l.subst θ = u.subst θ) → r ≠ u → ∃ w a, l.unify u = .ok w ∧
        target.atom.replaceAt p r = .ok a ∧
          x = .ok ⟨((⟨target.negated, a⟩ :: rest ++ targetRest).map w.apply).eraseDups,
            .unnamed⟩) := by
  obtain ⟨hzero, hlt⟩ := Atom.bounds_of_subtermAt hu
  -- there is one subterm at the position, so this is the one of the outcome
  have hsame : ∀ u', target.atom.subtermAt p = .ok u' → u' = u := by
    intro u' hu'
    exact Except.ok.inj (hu'.symm.trans hu)
  cases h with
  | atom position => exact absurd position hzero
  | outside position => exact absurd hlt (Nat.not_lt.2 position)
  | clash subterm no_common_instance =>
    obtain rfl := hsame _ subterm
    refine ⟨iff_of_true ⟨_, _, rfl⟩ no_common_instance, iff_of_false (by simp) ?_, ?_⟩
    · exact fun h => no_common_instance h.1
    · exact fun h => absurd h no_common_instance
  | same subterm common_instance same =>
    obtain rfl := hsame _ subterm
    refine ⟨iff_of_false (by simp) (not_not.2 common_instance), ?_, ?_⟩
    · exact iff_of_true rfl ⟨common_instance, same⟩
    · exact fun _ hne => absurd same hne
  | concluded subterm common_instance changed unify replace =>
    obtain rfl := hsame _ subterm
    refine ⟨iff_of_false (by simp) (not_not.2 common_instance), iff_of_false (by simp) ?_, ?_⟩
    · exact fun h => changed h.2
    · exact fun _ _ => ⟨_, _, unify, replace, rfl⟩

end

/-- **The outcome of one paramodulation.** It is refused at the atom itself and at positions
behind its last node. At any other position there is a subterm. If the left side of the
equation has no instance in common with it, the two do not unify; if it has, but the right
side is the subterm, nothing would change; and otherwise there is a conclusion. It has no
provenance, and its literals are the literal rewritten, those beside the equation and those
beside the target, all under the whole unifier and each kept at its first place. -/
theorem paramodulate_outcome (rest : List Literal) (l r : Term) (targetRest : List Literal)
    (target : Literal) (p : Nat) :
    (paramodulate rest (l, r) targetRest target p = .error (.invalidPosition 0) ↔ p = 0) ∧
    (paramodulate rest (l, r) targetRest target p =
        .error (.indexOutOfRange p target.atom.size) ↔ target.atom.size ≤ p) ∧
    (p ≠ 0 → p < target.atom.size → ∃ u, target.atom.subtermAt p = .ok u ∧
      ((∃ a b, paramodulate rest (l, r) targetRest target p = .error (.nonUnifiable a b)) ↔
        ¬∃ θ, l.subst θ = u.subst θ) ∧
      (paramodulate rest (l, r) targetRest target p = .error (.degenerateReplacement p) ↔
        (∃ θ, l.subst θ = u.subst θ) ∧ r = u) ∧
      ((∃ θ, l.subst θ = u.subst θ) → r ≠ u → ∃ w a, l.unify u = .ok w ∧
        target.atom.replaceAt p r = .ok a ∧
          paramodulate rest (l, r) targetRest target p =
            .ok ⟨((⟨target.negated, a⟩ :: rest ++ targetRest).map w.apply).eraseDups,
              .unnamed⟩)) := by
  have houtcome := @outcome_paramodulate rest targetRest l r target p
  obtain ⟨hatom, houtside⟩ := houtcome.position_iff
  refine ⟨hatom, houtside, fun hzero hlt => ?_⟩
  obtain ⟨u, hu⟩ := Atom.exists_subtermAt (Nat.one_le_iff_ne_zero.2 hzero) hlt
  exact ⟨u, hu, houtcome.subterm_iff hu⟩

/-- `f0(X0) = X1` used at `f0(f1)` in `p1(f0(f1),X1)`. The literals `p2(X0)` and `~p2(f1)` stand
by the equation, `p2(f1)` and `p1(X1,X1)` by the target, and the unifier makes one literal of
`p2(X0)` and `p2(f1)`, and another of `p1(X1,X1)` and the literal rewritten. -/
theorem paramodulate_outcome_merged :
    (1 ≠ 0 ∧ 1 < (Atom.mk 1 [.app 0 [.app 1 []], .var 1]).size) ∧
    paramodulate [.pos ⟨2, [.var 0]⟩, .neg ⟨2, [.app 1 []]⟩] (.app 0 [.var 0], .var 1)
        [.pos ⟨2, [.app 1 []]⟩, .pos ⟨1, [.var 1, .var 1]⟩]
        (.pos ⟨1, [.app 0 [.app 1 []], .var 1]⟩) 1 =
      .ok ⟨[.pos ⟨1, [.var 1, .var 1]⟩, .pos ⟨2, [.app 1 []]⟩, .neg ⟨2, [.app 1 []]⟩],
        .unnamed⟩ := by
  obtain ⟨-, -, h⟩ := paramodulate_outcome [.pos ⟨2, [.var 0]⟩, .neg ⟨2, [.app 1 []]⟩]
    (.app 0 [.var 0]) (.var 1) [.pos ⟨2, [.app 1 []]⟩, .pos ⟨1, [.var 1, .var 1]⟩]
    (.pos ⟨1, [.app 0 [.app 1 []], .var 1]⟩) 1
  obtain ⟨u, hu, -, -, hconcluded⟩ := h (by decide) (by decide)
  obtain rfl : .app 0 [.app 1 []] = u := Except.ok.inj hu
  obtain ⟨w, a, hw, ha, hc⟩ := hconcluded ⟨fun _ => .app 1 [], by decide +kernel⟩ (by decide)
  obtain rfl : ⟨[⟨0, .app 1 []⟩]⟩ = w :=
    Except.ok.inj ((by decide +kernel : Except.ok _ = Term.unify _ _).trans hw)
  obtain rfl : ⟨1, [.var 1, .var 1]⟩ = a := Except.ok.inj ha
  refine ⟨by decide, hc.trans ?_⟩
  decide +kernel

end Clausal
