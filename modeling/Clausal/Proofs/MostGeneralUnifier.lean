/-
Most general unifiers.

The three things expected of unification, for lists of propositions of any length,
terms and atoms mixed and repetitions allowed. If it succeeds, the bindings found
make all the propositions equal (`mgu_apply_eq`). They do so in the most general
way: a substitution that makes the propositions equal does not notice them, so it
acts as it does after them on every term (`subst_mgu_apply`). If it fails, there is
no substitution that makes the propositions equal, and the two propositions it
reports show why: they are what the bindings found so far have made of the first
proposition and of the first one after it that has become different, and they have
no common instance (`mgu_eq_error_iff`).

All three are read off the invariant of a run at the state in which the run ends.
The lemmas on `mgu` before them say so for substitutions that act all at once; the
inference rules build on those.
-/
import Clausal.Proofs.UnificationRun

set_option autoImplicit false

namespace Clausal

open Unification

/-! ## What a successful run has found -/

/-- A run on `ps` ends in a state of which the invariant holds, and the answer is
read off that state. -/
theorem mgu_ends (ps : List Proposition) :
    ∃ (n : Nat) (v : Unification), Steps n (start ps) v ∧ Invariant ps v ∧
      (v.step = .solved ∧ mgu ps = .ok v.unifier ∨
        ∃ l r, v.step = .conflict l r ∧ mgu ps = .error (.nonUnifiable l r)) := by
  obtain ⟨n, v, hsteps, hend⟩ := run_ends (start ps)
  exact ⟨n, v, hsteps, (invariant_start ps).steps hsteps, hend⟩

theorem exists_of_mgu_eq_ok {ps : List Proposition} {u : Unifier} (h : mgu ps = .ok u) :
    ∃ v : Unification, Invariant ps v ∧ v.step = .solved ∧ v.unifier = u := by
  obtain ⟨n, v, -, hinv, ⟨hs, hu⟩ | ⟨l, r, -, he⟩⟩ := mgu_ends ps
  · rw [hu] at h
    exact ⟨v, hinv, hs, Except.ok.inj h⟩
  · rw [he] at h
    exact absurd h (by simp)

/-- What is returned is a unifier. -/
theorem unifies_of_mgu_eq_ok {ps : List Proposition} {u : Unifier} (h : mgu ps = .ok u) :
    Unifies u.toSubst ps := by
  obtain ⟨v, hinv, hs, rfl⟩ := exists_of_mgu_eq_ok h
  exact hinv.unifies_of_solved hs

/-- And every other unifier is an instance of it, which absorbs it. -/
theorem comp_eq_of_mgu_eq_ok {ps : List Proposition} {u : Unifier} (h : mgu ps = .ok u)
    {θ : Nat → Term} (hθ : Unifies θ ps) : Substitution.comp θ u.toSubst = θ := by
  obtain ⟨v, hinv, -, rfl⟩ := exists_of_mgu_eq_ok h
  exact hinv.absorbs θ hθ

theorem Term.apply_eq_of_unify {s t : Term} {u : Unifier} (h : s.unify t = .ok u) :
    u.apply s = u.apply t := by
  have := (unifies_of_mgu_eq_ok h).subst_eq (p := .term s) (q := .term t) (by simp) (by simp)
  rw [u.apply_eq_subst, u.apply_eq_subst]
  exact Proposition.term.inj this

/-! ## Soundness -/

/-- **Soundness.** The bindings found, applied in turn, make all the propositions
one. -/
theorem mgu_apply_eq {ps : List Proposition} {u : Unifier} (h : mgu ps = .ok u) :
    ∃ r : Proposition, ∀ p ∈ ps, u.apply p = r := by
  obtain ⟨r, hr⟩ := unifies_of_mgu_eq_ok h
  refine ⟨r, fun p hp => ?_⟩
  rw [u.apply_eq_subst]
  exact hr p hp

/-- `p1(X0,X1)` twice and `p1(f0(X2),X0)`: the second binding sees the first. -/
theorem mgu_apply_eq_repeated :
    mgu [.atom ⟨1, [.var 0, .var 1]⟩, .atom ⟨1, [.app 0 [.var 2], .var 0]⟩,
        .atom ⟨1, [.var 0, .var 1]⟩] =
      .ok ⟨[⟨0, .app 0 [.var 2]⟩, ⟨1, .app 0 [.var 2]⟩]⟩ ∧
    ∃ r : Proposition, ∀ p ∈ [.atom ⟨1, [.var 0, .var 1]⟩,
        .atom ⟨1, [.app 0 [.var 2], .var 0]⟩, .atom ⟨1, [.var 0, .var 1]⟩],
      (Unifier.mk [⟨0, .app 0 [.var 2]⟩, ⟨1, .app 0 [.var 2]⟩]).apply p = r := by
  have h : mgu [.atom ⟨1, [.var 0, .var 1]⟩, .atom ⟨1, [.app 0 [.var 2], .var 0]⟩,
      .atom ⟨1, [.var 0, .var 1]⟩] =
      .ok ⟨[⟨0, .app 0 [.var 2]⟩, ⟨1, .app 0 [.var 2]⟩]⟩ := by decide +kernel
  exact ⟨h, mgu_apply_eq h⟩

/-! ## Generality -/

/-- **Generality.** A substitution that makes the propositions one acts on every
term as it does after the bindings found. -/
theorem subst_mgu_apply {ps : List Proposition} {u : Unifier} (h : mgu ps = .ok u)
    {θ : Nat → Term} (hθ : Unifies θ ps) (t : Term) : (u.apply t).subst θ = t.subst θ :=
  Unifier.subst_apply_of_comp_eq (comp_eq_of_mgu_eq_ok h hθ) t

/-- `X0` and `f0(X1)` are made equal by mapping `X1` to a constant as well; this
factors through the one binding found. -/
theorem subst_mgu_apply_constant :
    mgu [.term (.var 0), .term (.app 0 [.var 1])] = .ok ⟨[⟨0, .app 0 [.var 1]⟩]⟩ ∧
    Unifies (fun x => if x = 0 then .app 0 [.app 5 []] else .app 5 [])
      [.term (.var 0), .term (.app 0 [.var 1])] ∧
    ((Unifier.mk [⟨0, .app 0 [.var 1]⟩]).apply (Term.app 2 [.var 0, .var 1])).subst
        (fun x => if x = 0 then .app 0 [.app 5 []] else .app 5 []) =
      .app 2 [.app 0 [.app 5 []], .app 5 []] := by
  have h : mgu [.term (.var 0), .term (.app 0 [.var 1])] = .ok ⟨[⟨0, .app 0 [.var 1]⟩]⟩ := by
    decide +kernel
  have hθ : Unifies (fun x => if x = 0 then .app 0 [.app 5 []] else .app 5 [])
      [.term (.var 0), .term (.app 0 [.var 1])] :=
    unifies_of_forall_eq (by decide)
  exact ⟨h, hθ, subst_mgu_apply h hθ _⟩

/-! ## Failure -/

/-- The bindings `s` have brought out a conflict between the first of the
propositions and the first one that `s` makes different from it. -/
structure FirstConflict (ps : List Proposition) (s : Unifier) (l r : Proposition) : Prop where
  /-- The left side comes from the first proposition. -/
  left : ∃ p, ps[0]? = some p ∧ l = s.apply p
  /-- The right side comes from the least place where another one has become
  different. -/
  right : ∃ j q, ps[j]? = some q ∧ r = s.apply q ∧
    IsLeast {k : Nat | ∃ p, ps[k]? = some p ∧ s.apply p ≠ l} j
  /-- The two sides have no common instance. -/
  no_common_instance : ∀ θ, l.subst θ ≠ r.subst θ

/-- A run that ends in a conflict reports the first one. -/
theorem Unification.Invariant.firstConflict {ps : List Proposition} {v : Unification}
    (h : Invariant ps v) {l r : Proposition} (hs : v.step = .conflict l r) :
    FirstConflict ps v.unifier l r := by
  obtain ⟨⟨rest, hpending⟩, hne⟩ := step_eq_conflict hs
  rw [h.pending_eq] at hpending
  refine ⟨?_, ?_, hne⟩
  · have hhead := head?_eraseDups (ps.map v.unifier.apply)
    rw [hpending, List.head?_cons, List.head?_eq_getElem?, List.getElem?_map] at hhead
    obtain ⟨p, hp, hl⟩ := Option.map_eq_some_iff.1 hhead.symm
    exact ⟨p, hp, hl.symm⟩
  · obtain ⟨j, hj, hleast⟩ := isLeast_of_eraseDups_eq_cons_cons hpending
    rw [List.getElem?_map] at hj
    obtain ⟨q, hq, hr⟩ := Option.map_eq_some_iff.1 hj
    refine ⟨j, q, hq, hr.symm, ?_⟩
    -- the least place is the same before and after the bindings
    convert hleast using 3 with k
    simp only [List.getElem?_map, Option.map_eq_some_iff]
    constructor
    · rintro ⟨p, hp, hpl⟩
      exact ⟨_, ⟨p, hp, rfl⟩, hpl⟩
    · rintro ⟨_, ⟨p, hp, rfl⟩, hpl⟩
      exact ⟨p, hp, hpl⟩

/-- **Unification decides unifiability.** It fails exactly if no substitution makes
the propositions one, and then it reports the first conflict that the bindings made
before the failure have brought out. -/
theorem mgu_eq_error_iff (ps : List Proposition) :
    ((∃ e, mgu ps = .error e) ↔ ¬∃ θ, Unifies θ ps) ∧
      ∀ e, mgu ps = .error e → ∃ (n : Nat) (v : Unification) (l r : Proposition),
        Steps n (start ps) v ∧ v.step = .conflict l r ∧ e = .nonUnifiable l r ∧
          FirstConflict ps v.unifier l r := by
  obtain ⟨n, v, hsteps, hinv, ⟨hs, hu⟩ | ⟨l, r, hs, he⟩⟩ := mgu_ends ps
  · -- bindings have been found, and they are a unifier
    refine ⟨⟨?_, fun hnot => ?_⟩, ?_⟩
    · rintro ⟨e, he⟩
      rw [hu] at he
      exact absurd he (by simp)
    · exact absurd ⟨_, hinv.unifies_of_solved hs⟩ hnot
    · intro e he
      rw [hu] at he
      exact absurd he (by simp)
  · -- a unifier would have survived all the bindings up to the conflict
    refine ⟨⟨fun _ => ?_, fun _ => ⟨_, he⟩⟩, ?_⟩
    · rintro ⟨θ, hθ⟩
      exact hinv.not_unifies_of_conflict hs θ hθ
    · intro e he'
      rw [he] at he'
      exact ⟨n, v, l, r, hsteps, hs, (Except.error.inj he').symm, hinv.firstConflict hs⟩

/-- Of `f0(X0,X1)`, `f0(X1,X0)` and `f0(X0,f1(X0))` the first two become equal by a
binding, after which the occurs check fails for the first and the third. -/
theorem mgu_eq_error_iff_occurs :
    mgu [.term (.app 0 [.var 0, .var 1]), .term (.app 0 [.var 1, .var 0]),
        .term (.app 0 [.var 0, .app 1 [.var 0]])] =
      .error (.nonUnifiable (.term (.app 0 [.var 1, .var 1]))
        (.term (.app 0 [.var 1, .app 1 [.var 1]]))) ∧
    (¬∃ θ, Unifies θ [.term (.app 0 [.var 0, .var 1]), .term (.app 0 [.var 1, .var 0]),
      .term (.app 0 [.var 0, .app 1 [.var 0]])]) ∧
    ∃ s, FirstConflict [.term (.app 0 [.var 0, .var 1]), .term (.app 0 [.var 1, .var 0]),
        .term (.app 0 [.var 0, .app 1 [.var 0]])] s
      (.term (.app 0 [.var 1, .var 1])) (.term (.app 0 [.var 1, .app 1 [.var 1]])) := by
  have h : mgu [.term (.app 0 [.var 0, .var 1]), .term (.app 0 [.var 1, .var 0]),
      .term (.app 0 [.var 0, .app 1 [.var 0]])] =
      .error (.nonUnifiable (.term (.app 0 [.var 1, .var 1]))
        (.term (.app 0 [.var 1, .app 1 [.var 1]]))) := by decide +kernel
  obtain ⟨hiff, hreport⟩ := mgu_eq_error_iff [.term (.app 0 [.var 0, .var 1]),
    .term (.app 0 [.var 1, .var 0]), .term (.app 0 [.var 0, .app 1 [.var 0]])]
  obtain ⟨n, v, l, r, -, -, he, hfirst⟩ := hreport _ h
  obtain ⟨rfl, rfl⟩ := InferenceError.nonUnifiable.inj he
  exact ⟨h, hiff.1 ⟨_, h⟩, v.unifier, hfirst⟩

end Clausal
