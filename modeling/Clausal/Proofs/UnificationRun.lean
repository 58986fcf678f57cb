/-
Runs of unification, step by step.

A run is a chain of steps that ends where the step function answers `solved` or
`conflict`; `Steps n u v` says that `n` steps lead from `u` to `v`, and `run_ends`
that the function `Unification.run` reports the end of such a chain and nothing
else. What a single step can do is said once, in `step_cases`; no later proof opens
the step function.

The invariant of a run on the propositions `ps` has two parts, and between them
they hold all that is ever used about a run:

* the propositions still pending are `ps` under the bindings found so far, first
  occurrences only and in the order of `ps`;
* no unifier of `ps` notices the bindings found so far.

The first part is preserved because repetitions removed on the way are removed in
the end anyway. The second is preserved because a binding is read off the first
two pending propositions, which every unifier of `ps` maps alike.
-/
import Clausal.Proofs.Composition
import Clausal.Proofs.Disagreement
import Clausal.Proofs.FirstOccurrences

set_option autoImplicit false

namespace Clausal

/-- A substitution maps all the propositions to one. -/
def Unifies (θ : Nat → Term) (ps : List Proposition) : Prop :=
  ∃ r, ∀ p ∈ ps, p.subst θ = r

theorem Unifies.subst_eq {θ : Nat → Term} {ps : List Proposition} (h : Unifies θ ps)
    {p q : Proposition} (hp : p ∈ ps) (hq : q ∈ ps) : p.subst θ = q.subst θ := by
  obtain ⟨r, hr⟩ := h
  rw [hr p hp, hr q hq]

theorem unifies_of_forall_eq {θ : Nat → Term} {ps : List Proposition}
    (h : ∀ p ∈ ps, ∀ q ∈ ps, p.subst θ = q.subst θ) : Unifies θ ps := by
  rcases ps with _ | ⟨p, ps⟩
  · exact ⟨default, fun p hp => absurd hp (by simp)⟩
  · exact ⟨p.subst θ, fun q hq => h q hq p List.mem_cons_self⟩

namespace Unification

/-! ## What a step can do -/

/-- **What a step does.** With two propositions pending it is decided by their first
disagreement; otherwise the run is over. -/
theorem step_cases (u : Unification) :
    u.step = .solved ∧ (∀ p ∈ u.pending, ∀ q ∈ u.pending, p = q) ∨
      ∃ p q rest, u.pending = p :: q :: rest ∧
        (p.disagreement? q = none ∧ u.step = .continue ⟨p :: rest, u.unifier⟩ ∨
          ∃ d, p.disagreement? q = some d ∧
            (d.binding? = none ∧ u.step = .conflict p q ∨
              ∃ b, d.binding? = some b ∧ u.step = .continue (u.bind b))) := by
  obtain ⟨_ | ⟨p, _ | ⟨q, rest⟩⟩, unifier⟩ := u
  · exact .inl ⟨rfl, by simp⟩
  · exact .inl ⟨rfl, by simp⟩
  · refine .inr ⟨p, q, rest, rfl, ?_⟩
    rcases hd : p.disagreement? q with _ | d
    · exact .inl ⟨rfl, by simp only [step, hd]⟩
    · refine .inr ⟨d, rfl, ?_⟩
      rcases hb : d.binding? with _ | b
      · exact .inl ⟨rfl, by simp only [step, hd, hb]⟩
      · exact .inr ⟨b, rfl, by simp only [step, hd, hb]⟩

/-- What is pending in a run that is solved is one and the same proposition. -/
theorem eq_of_step_eq_solved {u : Unification} (h : u.step = .solved) :
    ∀ p ∈ u.pending, ∀ q ∈ u.pending, p = q := by
  rcases step_cases u with ⟨-, heq⟩ | ⟨p, q, rest, -, ⟨-, hs⟩ | ⟨d, -, ⟨-, hs⟩ | ⟨b, -, hs⟩⟩⟩
  · exact heq
  all_goals
    rw [h] at hs
    exact absurd hs (by simp)

/-- The propositions in conflict are the first two, and no substitution makes them
equal. -/
theorem step_eq_conflict {u : Unification} {l r : Proposition} (h : u.step = .conflict l r) :
    (∃ rest, u.pending = l :: r :: rest) ∧ ∀ θ, l.subst θ ≠ r.subst θ := by
  rcases step_cases u with
    ⟨hs, -⟩ | ⟨p, q, rest, hpending, ⟨-, hs⟩ | ⟨d, hd, ⟨hb, hs⟩ | ⟨b, -, hs⟩⟩⟩ <;> rw [h] at hs
  · exact absurd hs (by simp)
  · exact absurd hs (by simp)
  · -- no binding could be read off, so nothing removes the disagreement
    obtain ⟨rfl, rfl⟩ := Outcome.conflict.inj hs
    obtain ⟨hgenuine, hsolved⟩ := Proposition.disagreement?_spec hd
    refine ⟨⟨rest, hpending⟩, ?_⟩
    intro θ hθ
    exact Disagreement.not_solvedBy_of_binding?_eq_none hgenuine hb θ (hsolved θ hθ)
  · exact absurd hs (by simp)

/-- A run goes on by dropping the second of two equal propositions, or by a binding
that is forced on all substitutions that make the first two equal. -/
theorem step_eq_continue {u v : Unification} (h : u.step = .continue v) :
    ∃ p q rest, u.pending = p :: q :: rest ∧
      (p = q ∧ v = ⟨p :: rest, u.unifier⟩ ∨
        ∃ b : Binding, v = u.bind b ∧
          ∀ θ, p.subst θ = q.subst θ → θ b.var = b.term.subst θ) := by
  rcases step_cases u with
    ⟨hs, -⟩ | ⟨p, q, rest, hpending, ⟨hd, hs⟩ | ⟨d, hd, ⟨-, hs⟩ | ⟨b, hb, hs⟩⟩⟩ <;> rw [h] at hs
  · exact absurd hs (by simp)
  · have hpq := Proposition.eq_of_disagreement?_eq_none hd
    exact ⟨p, q, rest, hpending, .inl ⟨hpq, Outcome.continue.inj hs⟩⟩
  · exact absurd hs (by simp)
  · refine ⟨p, q, rest, hpending, .inr ⟨b, Outcome.continue.inj hs, ?_⟩⟩
    intro θ hθ
    obtain ⟨-, hsolved⟩ := Proposition.disagreement?_spec hd
    exact Disagreement.eq_of_binding? hb (hsolved θ hθ)

/-! ## Chains of steps -/

/-- A number of steps lead from one state to another. -/
inductive Steps : Nat → Unification → Unification → Prop where
  | refl (u : Unification) : Steps 0 u u
  | head {n : Nat} {u v w : Unification} (first : u.step = .continue v) (rest : Steps n v w) :
    Steps (n + 1) u w

/-- Every run ends, and what it reports is read off the state in which it ends. -/
theorem run_ends (u : Unification) :
    ∃ (n : Nat) (v : Unification), Steps n u v ∧
      (v.step = .solved ∧ u.run = .ok v.unifier ∨
        ∃ l r, v.step = .conflict l r ∧ u.run = .error (.nonUnifiable l r)) := by
  -- along the recursion of `run`, which follows the steps
  induction u using run.induct with
  | case1 u hs => exact ⟨0, u, .refl u, .inl ⟨hs, by rw [run, hs]⟩⟩
  | case2 u l r hs => exact ⟨0, u, .refl u, .inr ⟨l, r, hs, by rw [run, hs]⟩⟩
  | case3 u v hs ih =>
    obtain ⟨n, w, hsteps, hend⟩ := ih
    have hrun : u.run = v.run := by rw [run, hs]
    exact ⟨n + 1, w, .head hs hsteps, by rw [hrun]; exact hend⟩

/-! ## The invariant -/

/-- What holds of every state of a run on the propositions `ps`. -/
structure Invariant (ps : List Proposition) (u : Unification) : Prop where
  /-- What is pending is what the bindings make of `ps`, repetitions removed. -/
  pending_eq : u.pending = (ps.map u.unifier.apply).eraseDups
  /-- A unifier of `ps` does not notice the bindings. -/
  absorbs : ∀ θ, Unifies θ ps → Substitution.comp θ u.unifier.toSubst = θ

/-- The invariant holds at the start, where nothing is bound. -/
theorem invariant_start (ps : List Proposition) : Invariant ps (start ps) where
  pending_eq := by
    show ps.eraseDups = (ps.map id).eraseDups
    rw [List.map_id]
  absorbs _ _ := rfl

namespace Invariant

variable {ps : List Proposition} {u : Unification}

theorem mem_pending (h : Invariant ps u) {p : Proposition} :
    p ∈ u.pending ↔ ∃ q ∈ ps, u.unifier.apply q = p := by
  rw [h.pending_eq, List.mem_eraseDups, List.mem_map]

/-- A unifier of `ps` maps all that is pending alike. -/
theorem subst_eq_of_mem_pending (h : Invariant ps u) {θ : Nat → Term} (hθ : Unifies θ ps)
    {p q : Proposition} (hp : p ∈ u.pending) (hq : q ∈ u.pending) : p.subst θ = q.subst θ := by
  obtain ⟨p', hp', rfl⟩ := h.mem_pending.1 hp
  obtain ⟨q', hq', rfl⟩ := h.mem_pending.1 hq
  calc (u.unifier.apply p').subst θ
      = p'.subst θ := Unifier.subst_apply_of_comp_eq (h.absorbs θ hθ) p'
    _ = q'.subst θ := hθ.subst_eq hp' hq'
    _ = (u.unifier.apply q').subst θ :=
        (Unifier.subst_apply_of_comp_eq (h.absorbs θ hθ) q').symm

theorem nodup_pending (h : Invariant ps u) : u.pending.Nodup := by
  rw [h.pending_eq]
  exact nodup_eraseDups _

/-- A binding forced on the unifiers of `ps` preserves the invariant. -/
theorem bind (h : Invariant ps u) {b : Binding}
    (hb : ∀ θ, Unifies θ ps → θ b.var = b.term.subst θ) : Invariant ps (u.bind b) where
  pending_eq := by
    have hpush : (u.unifier.push b).apply = b.apply ∘ (u.unifier.apply : Proposition → _) := by
      funext p
      exact Unifier.apply_push u.unifier b p
    -- one more map on both sides; what was removed before it makes no difference
    show (u.pending.map b.apply).eraseDups = (ps.map (u.unifier.push b).apply).eraseDups
    rw [h.pending_eq, eraseDups_map_eraseDups, List.map_map, hpush]
  absorbs θ hθ := Unifier.comp_push (h.absorbs θ hθ) (hb θ hθ)

/-- **A step** keeps the invariant. -/
theorem step (h : Invariant ps u) {v : Unification} (hs : u.step = .continue v) :
    Invariant ps v := by
  obtain ⟨p, q, rest, hpending, ⟨rfl, rfl⟩ | ⟨b, rfl, hb⟩⟩ := step_eq_continue hs
  · -- nothing is pending twice, so nothing is ever dropped
    have := h.nodup_pending
    rw [hpending] at this
    simp at this
  · -- a unifier of `ps` maps the first two alike, so the binding is forced on it
    refine h.bind fun θ hθ => hb θ ?_
    exact h.subst_eq_of_mem_pending hθ (by rw [hpending]; simp) (by rw [hpending]; simp)

/-- **A run** keeps it. -/
theorem steps (h : Invariant ps u) {n : Nat} {v : Unification} (hs : Steps n u v) :
    Invariant ps v := by
  induction hs with
  | refl u => exact h
  | head first rest ih => exact ih (h.step first)

/-! ## The end of a run -/

/-- Where a run ends well, its bindings unify `ps`. -/
theorem unifies_of_solved (h : Invariant ps u) (hs : u.step = .solved) :
    Unifies u.unifier.toSubst ps := by
  refine unifies_of_forall_eq fun p hp q hq => ?_
  calc p.subst u.unifier.toSubst = u.unifier.apply p := (u.unifier.apply_eq_subst p).symm
    _ = u.unifier.apply q :=
        eq_of_step_eq_solved hs _ (h.mem_pending.2 ⟨p, hp, rfl⟩) _ (h.mem_pending.2 ⟨q, hq, rfl⟩)
    _ = q.subst u.unifier.toSubst := u.unifier.apply_eq_subst q

/-- Where a run ends in a conflict, nothing unifies `ps`. -/
theorem not_unifies_of_conflict (h : Invariant ps u) {l r : Proposition}
    (hs : u.step = .conflict l r) (θ : Nat → Term) : ¬Unifies θ ps := by
  intro hθ
  obtain ⟨⟨rest, hpending⟩, hne⟩ := step_eq_conflict hs
  apply hne θ
  exact h.subst_eq_of_mem_pending hθ (by rw [hpending]; simp) (by rw [hpending]; simp)

end Invariant

end Unification

end Clausal
