/-
The shape of what unification finds, and how soon it finds it.

A run works on the variables of the propositions it was given and on no others. Each
binding takes its variable out of all that is pending, and since a later binding is read
off what is pending then, a variable once bound never comes back: not as the variable of
a later binding, and not inside its term. So the bindings are in triangular form, and
there are no more of them than variables to begin with.

The invariant `Eliminates` says this of every state of a run. That a step always makes a
binding, and never drops one of two equal propositions, is a consequence of the invariant
of runs: nothing is ever pending twice.

That applying the bindings twice is applying them once needs none of this. The bindings
found are themselves a unifier, and no unifier notices them.
-/
import Clausal.Proofs.MostGeneralUnifier

set_option autoImplicit false

namespace Clausal

/-! ## Triangular form -/

/-- The bindings are in triangular form: a variable that has been bound occurs neither in
its own term nor in any binding behind its own. -/
structure Unifier.Triangular (u : Unifier) : Prop where
  /-- No variable occurs in the term that it is bound to. -/
  not_mem_term : ∀ b ∈ u.bindings, b.var ∉ b.term.vars
  /-- No variable is bound twice. -/
  nodup_vars : (u.bindings.map Binding.var).Nodup
  /-- No variable occurs in a term to which a later one is bound. -/
  pairwise : u.bindings.Pairwise fun b c => b.var ∉ c.term.vars

theorem Unifier.triangular_empty : Unifier.empty.Triangular :=
  ⟨by simp [Unifier.empty], by simp [Unifier.empty], by simp [Unifier.empty]⟩

/-- A binding may be added behind the others if no variable bound by these occurs in
it. -/
theorem Unifier.Triangular.push {u : Unifier} (h : u.Triangular) {b : Binding}
    (hb : b.var ∉ b.term.vars) (hvar : ∀ c ∈ u.bindings, c.var ≠ b.var)
    (hterm : ∀ c ∈ u.bindings, c.var ∉ b.term.vars) : (u.push b).Triangular := by
  -- the new binding is the last one: it has to be fit by itself, to be new, and to be free of
  -- earlier variables
  refine ⟨?_, ?_, ?_⟩
  · intro c hc
    rcases List.mem_append.1 hc with hc | hc
    · exact h.not_mem_term c hc
    · rw [List.mem_singleton.1 hc]
      exact hb
  · rw [Unifier.push, List.map_append, List.nodup_append]
    refine ⟨h.nodup_vars, by simp, ?_⟩
    intro x hx y hy
    obtain ⟨c, hc, rfl⟩ := List.mem_map.1 hx
    rw [List.map_singleton, List.mem_singleton] at hy
    rw [hy]
    exact hvar c hc
  · rw [Unifier.push, List.pairwise_append]
    refine ⟨h.pairwise, List.pairwise_singleton _ _, ?_⟩
    intro c hc d hd
    rw [List.mem_singleton.1 hd]
    exact hterm c hc

theorem Unifier.Triangular.of_push {u : Unifier} {b : Binding} (h : (u.push b).Triangular) :
    u.Triangular ∧ b.var ∉ b.term.vars ∧ ∀ c ∈ u.bindings, c.var ∉ b.term.vars := by
  have hlast : b ∈ (u.push b).bindings := List.mem_append_right _ (List.mem_singleton_self b)
  have hnodup := h.nodup_vars
  have hpairwise := h.pairwise
  rw [Unifier.push, List.map_append, List.nodup_append] at hnodup
  rw [Unifier.push, List.pairwise_append] at hpairwise
  exact ⟨⟨fun c hc => h.not_mem_term c (List.mem_append_left _ hc), hnodup.1, hpairwise.1⟩,
    h.not_mem_term b hlast, fun c hc => hpairwise.2.2 c hc b (List.mem_singleton_self b)⟩

/-- A variable of an image is the one replaced, or comes from the term of a binding. -/
theorem Unifier.mem_vars_toSubst {u : Unifier} {x y : Nat} (h : x ∈ (u.toSubst y).vars) :
    x = y ∨ ∃ b ∈ u.bindings, x ∈ b.term.vars := by
  induction u using Unifier.push_induction with
  | empty => exact .inl (List.mem_singleton.1 h)
  | push u b ih =>
    rw [toSubst_push, Substitution.comp, Term.vars_subst] at h
    obtain ⟨z, hz, hx⟩ := List.mem_flatMap.1 h
    rcases Binding.mem_vars_toSubst hx with hx | ⟨rfl, -⟩
    · exact .inr ⟨b, List.mem_append_right _ (List.mem_singleton_self b), hx⟩
    · rcases ih hz with hxy | ⟨c, hc, hx⟩
      · exact .inl hxy
      · exact .inr ⟨c, List.mem_append_left _ hc, hx⟩

/-- **Bindings in triangular form leave none of the variables that they bind.** -/
theorem Unifier.Triangular.not_mem_vars_toSubst {u : Unifier} (h : u.Triangular) {b : Binding}
    (hb : b ∈ u.bindings) (y : Nat) : b.var ∉ (u.toSubst y).vars := by
  induction u using Unifier.push_induction generalizing b with
  | empty => exact absurd hb List.not_mem_nil
  | push u c ih =>
    obtain ⟨hu, hself, hearlier⟩ := h.of_push
    intro hx
    rw [toSubst_push, Substitution.comp, Term.vars_subst] at hx
    obtain ⟨z, hz, hx⟩ := List.mem_flatMap.1 hx
    -- the last binding brings back neither its own variable nor an earlier one
    rcases List.mem_append.1 hb with hb | hb
    · rcases Binding.mem_vars_toSubst hx with hx | ⟨rfl, -⟩
      · exact hearlier b hb hx
      · exact ih hu hb hz
    · rw [List.mem_singleton.1 hb] at hx
      rcases Binding.mem_vars_toSubst hx with hx | ⟨-, hne⟩
      · exact hself hx
      · exact hne rfl

namespace Unification

/-! ## Every step is a binding -/

variable {ps : List Proposition} {u v : Unification}

/-- The first two propositions pending differ, so neither is ever dropped as a
repetition. -/
theorem Invariant.disagreement?_ne_none (h : Invariant ps u) {p q : Proposition}
    {rest : List Proposition} (hpending : u.pending = p :: q :: rest) :
    p.disagreement? q ≠ none := by
  intro hnone
  have hnodup := h.nodup_pending
  rw [hpending, Proposition.eq_of_disagreement?_eq_none hnone] at hnodup
  exact (List.nodup_cons.1 hnodup).1 List.mem_cons_self

/-- A step that goes on makes a binding, read off the first two propositions. -/
theorem Invariant.exists_binding (h : Invariant ps u) (hs : u.step = .continue v) :
    ∃ p q rest d b, u.pending = p :: q :: rest ∧ p.disagreement? q = some d ∧
      d.binding? = some b ∧ v = u.bind b := by
  rcases step_cases u with
    ⟨hsolved, -⟩ | ⟨p, q, rest, hpending, ⟨hnone, -⟩ | ⟨d, hd, ⟨-, hconflict⟩ | ⟨b, hb, hnext⟩⟩⟩
  · rw [hs] at hsolved
    exact nomatch hsolved
  · exact absurd hnone (h.disagreement?_ne_none hpending)
  · rw [hs] at hconflict
    exact nomatch hconflict
  · rw [hs] at hnext
    exact ⟨p, q, rest, d, b, hpending, hd, hb, Outcome.continue.inj hnext⟩

/-- There are as many bindings as there have been steps. -/
theorem Invariant.size_of_steps (h : Invariant ps u) {n : Nat} (hs : Steps n u v) :
    v.unifier.size = u.unifier.size + n := by
  induction hs with
  | refl u => rfl
  | @head n u v w first rest ih =>
    obtain ⟨p, q, rest, d, b, -, -, -, hv⟩ := h.exists_binding first
    have hsize : v.unifier.size = u.unifier.size + 1 := by
      rw [hv]
      exact List.length_append
    rw [ih (h.step first), hsize]
    omega

/-! ## Bound variables are gone for good -/

/-- All variables of a run come from the propositions it began with, and those that have
been bound are no longer pending. -/
structure Eliminates (ps : List Proposition) (u : Unification) : Prop where
  triangular : u.unifier.Triangular
  /-- What is bound, and what it is bound to, comes from `ps`. -/
  confined : ∀ b ∈ u.unifier.bindings, b.var ∈ ps.flatMap Proposition.vars ∧
    ∀ x ∈ b.term.vars, x ∈ ps.flatMap Proposition.vars
  pending : ∀ x ∈ u.vars, x ∈ ps.flatMap Proposition.vars
  gone : ∀ b ∈ u.unifier.bindings, b.var ∉ u.vars

theorem eliminates_start (ps : List Proposition) : Eliminates ps (start ps) where
  triangular := Unifier.triangular_empty
  confined b hb := absurd hb (by simp [start, Unifier.empty])
  gone b hb := absurd hb (by simp [start, Unifier.empty])
  pending x hx := by
    obtain ⟨p, hp, hx⟩ := List.mem_flatMap.1 hx
    exact List.mem_flatMap.2 ⟨p, List.mem_eraseDups.1 hp, hx⟩

/-- A binding of pending variables that passes the occurs check. -/
theorem Eliminates.bind (h : Eliminates ps u) {b : Binding} (hfresh : b.var ∉ b.term.vars)
    (hvar : b.var ∈ u.vars) (hterm : ∀ x ∈ b.term.vars, x ∈ u.vars) :
    Eliminates ps (u.bind b) := by
  -- bound variables are not pending, so none of them is in the new binding
  have hnew : ∀ c ∈ u.unifier.bindings, c.var ≠ b.var ∧ c.var ∉ b.term.vars := by
    intro c hc
    refine ⟨?_, fun hmem => h.gone c hc (hterm _ hmem)⟩
    intro heq
    exact h.gone c hc (heq ▸ hvar)
  refine ⟨h.triangular.push hfresh (fun c hc => (hnew c hc).1) fun c hc => (hnew c hc).2, ?_, ?_, ?_⟩
  · intro c hc
    rcases List.mem_append.1 hc with hc | hc
    · exact h.confined c hc
    · rw [List.mem_singleton.1 hc]
      exact ⟨h.pending _ hvar, fun x hx => h.pending x (hterm x hx)⟩
  · intro x hx
    rcases mem_vars_bind hx with hx | ⟨hx, -⟩
    · exact h.pending x (hterm x hx)
    · exact h.pending x hx
  · intro c hc hx
    rcases List.mem_append.1 hc with hc | hc
    · -- an earlier variable could only come back through the new term
      rcases mem_vars_bind hx with hx | ⟨hx, -⟩
      · exact (hnew c hc).2 hx
      · exact h.gone c hc hx
    · rw [List.mem_singleton.1 hc] at hx
      rcases mem_vars_bind hx with hx | ⟨-, hne⟩
      · exact hfresh hx
      · exact hne rfl

theorem Eliminates.step (h : Eliminates ps u) (hinv : Invariant ps u)
    (hs : u.step = .continue v) : Eliminates ps v := by
  obtain ⟨p, q, rest, d, b, hpending, hd, hb, rfl⟩ := hinv.exists_binding hs
  obtain ⟨hfresh, hvar, hterm⟩ := mem_vars_of_binding? hpending hd hb
  exact h.bind hfresh hvar hterm

theorem Eliminates.steps (h : Eliminates ps u) (hinv : Invariant ps u) {n : Nat}
    (hs : Steps n u v) : Eliminates ps v := by
  induction hs with
  | refl u => exact h
  | head first rest ih => exact ih (h.step hinv first) (hinv.step first)

/-- There are no more bindings than variables. -/
theorem Eliminates.size_le (h : Eliminates ps u) :
    u.unifier.size ≤ (ps.flatMap Proposition.vars).eraseDups.length := by
  have hle := length_le_of_nodup_of_subset (m := (ps.flatMap Proposition.vars).eraseDups)
    h.triangular.nodup_vars ?_
  · rwa [List.length_map] at hle
  · intro x hx
    obtain ⟨b, hb, rfl⟩ := List.mem_map.1 hx
    exact List.mem_eraseDups.2 (h.confined b hb).1

/-- **A run is no longer than there are variables.** -/
theorem le_of_steps_start {n : Nat} (hs : Steps n (start ps) v) :
    n ≤ (ps.flatMap Proposition.vars).eraseDups.length := by
  have hle := ((eliminates_start ps).steps (invariant_start ps) hs).size_le
  rw [(invariant_start ps).size_of_steps hs] at hle
  omega

end Unification

open Unification

/-- A unifier is what a run has eliminated in the end. -/
theorem eliminates_of_mgu_eq_ok {ps : List Proposition} {u : Unifier} (h : mgu ps = .ok u) :
    ∃ v, Eliminates ps v ∧ v.unifier = u := by
  obtain ⟨n, v, hsteps, hinv, ⟨-, hok⟩ | ⟨l, r, -, herror⟩⟩ := mgu_ends ps
  · rw [hok] at h
    exact ⟨v, (eliminates_start ps).steps (invariant_start ps) hsteps, Except.ok.inj h⟩
  · rw [herror] at h
    exact nomatch h

/-! ## What a run comes to -/

/-- **Triangular form, idempotence and termination.** Counting the last one, a run takes
at most one step more than there are variables; on the way nothing is pending twice, so
the first two propositions always differ. The bindings that it finds are made of the
variables given, are in triangular form, and applied twice do what they do once. -/
theorem mgu_triangular (ps : List Proposition) :
    (∃ (n : Nat) (v : Unification), n + 1 ≤ (ps.flatMap Proposition.vars).eraseDups.length + 1 ∧
      Steps n (start ps) v ∧
        (v.step = .solved ∧ mgu ps = .ok v.unifier ∨
          ∃ l r, v.step = .conflict l r ∧ mgu ps = .error (.nonUnifiable l r))) ∧
    (∀ (n : Nat) (v : Unification), Steps n (start ps) v → v.pending.Nodup ∧
      ∀ p q rest, v.pending = p :: q :: rest → p.disagreement? q ≠ none) ∧
    ∀ u, mgu ps = .ok u →
      (∀ b ∈ u.bindings, b.var ∈ ps.flatMap Proposition.vars ∧
        ∀ x ∈ b.term.vars, x ∈ ps.flatMap Proposition.vars) ∧
      u.Triangular ∧ ∀ t : Term, u.apply (u.apply t) = u.apply t := by
  obtain ⟨n, v, hsteps, hinv, hend⟩ := mgu_ends ps
  refine ⟨⟨n, v, Nat.succ_le_succ (le_of_steps_start hsteps), hsteps, hend⟩, ?_, ?_⟩
  · intro n v hsteps
    have hinv := (invariant_start ps).steps hsteps
    exact ⟨hinv.nodup_pending, fun p q rest hpending => hinv.disagreement?_ne_none hpending⟩
  · intro u hu
    have helim := (eliminates_start ps).steps (invariant_start ps) hsteps
    obtain ⟨-, hok⟩ | ⟨l, r, -, herror⟩ := hend
    · rw [hok] at hu
      obtain rfl := Except.ok.inj hu
      refine ⟨helim.confined, helim.triangular, fun t => ?_⟩
      -- the bindings are a unifier, so they do not notice themselves
      have hself := comp_eq_of_mgu_eq_ok hok (unifies_of_mgu_eq_ok hok)
      calc v.unifier.apply (v.unifier.apply t)
          = HasSubst.subst v.unifier.toSubst (v.unifier.apply t) := v.unifier.apply_eq_subst _
        _ = HasSubst.subst v.unifier.toSubst t := Unifier.subst_apply_of_comp_eq hself t
        _ = v.unifier.apply t := (v.unifier.apply_eq_subst t).symm
    · rw [herror] at hu
      exact nomatch hu

/-- `p1(X0,X1,X2)` and `p1(f0(X1,X1),f0(X2,X2),f1)`: three variables and three bindings,
each term but the last made of variables that are bound later. -/
theorem mgu_triangular_nested :
    mgu [.atom ⟨1, [.var 0, .var 1, .var 2]⟩,
        .atom ⟨1, [.app 0 [.var 1, .var 1], .app 0 [.var 2, .var 2], .app 1 []]⟩] =
      .ok ⟨[⟨0, .app 0 [.var 1, .var 1]⟩, ⟨1, .app 0 [.var 2, .var 2]⟩, ⟨2, .app 1 []⟩]⟩ ∧
    (Unifier.mk [⟨0, .app 0 [.var 1, .var 1]⟩, ⟨1, .app 0 [.var 2, .var 2]⟩,
      ⟨2, .app 1 []⟩]).Triangular ∧
    ∀ t : Term, (Unifier.mk [⟨0, .app 0 [.var 1, .var 1]⟩, ⟨1, .app 0 [.var 2, .var 2]⟩,
        ⟨2, .app 1 []⟩]).apply ((Unifier.mk [⟨0, .app 0 [.var 1, .var 1]⟩,
          ⟨1, .app 0 [.var 2, .var 2]⟩, ⟨2, .app 1 []⟩]).apply t) =
      (Unifier.mk [⟨0, .app 0 [.var 1, .var 1]⟩, ⟨1, .app 0 [.var 2, .var 2]⟩,
        ⟨2, .app 1 []⟩]).apply t := by
  have h : mgu [.atom ⟨1, [.var 0, .var 1, .var 2]⟩,
        .atom ⟨1, [.app 0 [.var 1, .var 1], .app 0 [.var 2, .var 2], .app 1 []]⟩] =
      .ok ⟨[⟨0, .app 0 [.var 1, .var 1]⟩, ⟨1, .app 0 [.var 2, .var 2]⟩, ⟨2, .app 1 []⟩]⟩ := by
    decide +kernel
  obtain ⟨-, -, hok⟩ := mgu_triangular [.atom ⟨1, [.var 0, .var 1, .var 2]⟩,
    .atom ⟨1, [.app 0 [.var 1, .var 1], .app 0 [.var 2, .var 2], .app 1 []]⟩]
  obtain ⟨-, htriangular, hidempotent⟩ := hok _ h
  exact ⟨h, htriangular, hidempotent⟩

end Clausal
