/-
What the first disagreement says about unifiers.

A unification step looks at one thing only, the leftmost place where two
propositions differ. This file shows that this is enough in both directions. No
disagreement means that the propositions are equal
(`Proposition.eq_of_disagreement?_eq_none`). If there is one, it is genuine: the two
subterms found already differ at their roots, and every substitution that makes
the propositions equal makes these subterms equal too
(`Proposition.disagreement?_spec`).

So a binding read off a disagreement is forced on every unifier, and where no
binding can be read off there is no unifier at all. The second half is the
completeness of the three reasons for giving up: a clash of symbols or of numbers
of arguments, a term against an atom, and a variable that occurs in the term
opposite. Only the last one takes an argument, by size: the image of a term that
properly contains a variable is larger than the image of the variable.
-/
import Clausal.Unification

set_option autoImplicit false

namespace Clausal

namespace Term

/-! ## Sizes of instances -/

theorem size_le_sizeList_of_mem {t : Term} {ts : List Term} (h : t ∈ ts) :
    t.size ≤ sizeList ts := by
  induction ts with
  | nil => simp at h
  | cons s ts ih =>
    rw [sizeList_cons]
    rcases List.mem_cons.1 h with rfl | h
    · omega
    · have := ih h
      omega

/-- An argument of an application has a smaller image than the application. -/
theorem size_subst_lt_of_mem (θ : Nat → Term) (f : Nat) {t : Term} {args : List Term}
    (h : t ∈ args) : (t.subst θ).size < ((app f args).subst θ).size := by
  rw [subst_app, size_app]
  have := size_le_sizeList_of_mem (List.mem_map_of_mem (f := subst θ) h)
  omega

/-- The image of a variable is no larger than the image of a term it occurs in. -/
theorem size_le_of_mem_vars (θ : Nat → Term) {x : Nat} {t : Term} (h : x ∈ t.vars) :
    (θ x).size ≤ (t.subst θ).size := by
  induction t with
  | var y =>
    rw [vars_var, List.mem_singleton] at h
    exact Nat.le_of_eq (by rw [h, subst_var])
  | app f args ih =>
    rw [vars_app, List.mem_flatMap] at h
    obtain ⟨t, ht, hx⟩ := h
    have hle := ih t ht hx
    have hlt := size_subst_lt_of_mem θ f ht
    omega

/-- No substitution maps a variable and an application it occurs in alike. -/
theorem subst_ne_of_mem_vars (θ : Nat → Term) {x f : Nat} {args : List Term}
    (h : x ∈ (app f args).vars) : θ x ≠ (app f args).subst θ := by
  rw [vars_app, List.mem_flatMap] at h
  obtain ⟨t, ht, hx⟩ := h
  -- the variable is in an argument, and that is strictly smaller than the application
  have hle := size_le_of_mem_vars θ hx
  have hlt := size_subst_lt_of_mem θ f ht
  intro heq
  rw [heq] at hle
  omega

/-! ## Disagreements of terms -/

/-- Two terms differ at the root: as two variables, as applications of different
symbols or to different numbers of arguments, or as a variable and an
application. -/
def RootsDiffer : Term → Term → Prop
  | .var x, .var y => x ≠ y
  | .app f ss, .app g ts => ¬(f = g ∧ ss.length = ts.length)
  | _, _ => True

/-- A disagreement of argument lists is the disagreement of a pair of arguments in
one place. -/
theorem disagreementList?_eq_some {ss ts : List Term} {d : Term × Term}
    (h : disagreementList? ss ts = some d) :
    ∃ (i : Nat) (s t : Term), ss[i]? = some s ∧ ts[i]? = some t ∧ s.disagreement? t = some d := by
  induction ss generalizing ts with
  | nil => simp [disagreementList?] at h
  | cons s ss ih =>
    rcases ts with _ | ⟨t, ts⟩
    · simp [disagreementList?] at h
    · rw [disagreementList?] at h
      split at h
      · next d' hd => exact ⟨0, s, t, rfl, rfl, by rw [hd, h]⟩
      · obtain ⟨i, s', t', hs, ht, hd⟩ := ih h
        exact ⟨i + 1, s', t', by simpa using hs, by simpa using ht, hd⟩

/-- A disagreement of terms stands at their roots, or it is one of two arguments in
one place while the roots agree. -/
theorem disagreement?_eq_some {s t : Term} {d : Term × Term} (h : s.disagreement? t = some d) :
    s.RootsDiffer t ∧ d = (s, t) ∨
      ∃ (f : Nat) (ss ts : List Term) (i : Nat) (s' t' : Term), s = app f ss ∧ t = app f ts ∧
        ss[i]? = some s' ∧ ts[i]? = some t' ∧ s'.disagreement? t' = some d := by
  match s, t with
  | .var x, .var y =>
    rw [disagreement?] at h
    split at h
    · simp at h
    · next hne => exact .inl ⟨hne, (Option.some.inj h).symm⟩
  | .var x, .app g ts => exact .inl ⟨trivial, (Option.some.inj h).symm⟩
  | .app f ss, .var y => exact .inl ⟨trivial, (Option.some.inj h).symm⟩
  -- only two applications can agree at the root and disagree below it
  | .app f ss, .app g ts =>
    rw [disagreement?] at h
    split at h
    · next heq =>
      obtain ⟨i, s', t', hs, ht, hd⟩ := disagreementList?_eq_some h
      exact .inr ⟨f, ss, ts, i, s', t', rfl, by rw [heq.1], hs, ht, hd⟩
    · next hne => exact .inl ⟨hne, (Option.some.inj h).symm⟩

/-- Argument lists with equal images have equal images place by place. -/
theorem subst_eq_of_map_eq {θ : Nat → Term} {ss ts : List Term} {i : Nat} {s t : Term}
    (h : ss.map (subst θ) = ts.map (subst θ)) (hs : ss[i]? = some s) (ht : ts[i]? = some t) :
    s.subst θ = t.subst θ := by
  have := congrArg (·[i]?) h
  simpa only [List.getElem?_map, hs, ht, Option.map_some, Option.some.injEq] using this

/-- The two sides of a disagreement differ at the root, and a substitution that
makes the terms equal makes the sides equal. -/
theorem disagreement?_spec {s t s' t' : Term} (h : s.disagreement? t = some (s', t')) :
    s'.RootsDiffer t' ∧ ∀ θ, s.subst θ = t.subst θ → s'.subst θ = t'.subst θ := by
  induction s generalizing t with
  | var x =>
    rcases disagreement?_eq_some h with ⟨hroots, heq⟩ | ⟨f, ss, ts, i, s', t', hs, -⟩
    · obtain ⟨rfl, rfl⟩ := Prod.mk.inj heq
      exact ⟨hroots, fun _ hθ => hθ⟩
    · exact absurd hs (by simp)
  | app f args ih =>
    rcases disagreement?_eq_some h with ⟨hroots, heq⟩ | ⟨g, ss, ts, i, s₁, t₁, hs, rfl, hi, hj, hd⟩
    · obtain ⟨rfl, rfl⟩ := Prod.mk.inj heq
      exact ⟨hroots, fun _ hθ => hθ⟩
    · -- the roots agree, so equal images of the terms are equal images of the arguments
      obtain ⟨rfl, rfl⟩ := app.inj hs
      obtain ⟨hroots, hequal⟩ := ih s₁ (List.mem_of_getElem? hi) hd
      refine ⟨hroots, fun θ hθ => hequal θ ?_⟩
      rw [subst_app, subst_app] at hθ
      exact subst_eq_of_map_eq (app.inj hθ).2 hi hj

private theorem disagreementList?_eq_none {ss ts : List Term} (hlen : ss.length = ts.length)
    (ih : ∀ s ∈ ss, ∀ {t : Term}, s.disagreement? t = none → s = t)
    (h : disagreementList? ss ts = none) : ss = ts := by
  induction ss generalizing ts with
  | nil => exact (List.length_eq_zero_iff.1 hlen.symm).symm
  | cons s ss ihs =>
    rcases ts with _ | ⟨t, ts⟩
    · simp at hlen
    · rw [disagreementList?] at h
      split at h
      · simp at h
      · next hd =>
        rw [ih s List.mem_cons_self hd,
          ihs (by simpa using hlen) (fun s hs => ih s (List.mem_cons_of_mem _ hs)) h]

/-- Terms that nowhere disagree are equal. -/
theorem eq_of_disagreement?_eq_none {s t : Term} (h : s.disagreement? t = none) : s = t := by
  induction s generalizing t with
  | var x =>
    rcases t with y | ⟨g, ts⟩
    · simpa [disagreement?] using h
    · simp [disagreement?] at h
  | app f ss ih =>
    rcases t with y | ⟨g, ts⟩
    · simp [disagreement?] at h
    · rw [disagreement?] at h
      split at h
      · next heq => rw [heq.1, disagreementList?_eq_none heq.2 ih h]
      · simp at h

end Term

/-! ## Disagreements of propositions -/

namespace Disagreement

/-- The sides differ at the root; a difference above all terms always counts. -/
def IsGenuine : Disagreement → Prop
  | .terms s t => s.RootsDiffer t
  | .heads => True

/-- A substitution makes the sides equal; nothing helps above all terms. -/
def SolvedBy (θ : Nat → Term) : Disagreement → Prop
  | .terms s t => s.subst θ = t.subst θ
  | .heads => False

/-- The binding read off a disagreement is forced on every substitution that
removes the disagreement. -/
theorem eq_of_binding? {d : Disagreement} {b : Binding} {θ : Nat → Term}
    (h : d.binding? = some b) (hθ : d.SolvedBy θ) : θ b.var = b.term.subst θ := by
  obtain ⟨-, rfl | rfl⟩ := d.binding?_eq_some h
  · exact hθ
  · exact hθ.symm

theorem mem_vars_of_make?_eq_none {x : Nat} {t : Term} (h : Binding.make? x t = none) :
    x ∈ t.vars := by
  rw [Binding.make?] at h
  split at h
  · assumption
  · simp at h

/-- Where no binding can be read off, no substitution removes the disagreement. -/
theorem not_solvedBy_of_binding?_eq_none {d : Disagreement} (hd : d.IsGenuine)
    (h : d.binding? = none) (θ : Nat → Term) : ¬d.SolvedBy θ := by
  intro hθ
  match d with
  | .heads => exact hθ
  | .terms (.var x) (.var y) =>
    -- two variables that differ never fail the occurs check
    have hx := mem_vars_of_make?_eq_none h
    rw [Term.vars_var, List.mem_singleton] at hx
    exact hd hx
  | .terms (.var x) (.app g ts) =>
    -- the occurs check has failed, on this side and on the other
    exact Term.subst_ne_of_mem_vars θ (mem_vars_of_make?_eq_none h) hθ
  | .terms (.app f ss) (.var y) =>
    exact Term.subst_ne_of_mem_vars θ (mem_vars_of_make?_eq_none h) hθ.symm
  | .terms (.app f ss) (.app g ts) =>
    -- equal images would have one symbol and one number of arguments
    rw [SolvedBy, Term.subst_app, Term.subst_app] at hθ
    obtain ⟨hfg, hmap⟩ := Term.app.inj hθ
    have hlen := congrArg List.length hmap
    rw [List.length_map, List.length_map] at hlen
    exact hd ⟨hfg, hlen⟩

end Disagreement

namespace Proposition

/-- A disagreement of propositions is genuine, and a substitution that makes the
propositions equal removes it. -/
theorem disagreement?_spec {p q : Proposition} {d : Disagreement}
    (h : p.disagreement? q = some d) :
    d.IsGenuine ∧ ∀ θ, p.subst θ = q.subst θ → d.SolvedBy θ := by
  rcases p with s | a <;> rcases q with t | b
  · obtain ⟨⟨s', t'⟩, hd, rfl⟩ := Option.map_eq_some_iff.1 h
    obtain ⟨hroots, hequal⟩ := Term.disagreement?_spec hd
    exact ⟨hroots, fun θ hθ => hequal θ (Proposition.term.inj hθ)⟩
  · -- a term never becomes an atom
    obtain rfl := Option.some.inj h
    refine ⟨trivial, fun θ hθ => ?_⟩
    exact absurd hθ (by simp [subst])
  · obtain rfl := Option.some.inj h
    refine ⟨trivial, fun θ hθ => ?_⟩
    exact absurd hθ (by simp [subst])
  · rw [disagreement?] at h
    by_cases hheads : a.pred = b.pred ∧ a.args.length = b.args.length
    · rw [if_pos hheads] at h
      obtain ⟨⟨s', t'⟩, hd, rfl⟩ := Option.map_eq_some_iff.1 h
      obtain ⟨i, s, t, hs, ht, hst⟩ := Term.disagreementList?_eq_some hd
      obtain ⟨hroots, hequal⟩ := Term.disagreement?_spec hst
      refine ⟨hroots, fun θ hθ => hequal θ ?_⟩
      have hargs := congrArg Atom.args (Proposition.atom.inj hθ)
      rw [Atom.subst, Atom.subst, Term.substList_eq, Term.substList_eq] at hargs
      exact Term.subst_eq_of_map_eq hargs hs ht
    · rw [if_neg hheads] at h
      obtain rfl := Option.some.inj h
      -- substitution keeps the predicate symbol and the number of arguments
      refine ⟨trivial, fun θ hθ => hheads ?_⟩
      obtain ⟨hpred, hargs⟩ := Atom.mk.inj (Proposition.atom.inj hθ)
      have hlen := congrArg List.length hargs
      rw [Term.substList_eq, Term.substList_eq, List.length_map, List.length_map] at hlen
      exact ⟨hpred, hlen⟩

/-- Propositions that nowhere disagree are equal. -/
theorem eq_of_disagreement?_eq_none {p q : Proposition} (h : p.disagreement? q = none) :
    p = q := by
  rcases p with s | ⟨f, ss⟩ <;> rcases q with t | ⟨g, ts⟩
  · rw [Term.eq_of_disagreement?_eq_none (Option.map_eq_none_iff.1 h)]
  · simp [disagreement?] at h
  · simp [disagreement?] at h
  · rw [disagreement?] at h
    by_cases hheads : f = g ∧ ss.length = ts.length
    · rw [if_pos hheads, Option.map_eq_none_iff] at h
      have hargs := Term.disagreementList?_eq_none hheads.2
        (fun _ _ _ => Term.eq_of_disagreement?_eq_none) h
      rw [hargs, hheads.1]
    · rw [if_neg hheads] at h
      simp at h

end Proposition

end Clausal
