/-
Unification by first disagreement. A run holds the propositions still to be made
equal, each one once, and the bindings found so far. A step compares the first
two propositions and looks for the leftmost place where they differ. If a
variable stands there on either side and does not occur in the term opposite,
the variable is bound to that term throughout; of two variables the left one is
bound. Anything else that differs cannot be made equal. The run is over when at
most one proposition is left.

Each binding removes its variable from all propositions for good, so the number
of distinct variables goes down while the number of propositions never goes up.
This is the whole termination argument (`Unification.weight_lt_of_step`).
-/
import Clausal.Distinct
import Clausal.InferenceError
import Clausal.Substitution

set_option autoImplicit false

namespace Clausal

/-! ## The first place where two propositions differ -/

namespace Term

mutual

/-- The leftmost pair of subterms in which two terms differ: two different
variables, a variable against an application, or applications of different
symbols or to different numbers of arguments. -/
def disagreement? : Term → Term → Option (Term × Term)
  | .var x, .var y => if x = y then none else some (.var x, .var y)
  | .app f ss, .app g ts =>
    if f = g ∧ ss.length = ts.length then disagreementList? ss ts
    else some (.app f ss, .app g ts)
  | s, t => some (s, t)

/-- The leftmost disagreement of two argument lists, compared in pairs. -/
def disagreementList? : List Term → List Term → Option (Term × Term)
  | s :: ss, t :: ts =>
    match s.disagreement? t with
    | some d => some d
    | none => disagreementList? ss ts
  | _, _ => none

end

end Term

/-- How two propositions first differ. -/
inductive Disagreement where
  /-- They differ in a pair of subterms. -/
  | terms (s t : Term)
  /-- They differ above all terms: in the predicate symbol, in the number of its
  arguments, or because one is a term and the other an atom. -/
  | heads

/-- The first difference of two propositions. -/
def Proposition.disagreement? : Proposition → Proposition → Option Disagreement
  | .term s, .term t => (s.disagreement? t).map fun d => .terms d.1 d.2
  | .atom a, .atom b =>
    if a.pred = b.pred ∧ a.args.length = b.args.length then
      (Term.disagreementList? a.args b.args).map fun d => .terms d.1 d.2
    else some .heads
  | _, _ => some .heads

/-- Binds a variable to a term in which it does not occur. -/
def Binding.make? (x : Nat) (t : Term) : Option Binding :=
  if x ∈ t.vars then none else some ⟨x, t⟩

/-- The binding that removes a disagreement, if there is one. -/
def Disagreement.binding? : Disagreement → Option Binding
  | .terms (.var x) t => Binding.make? x t
  | .terms s (.var y) => Binding.make? y s
  | _ => none

/-! ## Runs -/

/-- The state of a run: the propositions still to be made equal and the bindings
found so far. -/
structure Unification where
  pending : List Proposition
  unifier : Unifier

namespace Unification

/-- A run begins with every proposition once and no binding. -/
def start (ps : List Proposition) : Unification := ⟨ps.eraseDups, .empty⟩

/-- Applies a new binding to all propositions and records it. -/
def bind (u : Unification) (b : Binding) : Unification :=
  ⟨(u.pending.map b.apply).eraseDups, u.unifier.push b⟩

/-- What a step comes to. -/
inductive Outcome where
  /-- At most one proposition is left. -/
  | solved
  /-- The first two propositions cannot be made equal. -/
  | conflict (left right : Proposition)
  | continue (next : Unification)

def step (u : Unification) : Outcome :=
  match u.pending with
  | p :: q :: rest =>
    match p.disagreement? q with
    | none => .continue ⟨p :: rest, u.unifier⟩
    | some d =>
      match d.binding? with
      | none => .conflict p q
      | some b => .continue (u.bind b)
  | _ => .solved

/-! ## Every step makes the run smaller -/

/-- The variables of the propositions still to be made equal. -/
def vars (u : Unification) : List Nat := u.pending.flatMap Proposition.vars

/-- The number of distinct variables plus the number of propositions. -/
def weight (u : Unification) : Nat := u.vars.eraseDups.length + u.pending.length

end Unification

namespace Term

/-- If the sides of a disagreement occur in the terms compared wherever the left
one is taken from a list, they occur in the lists compared. -/
private theorem vars_subset_of_forall_mem {ss ts : List Term} {s' t' : Term}
    (ih : ∀ s ∈ ss, ∀ {t : Term}, s.disagreement? t = some (s', t') →
      (∀ x ∈ s'.vars, x ∈ s.vars) ∧ ∀ x ∈ t'.vars, x ∈ t.vars)
    (h : disagreementList? ss ts = some (s', t')) :
    (∀ x ∈ s'.vars, x ∈ ss.flatMap vars) ∧ ∀ x ∈ t'.vars, x ∈ ts.flatMap vars := by
  induction ss generalizing ts with
  | nil => cases ts <;> simp [disagreementList?] at h
  | cons s ss ihs =>
    cases ts with
    | nil => simp [disagreementList?] at h
    | cons t ts =>
      simp only [List.flatMap_cons, List.mem_append]
      simp only [disagreementList?] at h
      -- the first argument has the disagreement, or a later one does
      split at h
      · next d hd =>
        cases h
        obtain ⟨h₁, h₂⟩ := ih s List.mem_cons_self hd
        exact ⟨fun x hx => .inl (h₁ x hx), fun x hx => .inl (h₂ x hx)⟩
      · obtain ⟨h₁, h₂⟩ := ihs (fun s hs => ih s (List.mem_cons_of_mem _ hs)) h
        exact ⟨fun x hx => .inr (h₁ x hx), fun x hx => .inr (h₂ x hx)⟩

/-- The two sides of a disagreement occur in the terms compared. -/
theorem vars_subset_of_disagreement? {s t s' t' : Term} (h : s.disagreement? t = some (s', t')) :
    (∀ x ∈ s'.vars, x ∈ s.vars) ∧ ∀ x ∈ t'.vars, x ∈ t.vars := by
  -- along the first term, with any second one
  induction s generalizing t with
  | var x =>
    cases t with
    | var y =>
      simp only [disagreement?] at h
      split at h
      · cases h
      · cases h; exact ⟨fun _ h => h, fun _ h => h⟩
    | app g ts => cases h; exact ⟨fun _ h => h, fun _ h => h⟩
  | app f ss ih =>
    cases t with
    | var y => cases h; exact ⟨fun _ h => h, fun _ h => h⟩
    | app g ts =>
      simp only [disagreement?] at h
      split at h
      · simpa only [vars_app] using vars_subset_of_forall_mem ih h
      · cases h; exact ⟨fun _ h => h, fun _ h => h⟩

/-- The two sides of a disagreement occur in the argument lists compared. -/
theorem vars_subset_of_disagreementList? {ss ts : List Term} {s t : Term}
    (h : disagreementList? ss ts = some (s, t)) :
    (∀ x ∈ s.vars, x ∈ ss.flatMap vars) ∧ ∀ x ∈ t.vars, x ∈ ts.flatMap vars :=
  vars_subset_of_forall_mem (fun _ _ _ => vars_subset_of_disagreement?) h

end Term

/-- The variables of both sides of a disagreement occur in the propositions
compared. -/
theorem Proposition.vars_subset_of_disagreement? {p q : Proposition} {s t : Term}
    (h : p.disagreement? q = some (.terms s t)) :
    (∀ x ∈ s.vars, x ∈ p.vars) ∧ ∀ x ∈ t.vars, x ∈ q.vars := by
  unfold Proposition.disagreement? at h
  split at h
  · obtain ⟨d, hd, hst⟩ := Option.map_eq_some_iff.1 h
    cases hst
    exact Term.vars_subset_of_disagreement? hd
  · split at h
    · obtain ⟨d, hd, hst⟩ := Option.map_eq_some_iff.1 h
      cases hst
      exact Term.vars_subset_of_disagreementList? hd
    · cases h
  · cases h

/-- The binding made from a disagreement binds one side of it to the other and
passes the occurs check. -/
theorem Disagreement.binding?_eq_some {d : Disagreement} {b : Binding} (h : d.binding? = some b) :
    b.var ∉ b.term.vars ∧
      (d = .terms (.var b.var) b.term ∨ d = .terms b.term (.var b.var)) := by
  -- a binding is made if the variable does not occur in the term
  have make : ∀ {x : Nat} {t : Term}, Binding.make? x t = some b →
      x = b.var ∧ t = b.term ∧ b.var ∉ b.term.vars := by
    intro x t hm
    unfold Binding.make? at hm
    split at hm
    · cases hm
    · next hx => cases hm; exact ⟨rfl, rfl, hx⟩
  unfold Disagreement.binding? at h
  split at h
  · obtain ⟨rfl, rfl, hx⟩ := make h
    exact ⟨hx, .inl rfl⟩
  · obtain ⟨rfl, rfl, hx⟩ := make h
    exact ⟨hx, .inr rfl⟩
  · cases h

namespace Unification

/-- A binding read off the first two propositions passes the occurs check and speaks
of pending variables only. -/
theorem mem_vars_of_binding? {u : Unification} {p q : Proposition} {rest : List Proposition}
    {d : Disagreement} {b : Binding} (hpending : u.pending = p :: q :: rest)
    (hd : p.disagreement? q = some d) (hb : d.binding? = some b) :
    b.var ∉ b.term.vars ∧ b.var ∈ u.vars ∧ ∀ x ∈ b.term.vars, x ∈ u.vars := by
  obtain ⟨hfresh, hd'⟩ := d.binding?_eq_some hb
  refine ⟨hfresh, ?_⟩
  rcases hd' with rfl | rfl <;>
    · obtain ⟨h₁, h₂⟩ := Proposition.vars_subset_of_disagreement? hd
      simp only [vars, hpending, List.flatMap_cons, List.mem_append]
      simp only [Term.vars_var, List.mem_singleton, forall_eq] at h₁ h₂
      grind

/-- After a binding the bound variable is replaced by those of its term. -/
theorem mem_vars_bind {u : Unification} {b : Binding} {x : Nat} (h : x ∈ (u.bind b).vars) :
    x ∈ b.term.vars ∨ x ∈ u.vars ∧ x ≠ b.var := by
  simp only [vars, bind, List.mem_flatMap, List.mem_eraseDups, List.mem_map] at h
  obtain ⟨_, ⟨r, hr, rfl⟩, hx⟩ := h
  rw [Binding.apply, HasSubst.subst, instHasSubstProposition, Proposition.vars_subst,
    List.mem_flatMap] at hx
  obtain ⟨y, hy, hx⟩ := hx
  rcases Binding.mem_vars_toSubst hx with hx | ⟨rfl, hne⟩
  · exact .inl hx
  · exact .inr ⟨List.mem_flatMap.2 ⟨r, hr, hy⟩, hne⟩

/-- A step that goes on leaves a smaller run. -/
theorem weight_lt_of_step {u v : Unification} (h : u.step = .continue v) :
    v.weight < u.weight := by
  obtain ⟨pending, unifier⟩ := u
  unfold step at h
  split at h
  · next p q rest hpending =>
    cases hpending
    split at h
    · cases h
      -- a repetition is dropped: there are fewer propositions and no more variables
      have := length_eraseDups_le_of_subset (l := vars ⟨p :: rest, unifier⟩)
        (m := vars ⟨p :: q :: rest, unifier⟩) (by simp only [vars, List.mem_flatMap]; grind)
      simp only [weight, List.length_cons]
      omega
    · next d hd =>
      split at h
      · cases h
      · next b hb =>
        cases h
        obtain ⟨hfresh, hvar, hterm⟩ := mem_vars_of_binding? (u := ⟨p :: q :: rest, unifier⟩)
          rfl hd hb
        -- a variable is bound: it is gone, and no other one has come in its place
        have hafter : ∀ x ∈ vars (bind ⟨p :: q :: rest, unifier⟩ b),
            x ∈ vars ⟨p :: q :: rest, unifier⟩ ∧ x ≠ b.var := by
          intro x hx
          rcases mem_vars_bind hx with hx | hx
          · exact ⟨hterm x hx, fun e => hfresh (e ▸ hx)⟩
          · exact hx
        have hlt := length_eraseDups_lt_of_subset (fun x hx => (hafter x hx).1) hvar
          fun hx => (hafter b.var hx).2 rfl
        have hle := length_eraseDups_le ((p :: q :: rest).map b.apply)
        simp only [weight]
        simp only [List.length_map] at hle
        exact Nat.add_lt_add_of_lt_of_le hlt hle
  · cases h

def run (u : Unification) : Except InferenceError Unifier :=
  match _h : u.step with
  | .solved => .ok u.unifier
  | .conflict p q => .error (.nonUnifiable p q)
  | .continue v => v.run
termination_by u.weight
decreasing_by exact weight_lt_of_step _h

end Unification

/-- A most general unifier of all the propositions. -/
def mgu (ps : List Proposition) : Except InferenceError Unifier := (Unification.start ps).run

def Term.unify (s t : Term) : Except InferenceError Unifier := mgu [.term s, .term t]

def Atom.unify (a b : Atom) : Except InferenceError Unifier := mgu [.atom a, .atom b]

end Clausal
