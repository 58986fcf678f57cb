/-
Terms, literals and clauses over a signature. Something is over a signature if it uses no
variable and no symbol that the signature does not know, and every symbol with as many
arguments as the signature says. This is kept by all that is done with clauses: by
substitution, by renaming, by unification, and by both inference rules. What the rules
need of it is that they only put together what they find, so the step lemma of unification
is that both sides of a disagreement are parts of what is compared.

A clause is `Printable` if besides that it has a literal, repeats none, and cites clauses
by names that are words.
-/
import Clausal.Proofs.InferenceSteps
import Clausal.Proofs.Preorder
import Clausal.Proofs.Renaming
import Clausal.Proofs.Signatures

set_option autoImplicit false

namespace Clausal

open Problem

variable {σ τ : Signature}

/-! ## Being over a signature -/

/-- The variables and function symbols of the term are known, and every symbol has its
number of arguments. -/
inductive Term.Over (σ : Signature) : Term → Prop where
  | var {x : Nat} (known : x < σ.variableNames.size) : Over σ (.var x)
  | app {f : Nat} {name : String} {args : List Term}
    (known : σ.functionSymbol? f = some ⟨name, args.length⟩)
    (args_over : ∀ t ∈ args, Over σ t) : Over σ (.app f args)

/-- The predicate is known and has its number of arguments, and these are over the signature. -/
structure Atom.Over (σ : Signature) (a : Atom) : Prop where
  known : ∃ name, σ.predicateSymbol? a.pred = some ⟨name, a.args.length⟩
  args_over : ∀ t ∈ a.args, t.Over σ

/-- A literal is over a signature if its atom is. -/
def Literal.Over (σ : Signature) (l : Literal) : Prop := l.atom.Over σ

/-- A proposition is over a signature as the term or the atom that it is. -/
def Proposition.Over (σ : Signature) : Proposition → Prop
  | .term t => t.Over σ
  | .atom a => a.Over σ

/-- All literals of the clause are over the signature. -/
def Clause.Over (σ : Signature) (c : Clause) : Prop := ∀ l ∈ c.literals, l.Over σ

/-- The names that a clause has or cites. -/
def Provenance.labels : Provenance → List String
  | .unnamed => []
  | .named label => [label]
  | .derived _ parents => parents.filterMap id

/-- A clause that can be written down over the signature and read again. -/
structure Clause.Printable (σ : Signature) (c : Clause) : Prop where
  nonempty : c.literals ≠ []
  nodup : c.literals.Nodup
  known : ∀ l ∈ c.literals, l.Over σ
  labels : ∀ s ∈ c.provenance.labels, Spells Token.isLabel s

/-- Equality is between two terms if the signature says so. -/
theorem Atom.Over.length_args (hσ : σ.predicateSymbol? Atom.equality = some ⟨"=", 2⟩) {a : Atom}
    (ha : a.Over σ) (h : a.isEquality = true) : a.args.length = 2 := by
  obtain ⟨name, hname⟩ := ha.known
  rw [Atom.isEquality, beq_iff_eq] at h
  rw [h, hσ, Option.some.injEq, Symbol.mk.injEq] at hname
  exact hname.2.symm

/-! ## Later signatures -/

/-- Being over a signature is being over every later one. -/
theorem Term.Over.mono (h : σ.Extends τ) {t : Term} (ht : t.Over σ) : t.Over τ := by
  induction ht with
  | var known => exact .var (Nat.lt_of_lt_of_le known h.variables_le)
  | app known args_over ih => exact .app (h.functions known) ih

theorem Atom.Over.mono (h : σ.Extends τ) {a : Atom} (ha : a.Over σ) : a.Over τ := by
  obtain ⟨name, hname⟩ := ha.known
  exact ⟨⟨name, h.predicates hname⟩, fun t ht => (ha.args_over t ht).mono h⟩

theorem Clause.Printable.mono (h : σ.Extends τ) {c : Clause} (hc : c.Printable σ) :
    c.Printable τ :=
  ⟨hc.nonempty, hc.nodup, fun l hl => (hc.known l hl).mono h, hc.labels⟩

/-! ## Substitution -/

/-- The substitution maps the variables of one signature to terms over another. -/
def MapsOver (σ τ : Signature) (θ : Nat → Term) : Prop :=
  ∀ x < σ.variableNames.size, (θ x).Over τ

/-- An instance of a term over the signature is over the other one, if the images of the
variables are. -/
theorem Term.Over.subst (h : σ.Extends τ) {θ : Nat → Term} (hθ : MapsOver σ τ θ) {t : Term}
    (ht : t.Over σ) : (t.subst θ).Over τ := by
  induction ht with
  | var known => exact hθ _ known
  | @app f name args known args_over ih =>
    -- a substitution leaves the number of arguments as it is
    have hknown : τ.functionSymbol? f = some ⟨name, (args.map (Term.subst θ)).length⟩ := by
      rw [List.length_map]
      exact h.functions known
    rw [subst_app]
    refine .app hknown fun t ht => ?_
    obtain ⟨s, hs, rfl⟩ := List.mem_map.1 ht
    exact ih s hs

/-- An instance of an atom is over the other signature, if the images of the variables are. -/
theorem Atom.Over.subst (h : σ.Extends τ) {θ : Nat → Term} (hθ : MapsOver σ τ θ) {a : Atom}
    (ha : a.Over σ) : (a.subst θ).Over τ := by
  obtain ⟨name, hname⟩ := ha.known
  rw [Atom.subst, Term.substList_eq]
  refine ⟨⟨name, by rw [List.length_map]; exact h.predicates hname⟩, fun t ht => ?_⟩
  obtain ⟨s, hs, rfl⟩ := List.mem_map.1 ht
  exact (ha.args_over s hs).subst h hθ

theorem Proposition.Over.subst {θ : Nat → Term} (hθ : MapsOver σ σ θ) {p : Proposition}
    (hp : p.Over σ) : (p.subst θ).Over σ := by
  cases p with
  | term t => exact Term.Over.subst (.refl σ) hθ hp
  | atom a => exact Atom.Over.subst (.refl σ) hθ hp

/-- One substitution after the other. -/
theorem MapsOver.comp {θ η : Nat → Term} (hθ : MapsOver σ σ θ) (hη : MapsOver σ σ η) :
    MapsOver σ σ (Substitution.comp θ η) :=
  fun x hx => (hη x hx).subst (.refl σ) hθ

/-- A binding moves one variable only, and to a term over the signature. -/
theorem mapsOver_binding {b : Binding} (h : b.term.Over σ) : MapsOver σ σ b.toSubst := by
  intro x hx
  by_cases hb : x = b.var
  · rw [hb, b.toSubst_self]
    exact h
  · rw [Binding.toSubst_of_ne hb]
    exact .var hx

/-! ## Unification -/

/-- Both sides of a disagreement are over the signature if the terms compared are. -/
theorem Term.over_of_disagreement? {s t : Term} {d : Term × Term}
    (h : s.disagreement? t = some d) (hs : s.Over σ) (ht : t.Over σ) :
    d.1.Over σ ∧ d.2.Over σ := by
  induction hs generalizing t with
  | var known =>
    rcases disagreement?_eq_some h with ⟨-, rfl⟩ | ⟨f, ss, ts, i, s', t', heq, -⟩
    · exact ⟨.var known, ht⟩
    · exact nomatch heq
  | @app f name args known args_over ih =>
    rcases disagreement?_eq_some h with ⟨-, rfl⟩ | ⟨g, ss, ts, i, s', t', heq, rfl, hs', ht', hd⟩
    · exact ⟨.app known args_over, ht⟩
    · obtain ⟨rfl, rfl⟩ := Term.app.inj heq
      -- the sides are found in arguments at the same place
      cases ht with
      | app _ hts => exact ih s' (List.mem_of_getElem? hs') hd (hts t' (List.mem_of_getElem? ht'))

/-- Two terms at which propositions disagree are over the signature, since they are parts of
these. -/
theorem Proposition.over_of_disagreement? {p q : Proposition} {s t : Term}
    (h : p.disagreement? q = some (.terms s t)) (hp : p.Over σ) (hq : q.Over σ) :
    s.Over σ ∧ t.Over σ := by
  unfold Proposition.disagreement? at h
  split at h
  · obtain ⟨d, hd, hst⟩ := Option.map_eq_some_iff.1 h
    cases hst
    exact Term.over_of_disagreement? hd hp hq
  · split at h
    · obtain ⟨d, hd, hst⟩ := Option.map_eq_some_iff.1 h
      cases hst
      obtain ⟨i, s', t', hs', ht', hd⟩ := Term.disagreementList?_eq_some hd
      exact Term.over_of_disagreement? hd (Atom.Over.args_over hp s' (List.mem_of_getElem? hs'))
        (Atom.Over.args_over hq t' (List.mem_of_getElem? ht'))
    · cases h
  · cases h

namespace Unification

/-- All that is pending is over the signature, and so is all that the bindings make of
known variables. -/
structure Over (σ : Signature) (u : Unification) : Prop where
  pending : ∀ p ∈ u.pending, p.Over σ
  unifier : MapsOver σ σ u.unifier.toSubst

/-- At the start nothing is bound. -/
theorem over_start {ps : List Proposition} (h : ∀ p ∈ ps, p.Over σ) : (start ps).Over σ :=
  ⟨fun p hp => h p (List.mem_eraseDups.1 hp), fun _ hx => .var hx⟩

/-- What a binding makes of the pending propositions is over the signature if its term is. -/
theorem Over.bind {u : Unification} (h : u.Over σ) {b : Binding} (hb : b.term.Over σ) :
    (u.bind b).Over σ := by
  refine ⟨fun p hp => ?_, ?_⟩
  · obtain ⟨q, hq, rfl⟩ := List.mem_map.1 (List.mem_eraseDups.1 hp)
    exact (h.pending q hq).subst (mapsOver_binding hb)
  · show MapsOver σ σ (u.unifier.push b).toSubst
    rw [Unifier.toSubst_push]
    exact (mapsOver_binding hb).comp h.unifier

/-- A binding is read off the first two pending propositions, so its term is part of one
of them. -/
theorem Over.step {u v : Unification} (h : u.Over σ) (hs : u.step = .continue v) : v.Over σ := by
  rcases step_cases u with
    ⟨hsolved, -⟩ | ⟨p, q, rest, hpending, ⟨-, hnext⟩ | ⟨d, hd, ⟨-, hconflict⟩ | ⟨b, hb, hnext⟩⟩⟩
  · rw [hs] at hsolved
    exact nomatch hsolved
  · rw [hs] at hnext
    obtain rfl := Outcome.continue.inj hnext
    -- two equal propositions: one is dropped
    refine ⟨fun r hr => h.pending r ?_, h.unifier⟩
    rw [hpending]
    rcases List.mem_cons.1 hr with rfl | hr <;> simp_all
  · rw [hs] at hconflict
    exact nomatch hconflict
  · rw [hs] at hnext
    obtain rfl := Outcome.continue.inj hnext
    have hp : p.Over σ := h.pending p (by rw [hpending]; simp)
    have hq : q.Over σ := h.pending q (by rw [hpending]; simp)
    refine h.bind ?_
    obtain ⟨-, rfl | rfl⟩ := d.binding?_eq_some hb
    · exact (Proposition.over_of_disagreement? hd hp hq).2
    · exact (Proposition.over_of_disagreement? hd hp hq).1

/-- **A whole run** stays over the signature. -/
theorem Over.steps {n : Nat} {u v : Unification} (h : u.Over σ) (hs : Steps n u v) : v.Over σ := by
  induction hs with
  | refl u => exact h
  | head first rest ih => exact ih (h.step first)

end Unification

/-- **Unification stays over the signature.** -/
theorem mapsOver_of_mgu {ps : List Proposition} {u : Unifier} (h : mgu ps = .ok u)
    (hps : ∀ p ∈ ps, p.Over σ) : MapsOver σ σ u.toSubst := by
  obtain ⟨n, v, hsteps, -, ⟨-, hu⟩ | ⟨l, r, -, he⟩⟩ := mgu_ends ps
  · rw [hu] at h
    rw [← Except.ok.inj h]
    exact ((Unification.over_start hps).steps hsteps).unifier
  · rw [he] at h
    exact nomatch h

/-! ## Positions -/

namespace Term

/-- A node of a term over the signature is over it. -/
theorem Over.of_mem_preorder {s t : Term} (ht : t.Over σ) (h : s ∈ t.preorder) : s.Over σ := by
  induction ht with
  | var known =>
    rw [List.mem_singleton.1 h]
    exact .var known
  | app known args_over ih =>
    rw [preorder_app] at h
    rcases List.mem_cons.1 h with rfl | h
    · exact .app known args_over
    · obtain ⟨t, ht, hs⟩ := List.mem_flatMap.1 h
      exact ih t ht hs

/-- Replacing a node leaves the number of arguments as it is. -/
theorem length_replaceNodeList (r : Term) (ts : List Term) (i : Nat) :
    (replaceNodeList r ts i).length = ts.length := by
  induction ts generalizing i with
  | nil => rfl
  | cons t ts ih =>
    rw [replaceNodeList]
    split
    · rfl
    · rw [List.length_cons, ih, List.length_cons]

/-- The case of argument lists, under the induction hypothesis for their members. -/
private theorem forall_over_replaceNodeList {r : Term} {ts : List Term}
    (ih : ∀ t ∈ ts, ∀ {i : Nat}, (replaceNode r t i).Over σ) (hts : ∀ t ∈ ts, t.Over σ) (i : Nat) :
    ∀ t ∈ replaceNodeList r ts i, t.Over σ := by
  induction ts generalizing i with
  | nil => simp [replaceNodeList]
  | cons t ts ihs =>
    have ht := List.forall_mem_cons.1 hts
    have ih' := List.forall_mem_cons.1 ih
    rw [replaceNodeList]
    split
    · exact List.forall_mem_cons.2 ⟨ih'.1, ht.2⟩
    · exact List.forall_mem_cons.2 ⟨ht.1, ihs ih'.2 ht.2 _⟩

/-- A term over the signature stays over it when a node is replaced by such a term, at whatever
number. -/
theorem Over.replaceNode {r t : Term} (hr : r.Over σ) (ht : t.Over σ) {i : Nat} :
    (Term.replaceNode r t i).Over σ := by
  induction ht generalizing i with
  | @var x known =>
    rcases i with _ | i
    · exact hr
    · exact .var known
  | @app f name args known args_over ih =>
    rcases i with _ | i
    · exact hr
    · have hknown : σ.functionSymbol? f = some ⟨name, (replaceNodeList r args i).length⟩ := by
        rw [length_replaceNodeList]
        exact known
      exact .app hknown (forall_over_replaceNodeList ih args_over i)

end Term

/-- A subterm of an atom over the signature is over it. -/
theorem Atom.Over.of_subtermAt {a : Atom} {i : Nat} {s : Term} (ha : a.Over σ)
    (h : a.subtermAt i = .ok s) : s.Over σ := by
  obtain ⟨t, ht, hs⟩ := Term.exists_mem_preorder_of_nodeList? (Atom.subtermAt_eq_ok h)
  exact (ha.args_over t ht).of_mem_preorder hs

/-- An atom over the signature stays over it when a subterm is replaced by such a term. -/
theorem Atom.Over.replaceAt {a b : Atom} {i : Nat} {r : Term} (ha : a.Over σ) (hr : r.Over σ)
    (h : a.replaceAt i r = .ok b) : b.Over σ := by
  rw [Atom.replaceAt_eq_ok h]
  obtain ⟨name, hname⟩ := ha.known
  refine ⟨⟨name, by rw [Term.length_replaceNodeList]; exact hname⟩, ?_⟩
  exact Term.forall_over_replaceNodeList (fun t ht _ => hr.replaceNode (ha.args_over t ht))
    ha.args_over _

/-! ## Inferences -/

namespace Clause

/-- Removing repetitions leaves a literal if there is one. -/
theorem literals_make_ne_nil {ls : List Literal} (hne : ls ≠ []) (provenance : Provenance) :
    (make ls provenance).literals ≠ [] := by
  obtain ⟨l, hl⟩ := List.exists_mem_of_ne_nil ls hne
  exact List.ne_nil_of_mem (mem_make.2 hl)

/-- Literals over the signature stay over it under a unifier of propositions over it. -/
theorem over_derivedBy {ps : List Proposition} {w : Unifier} (hw : mgu ps = .ok w)
    (hps : ∀ p ∈ ps, p.Over σ) {ls : List Literal} (hls : ∀ l ∈ ls, l.Over σ) {rule : Rule}
    {parents : List (Option String)} : ((w.apply (ofLiterals ls)).derivedBy rule parents).Over σ := by
  intro l hl
  obtain ⟨m, hm, rfl⟩ := mem_literals_derivedBy.1 hl
  rw [w.apply_eq_subst]
  exact Atom.Over.subst (.refl σ) (mapsOver_of_mgu hw hps) (hls m hm)

/-- **Factors stay over the signature.** -/
theorem FactorStep.over {c f : Clause} {w : Unifier} (h : c.FactorStep w f) (hc : c.Over σ) :
    f.Over σ := by
  obtain ⟨-, left, right, -, -, unify⟩ := h
  have hl := hc _ (List.mem_of_getElem? left)
  have hm := hc _ (List.mem_of_getElem? right)
  refine over_derivedBy unify ?_ fun k hk => hc k (mem_of_mem_merged left hk)
  exact List.forall_mem_cons.2 ⟨hl, List.forall_mem_singleton.2 hm⟩

/-- **Paramodulants stay over the signature.** -/
theorem ParamodulationStep.over {c given r : Clause} {w : Unifier}
    (h : c.ParamodulationStep given w r) (hc : c.Over σ) (hgiven : given.Over σ) : r.Over σ := by
  obtain ⟨premises, equation, direction, target_mem, subterm, unify, replace⟩ := h
  obtain ⟨hone, htwo⟩ := forall_of_eq_or_eq_swap (Over σ) premises hc hgiven
  have hequation := (hone _ (List.mem_of_getElem? equation)).args_over
  have htarget := htwo _ (List.mem_of_getElem? target_mem)
  obtain ⟨hlhs, hrhs⟩ := forall_of_eq_or_eq_swap (Term.Over σ) direction
    (hequation _ (by simp [Literal.pos, Atom.equation]))
    (hequation _ (by simp [Literal.pos, Atom.equation]))
  have hreplaced := htarget.replaceAt hrhs replace
  -- what is unified is over the signature, and so is what is put together
  refine over_derivedBy unify ?_ fun k hk => ?_
  · exact List.forall_mem_cons.2
      ⟨hlhs, List.forall_mem_singleton.2 (htarget.of_subtermAt subterm)⟩
  · rw [List.mem_append, List.mem_cons] at hk
    rcases hk with (rfl | hk) | hk
    · exact hreplaced
    · exact hone k (List.mem_of_mem_eraseIdx hk)
    · exact htwo k (List.mem_of_mem_eraseIdx hk)

/-- The names of the premises are cited, as far as they have any. -/
theorem Printable.label?_spelled {c : Clause} (h : c.Printable σ) {s : String}
    (hs : c.label? = some s) : Spells Token.isLabel s := by
  refine h.labels s ?_
  unfold Clause.label? at hs
  split at hs
  · next label hprovenance =>
    rw [hprovenance, ← Option.some.inj hs]
    exact List.mem_singleton_self label
  · cases hs

/-- A derivation cites names that are spelled as such if its parents have no others. -/
theorem labels_spelled_of_derived {c : Clause} {rule : Rule} {parents : List (Option String)}
    (h : c.provenance = .derived rule parents)
    (hparents : ∀ p ∈ parents, ∀ s, p = some s → Spells Token.isLabel s) :
    ∀ s ∈ c.provenance.labels, Spells Token.isLabel s := by
  rw [h]
  intro s hs
  obtain ⟨p, hp, hps⟩ := List.mem_filterMap.1 hs
  exact hparents p hp s hps

/-- **Factors can be printed** if the clause can. -/
theorem Printable.of_mem_factors {c : Clause} (hc : c.Printable σ) {fs : List Clause}
    (h : c.factors = .ok fs) {f : Clause} (hf : f ∈ fs) : f.Printable σ := by
  obtain ⟨w, hstep⟩ := exists_factorStep h hf
  refine ⟨hstep.literals_ne_nil, hstep.nodup, hstep.over hc.known,
    labels_spelled_of_derived hstep.provenance_eq ?_⟩
  exact List.forall_mem_singleton.2 fun s hs => hc.label?_spelled hs

/-- **Paramodulants can be printed** if the clauses can. -/
theorem Printable.of_mem_paramodulants {processed : List Clause} {given : Clause}
    (hprocessed : ∀ c ∈ processed, c.Printable σ) (hgiven : given.Printable σ) {rs : List Clause}
    (h : Clausal.paramodulants processed given = .ok rs) {r : Clause} (hr : r ∈ rs) :
    r.Printable σ := by
  obtain ⟨c, hc, w, hstep⟩ := exists_paramodulationStep h hr
  have hc := hprocessed c hc
  refine ⟨hstep.literals_ne_nil, hstep.nodup, hstep.over hc.known hgiven.known,
    labels_spelled_of_derived hstep.provenance_eq ?_⟩
  exact List.forall_mem_cons.2 ⟨fun s hs => hc.label?_spelled hs,
    List.forall_mem_singleton.2 fun s hs => hgiven.label?_spelled hs⟩

end Clause

/-! ## Copies -/

/-- **Copies can be printed** over the signature with the new variables, if the clause
can over the old one. -/
theorem Clause.Printable.freshCopy {c : Clause} (hc : c.Printable σ) :
    (σ.freshCopy c).1.Printable (σ.freshCopy c).2 := by
  have hextends : σ.Extends (σ.freshCopy c).2 := σ.extends_foldl_copyVariable _
  have hmaps : MapsOver σ (σ.freshCopy c).2 fun x =>
      .var (renumber σ.variableNames.size c.distinctVars x) := by
    intro x hx
    refine .var (Nat.lt_of_lt_of_eq (renumber_lt hx) ?_)
    exact (σ.size_foldl_copyVariable _).symm
  rw [σ.freshCopy_fst]
  refine ⟨?_, nodup_map_subst_var (renumber_injective _ _) hc.nodup, fun l hl => ?_, hc.labels⟩
  · simpa [Clause.rename] using hc.nonempty
  · obtain ⟨m, hm, rfl⟩ := List.mem_map.1 hl
    exact Atom.Over.subst hextends hmaps (hc.known m hm)

end Clausal
