/-
Inference from equal clauses.

Clauses are equal if they have the same literals, in whatever order, and the order in which
inferences are drawn is that of the literals. So equal clauses are gone through in different
orders, and with the other literals in different orders too. As multisets, the selections
from both are the same (`unorderedSelections_of_perm`, `unorderedPairs_of_perm`), and what is
left to show is what one selection contributes.

A paramodulation never looks at the other literals. It settles on a unifier and a literal
rewritten (`rewriting`) and only then puts the conclusion together, so the conclusions have
the same literals. In a factor the order of the two literals decides which variable is bound
to which, and the conclusions are the same up to a renaming, because the two unifiers are
variants of each other. Both facts together say that inference respects equality of clauses
(`inferences_of_equal`).
-/
import Clausal.Proofs.LiteralSets
import Clausal.Proofs.UnorderedEnumeration
import Clausal.Proofs.Variants

set_option autoImplicit false

namespace Clausal

/-! ## Selections without an order -/

section Selections

variable {α : Type}

/-- The selections from a list, the others left over without an order. -/
def unorderedSelections (l : List α) : Multiset (α × Multiset α) :=
  (selections l : Multiset (α × List α)).map fun s => (s.1, s.2)

/-- The pairs of entries of a list, both the pair and the others without an order. -/
def unorderedPairs (l : List α) : Multiset (Multiset α × Multiset α) :=
  (pairSelections l : Multiset (α × α × List α)).map fun s => ({s.1, s.2.1}, s.2.2)

/-- Selecting from a longer list is selecting the first member or one of the others. -/
theorem unorderedSelections_cons (a : α) (l : List α) :
    unorderedSelections (a :: l) =
      (a, (l : Multiset α)) ::ₘ (unorderedSelections l).map (Prod.map id (a ::ₘ ·)) := by
  simp only [unorderedSelections, selections, Multiset.map_coe, List.map_cons, List.map_map,
    Multiset.cons_coe]
  rfl

/-- A pair of a longer list has the first member in it or consists of others. -/
theorem unorderedPairs_cons (a : α) (l : List α) :
    unorderedPairs (a :: l) =
      (unorderedSelections l).map (fun s => ({a, s.1}, s.2)) +
        (unorderedPairs l).map (Prod.map id (a ::ₘ ·)) := by
  simp only [unorderedPairs, unorderedSelections, pairSelections, Multiset.map_coe,
    List.map_append, List.map_map, Multiset.coe_add]
  rfl

/-- Selecting from a list in another order is selecting in another order. -/
theorem unorderedSelections_of_perm {l m : List α} (h : l.Perm m) :
    unorderedSelections l = unorderedSelections m := by
  induction h with
  | nil => rfl
  | cons a h ih =>
    rw [unorderedSelections_cons, unorderedSelections_cons, ih, Multiset.coe_eq_coe.2 h]
  | swap a b l =>
    simp only [unorderedSelections_cons, Multiset.map_cons, Multiset.map_map, Function.comp_def,
      Prod.map, id, Multiset.cons_coe, Multiset.cons_swap a b]
    rw [Multiset.cons_swap]
  | trans h₁ h₂ ih₁ ih₂ => exact ih₁.trans ih₂

theorem unorderedPairs_of_perm {l m : List α} (h : l.Perm m) :
    unorderedPairs l = unorderedPairs m := by
  induction h with
  | nil => rfl
  | cons a h ih => rw [unorderedPairs_cons, unorderedPairs_cons, ih, unorderedSelections_of_perm h]
  | swap a b l =>
    -- the pair of the two is one pair, and the sums over the pairs of each change places
    simp only [unorderedPairs_cons, unorderedSelections_cons, Multiset.map_cons, Multiset.map_add,
      Multiset.map_map, Function.comp_def, Prod.map, id, Multiset.cons_swap a b, Multiset.cons_add,
      Multiset.pair_comm a b]
    rw [add_left_comm]
  | trans h₁ h₂ ih₁ ih₂ => exact ih₁.trans ih₂

/-- Two selections of one entry that leave over the same others, in whatever order. -/
def SelectsAlike (s t : α × List α) : Prop := s.1 = t.1 ∧ s.2.Perm t.2

/-- Two selections of the same two entries, in whatever order, that leave over the same
others. -/
def PairsAlike (s t : α × α × List α) : Prop :=
  [s.1, s.2.1].Perm [t.1, t.2.1] ∧ s.2.2.Perm t.2.2

/-- The condition is symmetric. -/
theorem PairsAlike.symm {s t : α × α × List α} (h : PairsAlike s t) : PairsAlike t s :=
  ⟨h.1.symm, h.2.symm⟩

/-- The selections from a list and from a permutation of it correspond one to one. -/
theorem rel_selections {l m : List α} (h : l.Perm m) :
    Multiset.Rel SelectsAlike (selections l : Multiset (α × List α)) (selections m) := by
  have hrel := Multiset.rel_map.1 (Multiset.rel_eq.2 (unorderedSelections_of_perm h))
  refine hrel.mono fun s _ t _ hst => ?_
  exact ⟨(Prod.mk.inj hst).1, Multiset.coe_eq_coe.1 (Prod.mk.inj hst).2⟩

/-- The pairs of a rearranged list correspond to those of the list. -/
theorem rel_pairSelections {l m : List α} (h : l.Perm m) :
    Multiset.Rel PairsAlike (pairSelections l : Multiset (α × α × List α)) (pairSelections m) := by
  have hrel := Multiset.rel_map.1 (Multiset.rel_eq.2 (unorderedPairs_of_perm h))
  refine hrel.mono fun s _ t _ hst => ?_
  exact ⟨Multiset.coe_eq_coe.1 (Prod.mk.inj hst).1, Multiset.coe_eq_coe.1 (Prod.mk.inj hst).2⟩

/-- Lists that are related member by member are so without order. -/
theorem rel_of_forall₂ {β : Type} {R : α → β → Prop} {l : List α} {m : List β}
    (h : List.Forall₂ R l m) : Multiset.Rel R (l : Multiset α) m := by
  induction h with
  | nil => exact .zero
  | cons hab h ih => exact .cons hab ih

end Selections

namespace Clause

/-! ## Clauses with the same literals -/

/-- The clauses come about by the operations on clauses and count as equal. -/
structure Equal (c d : Clause) : Prop where
  left : c.Made
  right : d.Made
  same : c.sameLiterals d = true

/-- Equal clauses have the same literals in some order, since none is repeated. -/
theorem Equal.perm {c d : Clause} (h : c.Equal d) : c.literals.Perm d.literals :=
  (List.perm_ext_iff_of_nodup h.left.nodup h.right.nodup).2
    ((sameLiterals_iff h.left.nodup h.right.nodup).1 h.same)

/-- The same literals, in whatever order. -/
def Alike (c d : Clause) : Prop := ∀ l, l ∈ c.literals ↔ l ∈ d.literals

/-- A derived clause has no literal twice. -/
theorem nodup_derivedBy (c : Clause) (rule : Rule) (parents : List (Option String)) :
    (c.derivedBy rule parents).literals.Nodup :=
  nodup_make _ _

/-- Clauses that are alike give clauses of the same literals when they are derived, whatever
their parents. -/
theorem Alike.derivedBy {c d : Clause} (h : c.Alike d) (rule : Rule)
    (parents parents' : List (Option String)) :
    (c.derivedBy rule parents).sameLiterals (d.derivedBy rule parents') = true := by
  refine (sameLiterals_iff (nodup_derivedBy ..) (nodup_derivedBy ..)).2 fun l => ?_
  rw [Clause.derivedBy, Clause.derivedBy, mem_make, mem_make]
  exact h l

/-! ## Factors -/

/-- The clauses are equal once the variables of the first are renamed. -/
def EqualRenamed (f g : Clause) : Prop := ∃ ρ : Equiv.Perm Nat, (f.rename ρ).sameLiterals g = true

end Clause

/-- Unifiers of the same propositions differ by a permutation of the variables. -/
theorem exists_perm_of_mgu {ps qs : List Proposition} (h : ps.Perm qs) {u v : Unifier}
    (hu : mgu ps = .ok u) (hv : mgu qs = .ok v) :
    ∃ ρ : Equiv.Perm Nat, v.toSubst = Substitution.comp (fun x => .var (ρ x)) u.toSubst := by
  have hvariants := variants_of_mgu (fun _ => h.mem_iff) hu hv
  obtain ⟨htriangular, -⟩ := triangular_confined_of_mgu hu
  obtain ⟨-, hconfined⟩ := triangular_confined_of_mgu hv
  obtain ⟨ρ, -, hρ⟩ := hvariants.exists_perm hconfined.within
  refine ⟨ρ, funext fun x => ?_⟩
  -- what the first unifier leaves of a variable is made of variables that it leaves alone
  calc v.toSubst x = (u.toSubst x).subst v.toSubst := (congrFun hvariants.left x).symm
    _ = (u.toSubst x).subst fun y => .var (ρ y) :=
        Term.subst_congr fun y hy => hρ y (htriangular.toSubst_eq_var_of_mem (t := .var x) hy)

namespace Clause

/-- A factor consists of the instances of all literals, since the literal left out has the same
image as the one kept. -/
theorem mem_literals_factor {rest : List Literal} {l m k : Literal} {w : Unifier}
    (hl : l.negated = false) (hm : m.negated = false) (hw : l.atom.unify m.atom = .ok w)
    {parents : List (Option String)} :
    k ∈ ((w.apply (ofLiterals (rest ++ [l]))).derivedBy .factoring parents).literals ↔
      ∃ j ∈ rest ++ [l, m], j.subst w.toSubst = k := by
  have happly : ∀ j : Literal, w.apply j = j.subst w.toSubst := fun j => w.apply_eq_subst j
  have hsame := subst_eq_of_unify hl hm hw
  simp only [mem_literals_derivedBy, happly, List.mem_append, List.mem_cons, List.not_mem_nil,
    or_false]
  constructor
  · rintro ⟨j, hj | rfl, rfl⟩
    · exact ⟨j, .inl hj, rfl⟩
    · exact ⟨j, .inr (.inl rfl), rfl⟩
  · rintro ⟨j, hj | rfl | rfl, rfl⟩
    · exact ⟨j, .inl hj, rfl⟩
    · exact ⟨j, .inr rfl, rfl⟩
    · exact ⟨l, .inr rfl, hsame.symm⟩

/-- Where one of two selections of the same literals has a factor, the other has one as
well, and the factors are equal after a renaming. -/
theorem exists_factorOf?_of_pairsAlike {c d f : Clause} {s t : Literal × Literal × List Literal}
    (h : PairsAlike s t) (hf : c.factorOf? s = some f) :
    ∃ g, d.factorOf? t = some g ∧ f.EqualRenamed g := by
  obtain ⟨l, m, rest⟩ := s
  obtain ⟨l', m', rest'⟩ := t
  obtain ⟨hpair, hrest⟩ : [l, m].Perm [l', m'] ∧ rest.Perm rest' := h
  obtain ⟨_, hfactor, rfl⟩ := factorOf?_eq_some_iff.1 hf
  obtain ⟨hl, hm, w, hw, rfl⟩ := factor_eq_ok_iff.1 hfactor
  have hpositive : ∀ k ∈ [l', m'], k.negated = false := by
    intro k hk
    rcases List.mem_pair.1 (hpair.mem_iff.2 hk) with rfl | rfl
    · exact hl
    · exact hm
  have hl' := hpositive l' (by simp)
  have hm' := hpositive m' (by simp)
  have hatoms : [Proposition.atom l.atom, .atom m.atom].Perm [.atom l'.atom, .atom m'.atom] :=
    hpair.map fun k : Literal => Proposition.atom k.atom
  obtain ⟨v, hv⟩ := exists_mgu_congr (fun _ => hatoms.mem_iff) ⟨w, hw⟩
  -- whichever literal comes first is bound to the other, so the unifiers are variants only
  obtain ⟨ρ, hρ⟩ := exists_perm_of_mgu hatoms hw hv
  refine ⟨_, factorOf?_eq_some_iff.2 ⟨_, factor_eq_ok_iff.2 ⟨hl', hm', v, hv, rfl⟩, rfl⟩, ρ, ?_⟩
  refine (sameLiterals_iff (nodup_map_subst_var ρ.injective (nodup_derivedBy ..))
    (nodup_derivedBy ..)).2 fun k => ?_
  have hrenamed : ∀ j : Literal,
      (j.subst w.toSubst).subst (fun x => .var (ρ x)) = j.subst v.toSubst := by
    intro j
    rw [hρ]
    exact LawfulSubst.subst_subst _ _ j
  have hliterals := hrest.append hpair
  rw [mem_literals_factor hl' hm' hv, rename, List.mem_map]
  simp only [mem_literals_factor hl hm hw, ← hliterals.mem_iff, ← hrenamed]
  constructor
  · rintro ⟨_, ⟨j, hj, rfl⟩, rfl⟩
    exact ⟨j, hj, rfl⟩
  · rintro ⟨j, hj, rfl⟩
    exact ⟨_, ⟨j, hj, rfl⟩, rfl⟩

/-- Pairs that are alike have factors that are equal up to renaming, or none. -/
theorem rel_factorOf? {c d : Clause} {s t : Literal × Literal × List Literal}
    (h : PairsAlike s t) :
    Multiset.Rel EqualRenamed ((c.factorOf? s).toList : Multiset Clause)
      (d.factorOf? t).toList := by
  rcases hf : c.factorOf? s with _ | f
  · rcases hg : d.factorOf? t with _ | g
    · exact .zero
    · obtain ⟨f, hf', -⟩ := exists_factorOf?_of_pairsAlike (d := c) h.symm hg
      rw [hf] at hf'
      exact nomatch hf'
  · obtain ⟨g, hg, hfg⟩ := exists_factorOf?_of_pairsAlike (d := d) h hf
    rw [hg]
    exact .cons hfg .zero

/-- The factors of a clause are those of its pairs. -/
theorem found_factors (c : Clause) :
    found c.factors = (pairSelections c.literals : Multiset (Literal × Literal × List Literal)).bind
      fun s => (c.factorOf? s).toList := by
  rw [factors, found_collect ⟨_, collect_eq_ok_filterMap c.factorsAt_eq _⟩]
  exact Multiset.bind_congr fun s _ => found_of_eq_ok (c.factorsAt_eq s)

/-- The factors of clauses with the same literals correspond one to one. -/
theorem rel_factors {c d : Clause} (h : c.literals.Perm d.literals) :
    Multiset.Rel EqualRenamed (found c.factors) (found d.factors) := by
  rw [found_factors, found_factors]
  exact Multiset.rel_bind (fun s t hst => rel_factorOf? hst) (rel_pairSelections h)

end Clause

/-! ## What a paramodulation settles on before it looks at the other literals -/

/-- How an equation can be used at a position of a literal: the unifier, and the literal
rewritten. -/
def rewriting (equation : Term × Term) (target : Literal) (position : Nat) :
    Except InferenceError (Unifier × Literal) := do
  let subterm ← target.atom.subtermAt position
  let u ← equation.1.unify subterm
  let replaced ← target.atom.replaceAt position equation.2
  pure (u, ⟨target.negated, replaced⟩)

/-- All ways to use an equation literal in another literal. -/
def literalRewritings (equation target : Literal) :
    Except InferenceError (List (Unifier × Literal)) :=
  match equation.equation? with
  | none => .error (.notEquation equation)
  | some (s, t) =>
    if s = t then .ok []
    else
      collect
        (fun position =>
          collect (fun e => productive (rewriting e target position)) equation.orientations)
        (List.range' 1 (target.atom.size - 1))

/-- The rewritings of one literal by another, if that is a positive equation. -/
def directedRewritings (one two : Literal) : Except InferenceError (List (Unifier × Literal)) :=
  if one.isPositiveEquality then literalRewritings one two else .ok []

/-- The conclusion put together from a rewriting and the other literals. -/
def conclusion (rest targetRest : List Literal) (s : Unifier × Literal) : Clause :=
  s.1.apply (Clause.ofLiterals (s.2 :: rest ++ targetRest))

section

variable {α β γ : Type}

/-- Passing over errors that mean no result commutes with what is done to the results. -/
theorem map_productive (f : β → γ) (x : Except InferenceError β) :
    List.map f <$> productive x = productive (f <$> x) := by
  rcases x with e | b
  · show List.map f <$> (if e.isUnproductive then _ else _) = (if e.isUnproductive then _ else _)
    split <;> rfl
  · rfl

/-- So does collecting. -/
theorem map_collect (f : β → γ) (g : α → Except InferenceError (List β)) (as : List α) :
    List.map f <$> collect g as = collect (fun a => List.map f <$> g a) as := by
  induction as with
  | nil => rfl
  | cons a as ih =>
    rw [collect, collect, ← ih]
    rcases g a with e | here
    · rfl
    · rcases collect g as with e | later
      · rfl
      · exact congrArg Except.ok List.map_append

end

/-- A paramodulant is made of the rewritten literal and the literals that are left. -/
theorem paramodulate_eq (rest : List Literal) (equation : Term × Term) (targetRest : List Literal)
    (target : Literal) (position : Nat) :
    paramodulate rest equation targetRest target position =
      conclusion rest targetRest <$> rewriting equation target position := by
  simp only [rewriting, map_bind, map_pure]
  rfl

/-- So are all paramodulants between two literals. -/
theorem literalParamodulants_eq (rest : List Literal) (equation : Literal)
    (targetRest : List Literal) (target : Literal) :
    literalParamodulants rest equation targetRest target =
      List.map (conclusion rest targetRest) <$> literalRewritings equation target := by
  rw [literalParamodulants, literalRewritings]
  rcases equation.equation? with _ | ⟨s, t⟩
  · rfl
  · by_cases hst : s = t
    · simp only [hst, if_true]
      rfl
    · simp only [if_neg hst, map_collect, map_productive, paramodulate_eq]

/-- So are those in one direction. -/
theorem directedParamodulants_eq (one two : Literal × List Literal) :
    directedParamodulants one two =
      List.map (conclusion one.2 two.2) <$> directedRewritings one.1 two.1 := by
  rw [directedParamodulants, directedRewritings, literalParamodulants_eq]
  split <;> rfl

/-! ## Paramodulants -/

/-- The same rewriting among the same other literals has the same conclusion. -/
theorem conclusion_alike {rest rest' targetRest targetRest' : List Literal}
    (h : rest.Perm rest') (h' : targetRest.Perm targetRest') (s : Unifier × Literal) :
    (conclusion rest targetRest s).Alike (conclusion rest' targetRest' s) := by
  have hliterals : (s.2 :: rest ++ targetRest).Perm (s.2 :: rest' ++ targetRest') :=
    (h.cons s.2).append h'
  intro l
  rw [conclusion, conclusion, Clause.mem_literals_apply, Clause.mem_literals_apply]
  simp only [Clause.ofLiterals, Clause.mem_make, hliterals.mem_iff]

/-- Selections that are alike have paramodulants that are alike, one by one. -/
theorem rel_directedParamodulants {s s' t t' : Literal × List Literal} (hs : SelectsAlike s s')
    (ht : SelectsAlike t t') :
    Multiset.Rel Clause.Alike (found (directedParamodulants s t))
      (found (directedParamodulants s' t')) := by
  rw [directedParamodulants_eq, directedParamodulants_eq, found_map, found_map, hs.1, ht.1,
    Multiset.rel_map]
  exact Multiset.rel_refl_of_refl_on fun r _ => conclusion_alike hs.2 ht.2 r

namespace Clause

variable {c c' given given' : Clause}

/-- Clauses of the same literals in some order have corresponding paramodulants. -/
theorem rel_uncited (hc : c.literals.Perm c'.literals)
    (hgiven : given.literals.Perm given'.literals) :
    Multiset.Rel Alike (c.uncited given) (c'.uncited given') := by
  refine Multiset.rel_bind (fun s s' hs => ?_) (rel_selections hc)
  refine Multiset.rel_bind (fun t t' ht => ?_) (rel_selections hgiven)
  exact (rel_directedParamodulants hs ht).add (rel_directedParamodulants ht hs)

/-- Whether two clauses have paramodulants at all depends on their literals only. -/
theorem exists_paramodulants_congr (hc : c.literals.Perm c'.literals)
    (hgiven : given.literals.Perm given'.literals) :
    (∃ rs, c.paramodulants given = .ok rs) ↔ ∃ rs, c'.paramodulants given' = .ok rs := by
  simp only [exists_paramodulants_iff, hc.mem_iff, hgiven.mem_iff]

/-- The same with the names of parents, which do not matter to equality. -/
theorem rel_found_paramodulants (hc : c.literals.Perm c'.literals)
    (hgiven : given.literals.Perm given'.literals) (h : ∃ rs, c.paramodulants given = .ok rs) :
    Multiset.Rel (fun r r' => r.sameLiterals r' = true) (found (c.paramodulants given))
      (found (c'.paramodulants given')) := by
  rw [found_paramodulants h, found_paramodulants ((exists_paramodulants_congr hc hgiven).1 h),
    Multiset.rel_map]
  exact (rel_uncited hc hgiven).mono fun r _ r' _ hrr' => hrr'.derivedBy _ _ _

end Clause

section

variable {processed processed' : List Clause} {given given' : Clause}

/-- Whether enumeration succeeds is the same for equal clauses. -/
theorem exists_paramodulants_congr (h : List.Forall₂ Clause.Equal processed processed')
    (hgiven : given.Equal given') :
    (∃ rs, paramodulants processed given = .ok rs) ↔
      ∃ rs, paramodulants processed' given' = .ok rs := by
  rw [paramodulants, paramodulants, exists_collect_iff, exists_collect_iff]
  induction h with
  | nil => simp
  | cons hc h ih =>
    rw [List.forall_mem_cons, List.forall_mem_cons, ih,
      Clause.exists_paramodulants_congr hc.perm hgiven.perm]

/-- The paramodulants of equal clauses correspond to each other. -/
theorem rel_paramodulants (h : List.Forall₂ Clause.Equal processed processed')
    (hgiven : given.Equal given') {rs rs' : List Clause}
    (hrs : paramodulants processed given = .ok rs)
    (hrs' : paramodulants processed' given' = .ok rs') :
    Multiset.Rel (fun r r' => r.sameLiterals r' = true) (rs : Multiset Clause) rs' := by
  rw [← found_of_eq_ok hrs, ← found_of_eq_ok hrs', paramodulants, paramodulants,
    found_collect ⟨rs, hrs⟩, found_collect ⟨rs', hrs'⟩]
  -- every processed clause has been gone through with success
  have hrel : Multiset.Rel (fun c c' : Clause => c.literals.Perm c'.literals ∧
      ∃ part, c.paramodulants given = .ok part) (processed : Multiset Clause) processed' :=
    (rel_of_forall₂ h).mono fun c hc c' _ hcc' =>
      ⟨hcc'.perm, exists_collect_iff.1 ⟨rs, hrs⟩ c (Multiset.mem_coe.1 hc)⟩
  exact Multiset.rel_bind (fun c c' hcc' =>
    Clause.rel_found_paramodulants hcc'.1 hgiven.perm hcc'.2) hrel

end

/-- **Inference respects equality of clauses.** Take clauses that come about by the operations
on clauses and count as equal. Then the factors of the one correspond one to one to the
factors of the other, and are equal to them after a permutation of the variables. With equal
given clauses, and processed ones that are equal one by one, either both enumerations of
paramodulants fail, or the clauses in the two lists correspond one to one and are equal. -/
theorem inferences_of_equal :
    (∀ c d : Clause, c.Equal d → ∃ fs gs, c.factors = .ok fs ∧ d.factors = .ok gs ∧
      Multiset.Rel (fun f g => ∃ ρ : Equiv.Perm Nat, (f.rename ρ).sameLiterals g = true)
        (fs : Multiset Clause) gs) ∧
    ∀ (processed processed' : List Clause) (given given' : Clause),
      List.Forall₂ Clause.Equal processed processed' → given.Equal given' →
        ((∃ rs, paramodulants processed given = .ok rs) ↔
          ∃ rs, paramodulants processed' given' = .ok rs) ∧
        ∀ rs rs', paramodulants processed given = .ok rs →
          paramodulants processed' given' = .ok rs' →
            Multiset.Rel (fun r r' => r.sameLiterals r' = true) (rs : Multiset Clause) rs' := by
  refine ⟨fun c d h => ?_, fun processed processed' given given' h hgiven => ?_⟩
  · have hrel := Clause.rel_factors h.perm
    rw [found_of_eq_ok c.factors_eq, found_of_eq_ok d.factors_eq] at hrel
    exact ⟨_, _, c.factors_eq, d.factors_eq, hrel⟩
  · exact ⟨exists_paramodulants_congr h hgiven, fun rs rs' => rel_paramodulants h hgiven⟩

/-- `p1(X0) | p1(X1) | p2` read forwards and backwards: the one factor is left with `X1` and the
other with `X0`. Likewise `f1 = f2 | p2` and `p1(f1) | p3 | p4` read in both ways: the
paramodulants list the same literals in two orders. -/
theorem inferences_of_equal_reversed :
    (Clause.ofLiterals [.pos ⟨1, [.var 0]⟩, .pos ⟨1, [.var 1]⟩, .pos ⟨2, []⟩]).Equal
      (Clause.ofLiterals [.pos ⟨2, []⟩, .pos ⟨1, [.var 1]⟩, .pos ⟨1, [.var 0]⟩]) ∧
    Multiset.Rel (fun f g : Clause => ∃ ρ : Equiv.Perm Nat, (f.rename ρ).sameLiterals g = true)
      ([⟨[.pos ⟨2, []⟩, .pos ⟨1, [.var 1]⟩], .derived .factoring [none]⟩] : List Clause)
      ([⟨[.pos ⟨2, []⟩, .pos ⟨1, [.var 0]⟩], .derived .factoring [none]⟩] : List Clause) ∧
    Multiset.Rel (fun r r' : Clause => r.sameLiterals r' = true)
      ([⟨[.pos ⟨1, [.app 2 []]⟩, .pos ⟨2, []⟩, .pos ⟨3, []⟩, .pos ⟨4, []⟩],
        .derived .paramodulation [none, none]⟩] : List Clause)
      ([⟨[.pos ⟨1, [.app 2 []]⟩, .pos ⟨2, []⟩, .pos ⟨4, []⟩, .pos ⟨3, []⟩],
        .derived .paramodulation [none, none]⟩] : List Clause) := by
  obtain ⟨hfactors, hparamodulants⟩ := inferences_of_equal
  have hequal : (Clause.ofLiterals [.pos ⟨1, [.var 0]⟩, .pos ⟨1, [.var 1]⟩, .pos ⟨2, []⟩]).Equal
      (Clause.ofLiterals [.pos ⟨2, []⟩, .pos ⟨1, [.var 1]⟩, .pos ⟨1, [.var 0]⟩]) :=
    ⟨.make _ _, .make _ _, by decide +kernel⟩
  refine ⟨hequal, ?_, ?_⟩
  · obtain ⟨fs, gs, hfs, hgs, hrel⟩ := hfactors _ _ hequal
    have hforwards : fs = [⟨[.pos ⟨2, []⟩, .pos ⟨1, [.var 1]⟩], .derived .factoring [none]⟩] :=
      Except.ok.inj (hfs.symm.trans (by decide +kernel))
    have hbackwards : gs = [⟨[.pos ⟨2, []⟩, .pos ⟨1, [.var 0]⟩], .derived .factoring [none]⟩] :=
      Except.ok.inj (hgs.symm.trans (by decide +kernel))
    rwa [hforwards, hbackwards] at hrel
  · have hprocessed : (Clause.ofLiterals
        [.pos (.equation (.app 1 []) (.app 2 [])), .pos ⟨2, []⟩]).Equal
          (Clause.ofLiterals [.pos ⟨2, []⟩, .pos (.equation (.app 1 []) (.app 2 []))]) :=
      ⟨.make _ _, .make _ _, by decide +kernel⟩
    have hgiven : (Clause.ofLiterals [.pos ⟨1, [.app 1 []]⟩, .pos ⟨3, []⟩, .pos ⟨4, []⟩]).Equal
        (Clause.ofLiterals [.pos ⟨4, []⟩, .pos ⟨3, []⟩, .pos ⟨1, [.app 1 []]⟩]) :=
      ⟨.make _ _, .make _ _, by decide +kernel⟩
    exact (hparamodulants _ _ _ _ (.cons hprocessed .nil) hgiven).2 _ _ (by decide +kernel)
      (by decide +kernel)

end Clausal
