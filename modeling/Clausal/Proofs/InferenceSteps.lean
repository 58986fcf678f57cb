/-
Inference steps. An enumeration of inferences lists clauses, and nothing in a clause says
by which literals, at which position and with which unifier it was drawn. The relations
`Clause.FactorStep` and `Clause.ParamodulationStep` name all of this, in terms of places in
the premises, and leave out how the places are gone through.

Every clause that an enumeration lists is the conclusion of such a step between its
premises (`Clause.exists_factorStep`, `exists_paramodulationStep`). What a step preserves
is therefore preserved by the enumeration, and is proved of the step alone.
-/
import Clausal.Proofs.Factors
import Clausal.Proofs.ParamodulationSoundness

set_option autoImplicit false

universe u

namespace Clausal

/-- What has been selected stands at some place, and what is left is the rest of the list. -/
theorem exists_getElem?_of_mem_selections {α : Type} {l : List α} {s : α × List α}
    (h : s ∈ selections l) : ∃ i : Nat, l[i]? = some s.1 ∧ s.2 = l.eraseIdx i := by
  obtain ⟨i, hi⟩ := List.mem_iff_getElem?.1 h
  rw [getElem?_selections] at hi
  obtain ⟨a, ha, rfl⟩ := Option.map_eq_some_iff.1 hi
  exact ⟨i, ha, rfl⟩

/-- What holds of both entries of a pair holds of both with the pair turned round. -/
theorem forall_of_eq_or_eq_swap {α : Type} (P : α → Prop) {a b c d : α}
    (h : (c, d) = (a, b) ∨ (c, d) = (b, a)) (ha : P a) (hb : P b) : P c ∧ P d := by
  rcases h with h | h
  · obtain ⟨rfl, rfl⟩ := Prod.mk.inj h
    exact ⟨ha, hb⟩
  · obtain ⟨rfl, rfl⟩ := Prod.mk.inj h
    exact ⟨hb, ha⟩

namespace Clause

/-- The literals of a conclusion are the instances of those that the rule puts together. -/
theorem mem_literals_derivedBy {w : Unifier} {ls : List Literal} {rule : Rule}
    {parents : List (Option String)} {l : Literal} :
    l ∈ ((w.apply (ofLiterals ls)).derivedBy rule parents).literals ↔ ∃ m ∈ ls, w.apply m = l := by
  rw [derivedBy, mem_make, mem_literals_apply]
  simp only [ofLiterals, mem_make]

/-- What is derived has a literal if there is one to bind. -/
theorem literals_derivedBy_ne_nil {w : Unifier} {ls : List Literal} (hne : ls ≠ []) {rule : Rule}
    {parents : List (Option String)} :
    ((w.apply (ofLiterals ls)).derivedBy rule parents).literals ≠ [] := by
  obtain ⟨l, hl⟩ := List.exists_mem_of_ne_nil ls hne
  exact List.ne_nil_of_mem (mem_literals_derivedBy.2 ⟨l, hl, rfl⟩)

/-! ## Factors -/

/-- Two positive literals of the clause unify, and the clause without the second one
follows under their unifier. -/
inductive FactorStep (c : Clause) : Unifier → Clause → Prop where
  | merge {i j : Nat} {l m : Literal} {w : Unifier} (lt : i < j)
    (left : c.literals[i]? = some l) (right : c.literals[j]? = some m)
    (left_pos : l.negated = false) (right_pos : m.negated = false)
    (unify : l.atom.unify m.atom = .ok w) :
    FactorStep c w
      ((w.apply (ofLiterals ((c.literals.eraseIdx j).eraseIdx i ++ [l]))).derivedBy .factoring
        [c.label?])

/-- Every factor listed is the conclusion of a step. -/
theorem exists_factorStep {c f : Clause} {fs : List Clause} (h : c.factors = .ok fs)
    (hf : f ∈ fs) : ∃ w, c.FactorStep w f := by
  rw [c.factors_eq] at h
  rw [← Except.ok.inj h] at hf
  obtain ⟨⟨i, j⟩, hij, hf⟩ := List.mem_filterMap.1 hf
  obtain ⟨l, m, hl, hm, g, hg, rfl⟩ := factorAt?_eq_some_iff.1 hf
  obtain ⟨hlpos, hmpos, w, hw, rfl⟩ := factor_eq_ok_iff.1 hg
  exact ⟨w, .merge (mem_indexPairs.1 hij).1 hl hm hlpos hmpos hw⟩

/-- A factor is not empty, since one literal is kept. -/
theorem FactorStep.literals_ne_nil {c f : Clause} {w : Unifier} (h : c.FactorStep w f) :
    f.literals ≠ [] := by
  cases h
  exact literals_derivedBy_ne_nil (by simp)

/-- A factor has no literal twice. -/
theorem FactorStep.nodup {c f : Clause} {w : Unifier} (h : c.FactorStep w f) :
    f.literals.Nodup := by
  cases h
  exact nodup_make _ _

theorem FactorStep.provenance_eq {c f : Clause} {w : Unifier} (h : c.FactorStep w f) :
    f.provenance = .derived .factoring [c.label?] := by
  cases h
  rfl

/-- The literals merged and kept are literals of the clause. -/
theorem mem_of_mem_merged {c : Clause} {i j : Nat} {l k : Literal}
    (left : c.literals[i]? = some l) (hk : k ∈ (c.literals.eraseIdx j).eraseIdx i ++ [l]) :
    k ∈ c.literals := by
  rcases List.mem_append.1 hk with hk | hk
  · exact List.mem_of_mem_eraseIdx (List.mem_of_mem_eraseIdx hk)
  · rw [List.mem_singleton.1 hk]
    exact List.mem_of_getElem? left

/-- **A factor follows** from the clause. -/
theorem FactorStep.entails {c f : Clause} {w : Unifier} (h : c.FactorStep w f) :
    Entails.{u} [c] f := by
  rcases h with @⟨i, j, l, m, w, lt, left, right, left_pos, right_pos, unify⟩
  have hfactor : factor ((c.literals.eraseIdx j).eraseIdx i) l m = .ok _ :=
    factor_eq_ok_iff.2 ⟨left_pos, right_pos, w, unify, rfl⟩
  intro D _ M hpremises
  -- the clause is the disjunction of the two literals and the others
  have hvalid := entails_of_factor hfactor D M <| List.forall_mem_singleton.2 fun v =>
    (hpremises c (List.mem_singleton_self c) v).mono fun k hk =>
      mem_make.2 ((mem_iff_of_getElem?_pair lt left right).1 hk)
  exact fun v => (hvalid v).mono fun k => mem_make.2

/-! ## Paramodulants -/

/-- One of the two clauses has an equation, in one of its directions, whose left side
unifies with a subterm of a literal of the other clause, and the right side is put in the
place of the subterm. -/
inductive ParamodulationStep (c given : Clause) : Unifier → Clause → Prop where
  | rewrite {one two : Clause} {i j p : Nat} {s t lhs rhs u : Term} {target : Literal} {a : Atom}
    {w : Unifier} (premises : (one, two) = (c, given) ∨ (one, two) = (given, c))
    (equation : one.literals[i]? = some (.pos (.equation s t)))
    (direction : (lhs, rhs) = (s, t) ∨ (lhs, rhs) = (t, s))
    (target_mem : two.literals[j]? = some target) (subterm : target.atom.subtermAt p = .ok u)
    (unify : lhs.unify u = .ok w) (replace : target.atom.replaceAt p rhs = .ok a) :
    ParamodulationStep c given w
      ((w.apply (ofLiterals (⟨target.negated, a⟩ :: one.literals.eraseIdx i ++
        two.literals.eraseIdx j))).derivedBy .paramodulation [c.label?, given.label?])

section

variable {c given r : Clause} {w : Unifier}

/-- A paramodulant is not empty, since the rewritten literal is in it. -/
theorem ParamodulationStep.literals_ne_nil (h : c.ParamodulationStep given w r) :
    r.literals ≠ [] := by
  cases h
  exact literals_derivedBy_ne_nil (by simp)

/-- A paramodulant has no literal twice. -/
theorem ParamodulationStep.nodup (h : c.ParamodulationStep given w r) : r.literals.Nodup := by
  cases h
  exact nodup_make _ _

theorem ParamodulationStep.provenance_eq (h : c.ParamodulationStep given w r) :
    r.provenance = .derived .paramodulation [c.label?, given.label?] := by
  cases h
  rfl

end

/-- What one direction between two selections lists is the conclusion of a step, once it
is cited. -/
theorem exists_step_of_mem_directedParamodulants {c given one two : Clause}
    (premises : (one, two) = (c, given) ∨ (one, two) = (given, c)) {s t : Literal × List Literal}
    (hs : s ∈ selections one.literals) (ht : t ∈ selections two.literals) {ds : List Clause}
    (h : directedParamodulants s t = .ok ds) {d : Clause} (hd : d ∈ ds) :
    ∃ w, ParamodulationStep c given w
      (d.derivedBy .paramodulation [c.label?, given.label?]) := by
  unfold directedParamodulants at h
  split at h
  · obtain ⟨lhs, rhs, hequation, e, direction, p, hd⟩ := exists_of_mem_literalParamodulants h hd
    obtain ⟨u, w, a, subterm, unify, replace, rfl⟩ := paramodulate_eq_ok hd
    obtain ⟨i, hi, hrest⟩ := exists_getElem?_of_mem_selections hs
    obtain ⟨j, hj, hrest'⟩ := exists_getElem?_of_mem_selections ht
    rw [hequation] at hi
    rw [hrest, hrest']
    exact ⟨w, .rewrite premises hi direction hj subterm unify replace⟩
  · rw [← Except.ok.inj h] at hd
    exact absurd hd List.not_mem_nil

end Clause

/-- Every paramodulant listed is the conclusion of a step between the given clause and a
processed one. -/
theorem exists_paramodulationStep {processed : List Clause} {given : Clause} {rs : List Clause}
    (h : paramodulants processed given = .ok rs) {r : Clause} (hr : r ∈ rs) :
    ∃ c ∈ processed, ∃ w, c.ParamodulationStep given w r := by
  obtain ⟨c, hc, part, hpart, hr⟩ := (mem_iff_of_collect_eq_ok h).1 hr
  obtain ⟨s, hs, t, ht, ds, hds, d, hd, rfl⟩ := Clause.exists_of_mem_paramodulants hpart hr
  refine ⟨c, hc, ?_⟩
  -- the one selection is used in the other, or the other way round
  rw [selectionParamodulants_eq] at hds
  obtain ⟨forward, hforward, hds⟩ := bind_eq_ok_iff.1 hds
  obtain ⟨backward, hbackward, hds⟩ := bind_eq_ok_iff.1 hds
  rw [← Except.ok.inj hds, List.mem_append] at hd
  rcases hd with hd | hd
  · exact Clause.exists_step_of_mem_directedParamodulants (.inl rfl) hs ht hforward hd
  · exact Clause.exists_step_of_mem_directedParamodulants (.inr rfl) ht hs hbackward hd

end Clausal
