/-
Factors: which there are, that they follow, and that none is missing.

A factor merges two positive literals that unify. Under the unifier the two are one
literal, so leaving one of them out loses nothing, and the factor follows from the
clause in every interpretation (`entails_of_factor`). The same fact read from the other
side is the completeness of the rule: a substitution that makes the two literals equal
sees the factor and the clause as the same set of literals (`instances_of_factor`).

The enumeration tries the pairs of literals in the lexicographic order of their places.
Unification fails only by finding that there is no unifier, and the enumeration passes
over such failures, so it never fails itself (`Clause.factors_eq`). Its list has one entry
for each pair of positive literals with a common instance, in the order of the pairs
(`factors_complete`).
-/
import Clausal.Factoring
import Clausal.Proofs.Lifting
import Mathlib.Data.List.Forall2

set_option autoImplicit false

universe u

namespace Clausal

/-! ## One factor -/

/-- A factor exists if both literals are positive and their atoms unify, and it is the
clause without the second literal under the unifier. -/
theorem factor_eq_ok_iff {rest : List Literal} {l m : Literal} {f : Clause} :
    factor rest l m = .ok f ↔ l.negated = false ∧ m.negated = false ∧
      ∃ w, l.atom.unify m.atom = .ok w ∧ w.apply (Clause.ofLiterals (rest ++ [l])) = f := by
  rw [factor]
  by_cases h : (l.negated || m.negated) = true
  · rw [if_pos h]
    constructor
    · intro hf
      exact nomatch hf
    · rintro ⟨hl, hm, -⟩
      rw [hl, hm] at h
      exact absurd h (by decide)
  -- both are positive, and unification decides
  · rw [if_neg h, bind_eq_ok_iff]
    rw [Bool.or_eq_true, not_or, Bool.not_eq_true, Bool.not_eq_true] at h
    constructor
    · rintro ⟨w, hw, hf⟩
      exact ⟨h.1, h.2, w, hw, Except.ok.inj hf⟩
    · rintro ⟨-, -, w, hw, rfl⟩
      exact ⟨w, hw, rfl⟩

/-- The unifier of two positive literals makes them equal. -/
theorem subst_eq_of_unify {l m : Literal} {w : Unifier} (hl : l.negated = false)
    (hm : m.negated = false) (hw : l.atom.unify m.atom = .ok w) :
    m.subst w.toSubst = l.subst w.toSubst := by
  rw [Literal.subst, Literal.subst, hl, hm, Atom.subst_eq_of_unify hw]

/-- **One factor is sound.** It follows from the disjunction of the literals it is made
from. -/
theorem entails_of_factor {rest : List Literal} {l m : Literal} {f : Clause}
    (h : factor rest l m = .ok f) : Entails.{u} [Clause.ofLiterals (rest ++ [l, m])] f := by
  obtain ⟨hl, hm, w, hw, rfl⟩ := factor_eq_ok_iff.1 h
  intro D _ M hpremises v
  rw [M.someHolds_apply]
  obtain ⟨k, hk, hholds⟩ := hpremises _ (List.mem_singleton_self _) (M.pullback v w.toSubst)
  have hk : k ∈ rest ∨ k = l ∨ k = m := by
    simpa only [List.mem_append, List.mem_cons, List.not_mem_nil, or_false] using
      Clause.mem_make.1 hk
  rcases hk with hk | rfl | rfl
  · exact ⟨k, Clause.mem_make.2 (by simp [hk]), hholds⟩
  · exact ⟨k, Clause.mem_make.2 (by simp), hholds⟩
  · -- the literal left out has become the one kept
    refine ⟨l, Clause.mem_make.2 (by simp), ?_⟩
    rw [← M.holds_subst, ← subst_eq_of_unify hl hm hw, M.holds_subst]
    exact hholds

/-- A substitution that makes the two literals equal sees the factor as the literals it
is made from. -/
theorem instances_of_factor {rest : List Literal} {l m : Literal} {f : Clause}
    (h : factor rest l m = .ok f) {θ : Nat → Term} (hθ : l.subst θ = m.subst θ) :
    instances θ f.literals = instances θ (rest ++ [l, m]) := by
  obtain ⟨-, -, w, hw, rfl⟩ := factor_eq_ok_iff.1 h
  have hatoms : l.atom.subst θ = m.atom.subst θ := congrArg Literal.atom hθ
  have hcomp := comp_eq_of_mgu_eq_ok hw (unifies_pair.2 (congrArg Proposition.atom hatoms))
  rw [instances_apply hcomp, Clause.ofLiterals, instances_make, instances_append,
    instances_append, instances_cons, instances_cons, instances_cons, hθ, ← Set.union_assoc {_},
    Set.union_self]

/-! ## Pairs of places -/

/-- The pairs of places below a bound, the smaller place first, in lexicographic
order. -/
def indexPairs : Nat → List (Nat × Nat)
  | 0 => []
  | n + 1 =>
    ((List.range n).map fun j => (0, j + 1)) ++ (indexPairs n).map fun ij => (ij.1 + 1, ij.2 + 1)

/-- All pairs of different places are gone through, the smaller place first. -/
theorem mem_indexPairs {n i j : Nat} : (i, j) ∈ indexPairs n ↔ i < j ∧ j < n := by
  induction n generalizing i j with
  | zero => simp [indexPairs]
  | succ n ih =>
    rw [indexPairs, List.mem_append, List.mem_map, List.mem_map]
    constructor
    · rintro (⟨k, hk, hij⟩ | ⟨⟨i', j'⟩, hij', hij⟩)
      · obtain ⟨rfl, rfl⟩ := Prod.mk.inj hij
        rw [List.mem_range] at hk
        omega
      · obtain ⟨rfl, rfl⟩ := Prod.mk.inj hij
        have := ih.1 hij'
        omega
    · rintro ⟨hij, hj⟩
      -- the pair begins with the first place, or all of it is one place further on
      rcases i with _ | i
      · exact .inl ⟨j - 1, List.mem_range.2 (by omega), by rw [Nat.sub_add_cancel (by omega)]⟩
      · exact .inr ⟨(i, j - 1), ih.2 (by omega), by
          rw [Nat.sub_add_cancel (by omega)]⟩

/-- And this in lexicographic order. -/
theorem pairwise_indexPairs (n : Nat) :
    (indexPairs n).Pairwise (Prod.Lex (· < ·) (· < ·)) := by
  induction n with
  | zero => exact List.Pairwise.nil
  | succ n ih =>
    rw [indexPairs, List.pairwise_append, List.pairwise_map, List.pairwise_map]
    -- the pairs of the first place, the other pairs, and the ones before the others
    refine ⟨?_, ?_, ?_⟩
    · exact List.pairwise_lt_range.imp fun h => Prod.Lex.right 0 (by omega)
    · refine ih.imp fun {a b} h => ?_
      rcases Prod.lex_def.1 h with h | ⟨h, h'⟩
      · exact Prod.Lex.left _ _ (by omega)
      · rw [h]
        exact Prod.Lex.right _ (by omega)
    · intro a ha b hb
      obtain ⟨j, -, rfl⟩ := List.mem_map.1 ha
      obtain ⟨ij, -, rfl⟩ := List.mem_map.1 hb
      exact Prod.Lex.left _ _ (by omega)

section Selections

variable {α : Type}

/-- The entries at two places of a list, with the list of all others. -/
def pairAt? (l : List α) (ij : Nat × Nat) : Option (α × α × List α) :=
  match l[ij.1]?, l[ij.2]? with
  | some a, some b => some (a, b, (l.eraseIdx ij.2).eraseIdx ij.1)
  | _, _ => none

/-- What is selected at two places are the members there, and the rest of the list. -/
theorem pairAt?_eq_some_iff {l : List α} {i j : Nat} {s : α × α × List α} :
    pairAt? l (i, j) = some s ↔ ∃ a b, l[i]? = some a ∧ l[j]? = some b ∧
      s = (a, b, (l.eraseIdx j).eraseIdx i) := by
  rw [pairAt?]
  rcases l[i]? with _ | a <;> rcases l[j]? with _ | b <;> simp [eq_comm]

theorem selections_eq_filterMap (l : List α) :
    selections l =
      (List.range l.length).filterMap fun i => l[i]?.map fun a => (a, l.eraseIdx i) := by
  induction l with
  | nil => rfl
  | cons a l ih =>
    rw [selections, ih, List.length_cons, List.range_succ_eq_map, List.filterMap_cons,
      List.filterMap_map, List.map_filterMap]
    simp [Function.comp_def]

/-- Selecting two entries is selecting a pair of places. -/
theorem pairSelections_eq_filterMap (l : List α) :
    pairSelections l = (indexPairs l.length).filterMap (pairAt? l) := by
  induction l with
  | nil => rfl
  | cons a l ih =>
    rw [pairSelections, List.length_cons, indexPairs, List.filterMap_append, List.filterMap_map,
      List.filterMap_map, selections_eq_filterMap, ih, List.map_filterMap, List.map_filterMap]
    congr 1
    · refine List.filterMap_congr fun j _ => ?_
      simp only [pairAt?, Function.comp_apply]
      rcases hj : l[j]? with _ | b <;> simp [hj]
    · refine List.filterMap_congr fun ij _ => ?_
      simp only [pairAt?, Function.comp_apply, List.getElem?_cons_succ]
      rcases l[ij.1]? with _ | b <;> rcases l[ij.2]? with _ | b' <;> simp

end Selections

/-! ## The enumeration -/

/-- Unification fails in one way only. -/
theorem exists_of_mgu_eq_error {ps : List Proposition} {e : InferenceError}
    (h : mgu ps = .error e) : ∃ l r, e = .nonUnifiable l r := by
  obtain ⟨n, v, -, -, ⟨-, hu⟩ | ⟨l, r, -, he⟩⟩ := mgu_ends ps
  · rw [hu] at h
    exact nomatch h
  · rw [he] at h
    exact ⟨l, r, (Except.error.inj h).symm⟩

/-- An enumeration passes over what does not unify. -/
theorem isUnproductive_of_mgu_eq_error {ps : List Proposition} {e : InferenceError}
    (h : mgu ps = .error e) : e.isUnproductive = true := by
  obtain ⟨l, r, rfl⟩ := exists_of_mgu_eq_error h
  rfl

namespace Clause

/-- The factor cited for two literals of a clause and the others, if there is one. -/
def factorOf? (c : Clause) (s : Literal × Literal × List Literal) : Option Clause :=
  (factor s.2.2 s.1 s.2.1).toOption.map (·.derivedBy .factoring [c.label?])

theorem factorOf?_eq_some_iff {c f : Clause} {l m : Literal} {rest : List Literal} :
    c.factorOf? (l, m, rest) = some f ↔
      ∃ g, factor rest l m = .ok g ∧ f = g.derivedBy .factoring [c.label?] := by
  rw [factorOf?]
  rcases factor rest l m with e | g <;> simp [Except.toOption, eq_comm]

/-- Every pair of literals contributes its factor or nothing, and never fails. -/
theorem factorsAt_eq (c : Clause) (s : Literal × Literal × List Literal) :
    c.factorsAt s = .ok (c.factorOf? s).toList := by
  obtain ⟨l, m, rest⟩ := s
  rw [factorsAt, factorOf?]
  by_cases hpos : (l.isPositive && m.isPositive) = true
  · rw [if_pos hpos]
    rcases hf : factor rest l m with e | g
    · -- both are positive, so it is unification that has failed
      have he : e.isUnproductive = true := by
        simp only [Literal.isPositive, Bool.and_eq_true, Bool.not_eq_true'] at hpos
        rw [factor, hpos.1, hpos.2] at hf
        rcases hw : l.atom.unify m.atom with e' | w
        · rw [hw] at hf
          rw [← Except.error.inj hf]
          exact isUnproductive_of_mgu_eq_error hw
        · rw [hw] at hf
          exact nomatch hf
      show (if e.isUnproductive then _ else _) = _
      rw [if_pos he]
      rfl
    · rfl
  · rw [if_neg hpos]
    rcases hf : factor rest l m with e | g
    · rfl
    · obtain ⟨hl, hm, -⟩ := factor_eq_ok_iff.1 hf
      rw [Literal.isPositive, Literal.isPositive, hl, hm] at hpos
      exact absurd rfl hpos

/-- The factor of a clause for two places, if there is one. -/
def factorAt? (c : Clause) (ij : Nat × Nat) : Option Clause :=
  (pairAt? c.literals ij).bind c.factorOf?

/-- **The factors of a clause** are those of the single pairs of places, in the order of
the pairs. -/
theorem factors_eq (c : Clause) :
    c.factors = .ok ((indexPairs c.literals.length).filterMap c.factorAt?) := by
  rw [factors, collect_eq_ok_filterMap c.factorsAt_eq, pairSelections_eq_filterMap,
    List.filterMap_filterMap]
  rfl

theorem factorAt?_eq_some_iff {c f : Clause} {i j : Nat} :
    c.factorAt? (i, j) = some f ↔ ∃ l m, c.literals[i]? = some l ∧ c.literals[j]? = some m ∧
      ∃ g, factor ((c.literals.eraseIdx j).eraseIdx i) l m = .ok g ∧
        f = g.derivedBy .factoring [c.label?] := by
  rw [factorAt?, Option.bind_eq_some_iff]
  constructor
  · rintro ⟨_, hs, hf⟩
    obtain ⟨l, m, hl, hm, rfl⟩ := pairAt?_eq_some_iff.1 hs
    exact ⟨l, m, hl, hm, factorOf?_eq_some_iff.1 hf⟩
  · rintro ⟨l, m, hl, hm, hf⟩
    exact ⟨_, pairAt?_eq_some_iff.2 ⟨l, m, hl, hm, rfl⟩, factorOf?_eq_some_iff.2 hf⟩

end Clause

/-- Two entries taken out of a list and those left over are the entries of the list. -/
theorem mem_iff_of_getElem?_pair {α : Type} {l : List α} {i j : Nat} (hij : i < j) {a b : α}
    (ha : l[i]? = some a) (hb : l[j]? = some b) {c : α} :
    c ∈ l ↔ c ∈ (l.eraseIdx j).eraseIdx i ++ [a, b] := by
  have ha' : (l.eraseIdx j)[i]? = some a := by rw [List.getElem?_eraseIdx_of_lt hij, ha]
  rw [mem_iff_of_mem_selections (mem_selections_of_getElem? hb), List.mem_cons,
    mem_iff_of_mem_selections (mem_selections_of_getElem? ha')]
  simp only [List.mem_cons, List.mem_append, List.not_mem_nil, or_false]
  tauto

/-! ## Soundness -/

/-- **Factoring is sound.** The enumeration succeeds, and every clause in it is cited as
a factor of the given one and follows from it, whatever equality is taken to mean. So does
what a single application of the rule yields from any literals. -/
theorem factors_entails (c : Clause) :
    (∃ fs, c.factors = .ok fs ∧ ∀ f ∈ fs,
        f.rule? = some .factoring ∧ f.parents = [c.label?] ∧ Entails.{u} [c] f) ∧
      ∀ (rest : List Literal) (l m : Literal) (f : Clause), factor rest l m = .ok f →
        Entails.{u} [Clause.ofLiterals (rest ++ [l, m])] f := by
  refine ⟨⟨_, c.factors_eq, ?_⟩, fun rest l m f h => entails_of_factor h⟩
  intro f hf
  obtain ⟨⟨i, j⟩, hij, hf⟩ := List.mem_filterMap.1 hf
  obtain ⟨l, m, hl, hm, g, hg, rfl⟩ := Clause.factorAt?_eq_some_iff.1 hf
  refine ⟨rfl, rfl, fun D _ M hpremises v => ?_⟩
  have hmem := @mem_iff_of_getElem?_pair _ _ _ _ (mem_indexPairs.1 hij).1 _ _ hl hm
  -- the clause is the disjunction of the two literals and the others
  have hvalid := entails_of_factor hg D M <| by
    intro p hp w
    rw [List.mem_singleton.1 hp]
    exact (hpremises c (List.mem_singleton_self c) w).mono fun k hk =>
      Clause.mem_make.2 (hmem.1 hk)
  exact (hvalid v).mono fun k => Clause.mem_make.2

/-- `p1(X0)` and `p1(f0(X1))` beside `~p2(X0)`: the literal kept and the one beside it are
both instantiated. -/
theorem factors_entails_instance :
    factor [.neg ⟨2, [.var 0]⟩] (.pos ⟨1, [.var 0]⟩) (.pos ⟨1, [.app 0 [.var 1]]⟩) =
      .ok ⟨[.neg ⟨2, [.app 0 [.var 1]]⟩, .pos ⟨1, [.app 0 [.var 1]]⟩], .unnamed⟩ ∧
    Entails.{0} [Clause.ofLiterals
        [.neg ⟨2, [.var 0]⟩, .pos ⟨1, [.var 0]⟩, .pos ⟨1, [.app 0 [.var 1]]⟩]]
      ⟨[.neg ⟨2, [.app 0 [.var 1]]⟩, .pos ⟨1, [.app 0 [.var 1]]⟩], .unnamed⟩ := by
  have h : factor [.neg ⟨2, [.var 0]⟩] (.pos ⟨1, [.var 0]⟩) (.pos ⟨1, [.app 0 [.var 1]]⟩) =
      .ok ⟨[.neg ⟨2, [.app 0 [.var 1]]⟩, .pos ⟨1, [.app 0 [.var 1]]⟩], .unnamed⟩ := by
    decide +kernel
  exact ⟨h, (factors_entails default).2 _ _ _ _ h⟩

/-! ## Completeness -/

namespace Clause

/-- Two places of a clause hold positive literals whose atoms have a common instance. -/
def Factorable (c : Clause) (i j : Nat) : Prop :=
  i < j ∧ ∃ l m, c.literals[i]? = some l ∧ c.literals[j]? = some m ∧
    l.isPositive = true ∧ m.isPositive = true ∧ ∃ θ, l.atom.subst θ = m.atom.subst θ

/-- A clause is the factor for two places of another: it is what the rule makes of them,
and a substitution that makes the two literals equal maps both clauses to one set. -/
def IsFactorAt (c : Clause) (ij : Nat × Nat) (f : Clause) : Prop :=
  ∃ l m, c.literals[ij.1]? = some l ∧ c.literals[ij.2]? = some m ∧
    (∃ g, factor ((c.literals.eraseIdx ij.2).eraseIdx ij.1) l m = .ok g ∧
      f = g.derivedBy .factoring [c.label?]) ∧
    ∀ θ : Nat → Term, l.subst θ = m.subst θ → instances θ f.literals = instances θ c.literals

/-- There is a factor at two places just if the literals there are positive and their atoms have a
common instance. -/
theorem isSome_factorAt?_iff {c : Clause} {i j : Nat} (hij : i < j) :
    (c.factorAt? (i, j)).isSome = true ↔ c.Factorable i j := by
  rw [Option.isSome_iff_exists]
  constructor
  · rintro ⟨f, hf⟩
    obtain ⟨l, m, hl, hm, g, hg, -⟩ := factorAt?_eq_some_iff.1 hf
    obtain ⟨hlpos, hmpos, w, hw, -⟩ := factor_eq_ok_iff.1 hg
    exact ⟨hij, l, m, hl, hm, by rw [Literal.isPositive, hlpos]; rfl,
      by rw [Literal.isPositive, hmpos]; rfl, w.toSubst, Atom.subst_eq_of_unify hw⟩
  · rintro ⟨-, l, m, hl, hm, hlpos, hmpos, θ, hθ⟩
    rw [Literal.isPositive, Bool.not_eq_true'] at hlpos hmpos
    obtain ⟨w, hw, -⟩ := Atom.exists_unify hθ
    exact ⟨_, factorAt?_eq_some_iff.2 ⟨l, m, hl, hm, _,
      factor_eq_ok_iff.2 ⟨hlpos, hmpos, w, hw, rfl⟩, rfl⟩⟩

/-- And it is the factor at these places. -/
theorem isFactorAt_of_factorAt? {c f : Clause} {i j : Nat} (hij : i < j)
    (h : c.factorAt? (i, j) = some f) : c.IsFactorAt (i, j) f := by
  obtain ⟨l, m, hl, hm, g, hg, rfl⟩ := factorAt?_eq_some_iff.1 h
  refine ⟨l, m, hl, hm, ⟨g, hg, rfl⟩, fun θ hθ => ?_⟩
  rw [derivedBy, instances_make, instances_of_factor hg hθ]
  exact instances_congr fun k => (mem_iff_of_getElem?_pair hij hl hm).symm

end Clause

/-- The results of a partial function stand in the order of the arguments it has them
for. -/
theorem forall₂_filter_filterMap {α β : Type} (f : α → Option β) (l : List α) :
    List.Forall₂ (fun a b => a ∈ l ∧ f a = some b) (l.filter fun a => (f a).isSome)
      (l.filterMap f) := by
  induction l with
  | nil => exact .nil
  | cons a l ih =>
    have ih := ih.imp fun b c h => (⟨List.mem_cons_of_mem a h.1, h.2⟩ : b ∈ a :: l ∧ f b = some c)
    rcases hfa : f a with _ | b
    · rw [List.filter_cons_of_neg (by simp [hfa]), List.filterMap_cons_none hfa]
      exact ih
    · rw [List.filter_cons_of_pos (by simp [hfa]), List.filterMap_cons_some hfa]
      exact .cons ⟨List.mem_cons_self, hfa⟩ ih

/-- **The enumeration of factors never fails and is complete.** Its list goes through the
pairs of positive literals with a common instance in the lexicographic order of their
places, and has for each pair the factor there. -/
theorem factors_complete (c : Clause) :
    ∃ (pairs : List (Nat × Nat)) (fs : List Clause), c.factors = .ok fs ∧
      pairs.Pairwise (Prod.Lex (· < ·) (· < ·)) ∧
      (∀ i j, (i, j) ∈ pairs ↔ c.Factorable i j) ∧ List.Forall₂ c.IsFactorAt pairs fs := by
  refine ⟨(indexPairs c.literals.length).filter fun ij => (c.factorAt? ij).isSome, _,
    c.factors_eq, (pairwise_indexPairs _).filter _, ?_, ?_⟩
  · intro i j
    rw [List.mem_filter, mem_indexPairs]
    constructor
    · rintro ⟨⟨hij, -⟩, hsome⟩
      exact (Clause.isSome_factorAt?_iff hij).1 hsome
    · intro h
      have ⟨hij, l, m, _, hm, _⟩ := h
      have hj : j < c.literals.length := (List.getElem?_eq_some_iff.1 hm).1
      exact ⟨⟨hij, hj⟩, (Clause.isSome_factorAt?_iff hij).2 h⟩
  -- the clause enumerated for a pair is its factor
  · refine (forall₂_filter_filterMap c.factorAt? _).imp fun ij f h => ?_
    obtain ⟨i, j⟩ := ij
    exact Clause.isFactorAt_of_factorAt? (mem_indexPairs.1 h.1).1 h.2

end Clausal
