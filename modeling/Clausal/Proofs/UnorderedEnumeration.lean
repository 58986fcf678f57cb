/-
What an enumeration finds, whatever the order it is found in.

An enumeration lists its results in the order of its choices, and that order is given by
the order of clauses and literals. As a multiset the results are a sum over the choices
(`found_collect`), so it no longer matters how the choices are nested. For the paramodulants
of two clauses this is a sum over a literal of the one and a literal of the other, and for
each two literals over the two directions in which an equation can be used
(`Clause.found_paramodulants`). That sum is symmetric: where the clauses are exchanged, the
same inference is drawn with its parents cited the other way round
(`paramodulants_exchanged`).
-/
import Clausal.Proofs.InferenceFailures
import Mathlib.Data.Multiset.Bind

set_option autoImplicit false

namespace Clausal

/-! ## Enumerations -/

section

variable {α β γ : Type}

/-- What an enumeration has found, without an order; nothing if it has failed. -/
def found : Except InferenceError (List β) → Multiset β
  | .ok bs => bs
  | .error _ => 0

/-- What an enumeration that succeeds has found is its result. -/
theorem found_of_eq_ok {x : Except InferenceError (List β)} {bs : List β} (h : x = .ok bs) :
    found x = bs := by
  rw [h]
  rfl

/-- What is done to each result is done to what has been found. -/
theorem found_map (f : β → γ) (x : Except InferenceError (List β)) :
    found (List.map f <$> x) = (found x).map f := by
  rcases x with e | bs <;> rfl

/-- A successful enumeration has found what its choices have found. -/
theorem found_collect {f : α → Except InferenceError (List β)} {as : List α}
    (h : ∃ bs, collect f as = .ok bs) :
    found (collect f as) = (as : Multiset α).bind fun a => found (f a) := by
  induction as with
  | nil => rfl
  | cons a as ih =>
    obtain ⟨bs, hbs⟩ := h
    obtain ⟨here, hhere, h⟩ := bind_eq_ok_iff.1 hbs
    obtain ⟨later, hlater, h⟩ := bind_eq_ok_iff.1 h
    have hsum : found (collect f (a :: as)) = found (f a) + found (collect f as) := by
      rw [found_of_eq_ok hbs, found_of_eq_ok hhere, found_of_eq_ok hlater, ← Except.ok.inj h]
      rfl
    rw [hsum, ih ⟨later, hlater⟩, ← Multiset.cons_coe, Multiset.cons_bind]

end

/-! ## Paramodulants -/

/-- What two selected literals yield, each of them used in the other. -/
theorem found_selectionParamodulants {one two : Literal × List Literal}
    (h : ∃ ds, selectionParamodulants one two = .ok ds) :
    found (selectionParamodulants one two) =
      found (directedParamodulants one two) + found (directedParamodulants two one) := by
  rw [selectionParamodulants_eq] at h ⊢
  obtain ⟨ds, hds⟩ := h
  obtain ⟨forward, hforward, h⟩ := bind_eq_ok_iff.1 hds
  obtain ⟨backward, hbackward, h⟩ := bind_eq_ok_iff.1 h
  rw [found_of_eq_ok hds, found_of_eq_ok hforward, found_of_eq_ok hbackward, ← Except.ok.inj h]
  rfl

/-- The paramodulants of two clauses before they are cited: those of any two of their
literals, in both directions. -/
def Clause.uncited (c given : Clause) : Multiset Clause :=
  (selections c.literals : Multiset (Literal × List Literal)).bind fun one =>
    (selections given.literals : Multiset (Literal × List Literal)).bind fun two =>
      found (directedParamodulants one two) + found (directedParamodulants two one)

/-- The paramodulants are those without names of parents, with these added to each. -/
theorem Clause.found_paramodulants {c given : Clause}
    (h : ∃ rs, c.paramodulants given = .ok rs) :
    found (c.paramodulants given) =
      (c.uncited given).map (·.derivedBy .paramodulation [c.label?, given.label?]) := by
  rw [paramodulants] at h ⊢
  rw [found_collect h, uncited, Multiset.map_bind]
  refine Multiset.bind_congr fun one hone => ?_
  -- that the enumeration has succeeded makes every part of it succeed
  obtain ⟨part, hpart⟩ := exists_collect_iff.1 h one (Multiset.mem_coe.1 hone)
  obtain ⟨ds, hds, -⟩ := map_eq_ok_iff.1 hpart
  rw [found_map, found_collect ⟨ds, hds⟩]
  refine congrArg _ (Multiset.bind_congr fun two htwo => ?_)
  exact found_selectionParamodulants (exists_collect_iff.1 ⟨ds, hds⟩ two (Multiset.mem_coe.1 htwo))

/-- Which of the two clauses comes first makes no difference. -/
theorem Clause.uncited_comm (c given : Clause) : c.uncited given = given.uncited c := by
  rw [uncited, uncited, Multiset.bind_bind]
  refine Multiset.bind_congr fun two _ => Multiset.bind_congr fun one _ => ?_
  exact add_comm _ _

/-! ## Exchanging the clauses -/

/-- The clause with its parents cited in the opposite order. -/
def Clause.exchangeParents (c : Clause) : Clause :=
  match c.provenance with
  | .derived rule parents => ⟨c.literals, .derived rule parents.reverse⟩
  | _ => c

/-- Exchanging the parents of a derived clause is deriving it from them in the other order. -/
theorem Clause.exchangeParents_derivedBy (c : Clause) (rule : Rule)
    (parents : List (Option String)) :
    (c.derivedBy rule parents).exchangeParents = c.derivedBy rule parents.reverse := rfl

theorem paramodulants_singleton (c given : Clause) :
    paramodulants [c] given = c.paramodulants given := by
  rw [paramodulants, collect]
  rcases c.paramodulants given with e | rs
  · rfl
  · exact congrArg Except.ok (List.append_nil rs)

/-- Whether enumeration succeeds does not depend on which clause comes first. -/
theorem exists_paramodulants_comm {c given : Clause} (h : ∃ rs, c.paramodulants given = .ok rs) :
    ∃ rs, given.paramodulants c = .ok rs := by
  rw [Clause.exists_paramodulants_iff] at h ⊢
  intro m hm l hl
  exact (h l hl m hm).symm

/-- **Paramodulation is symmetric.** It is indifferent which of two clauses is the given one:
either both enumerations fail, or the two lists have the same clauses, literal by literal,
up to order, only with the parents cited in the opposite order. -/
theorem paramodulants_exchanged (c g : Clause) :
    ((∃ rs, paramodulants [c] g = .ok rs) ↔ ∃ rs, paramodulants [g] c = .ok rs) ∧
      ∀ rs rs', paramodulants [c] g = .ok rs → paramodulants [g] c = .ok rs' →
        rs'.Perm (rs.map Clause.exchangeParents) := by
  rw [paramodulants_singleton, paramodulants_singleton]
  refine ⟨⟨exists_paramodulants_comm, exists_paramodulants_comm⟩, fun rs rs' hrs hrs' => ?_⟩
  have hfound := Clause.found_paramodulants ⟨rs, hrs⟩
  have hfound' := Clause.found_paramodulants ⟨rs', hrs'⟩
  rw [found_of_eq_ok hrs] at hfound
  rw [found_of_eq_ok hrs', g.uncited_comm] at hfound'
  refine Multiset.coe_eq_coe.1 ?_
  rw [← Multiset.map_coe, hfound, hfound', Multiset.map_map]
  exact Multiset.map_congr rfl fun d _ =>
    (d.exchangeParents_derivedBy .paramodulation [c.label?, g.label?]).symm

/-- `f1 = f2` and `f2 = f3 | p1(f1)`. The first equation is used in both literals of the other
clause, and the second one in the first. -/
theorem paramodulants_exchanged_equations :
    paramodulants [⟨[.pos (.equation (.app 1 []) (.app 2 []))], .named "c"⟩]
        ⟨[.pos (.equation (.app 2 []) (.app 3 [])), .pos ⟨1, [.app 1 []]⟩], .named "g"⟩ =
      .ok [⟨[.pos (.equation (.app 1 []) (.app 3 [])), .pos ⟨1, [.app 1 []]⟩],
          .derived .paramodulation [some "c", some "g"]⟩,
        ⟨[.pos (.equation (.app 1 []) (.app 3 [])), .pos ⟨1, [.app 1 []]⟩],
          .derived .paramodulation [some "c", some "g"]⟩,
        ⟨[.pos ⟨1, [.app 2 []]⟩, .pos (.equation (.app 2 []) (.app 3 []))],
          .derived .paramodulation [some "c", some "g"]⟩] ∧
    ∃ rs', paramodulants
        [⟨[.pos (.equation (.app 2 []) (.app 3 [])), .pos ⟨1, [.app 1 []]⟩], .named "g"⟩]
          ⟨[.pos (.equation (.app 1 []) (.app 2 []))], .named "c"⟩ = .ok rs' ∧
      rs'.Perm [⟨[.pos (.equation (.app 1 []) (.app 3 [])), .pos ⟨1, [.app 1 []]⟩],
          .derived .paramodulation [some "g", some "c"]⟩,
        ⟨[.pos (.equation (.app 1 []) (.app 3 [])), .pos ⟨1, [.app 1 []]⟩],
          .derived .paramodulation [some "g", some "c"]⟩,
        ⟨[.pos ⟨1, [.app 2 []]⟩, .pos (.equation (.app 2 []) (.app 3 []))],
          .derived .paramodulation [some "g", some "c"]⟩] := by
  obtain ⟨hiff, hperm⟩ := paramodulants_exchanged
    ⟨[.pos (.equation (.app 1 []) (.app 2 []))], .named "c"⟩
    ⟨[.pos (.equation (.app 2 []) (.app 3 [])), .pos ⟨1, [.app 1 []]⟩], .named "g"⟩
  refine (and_iff_left_of_imp fun h => ?_).2 (by decide +kernel)
  obtain ⟨rs', hrs'⟩ := hiff.1 ⟨_, h⟩
  exact ⟨rs', hrs', hperm _ _ h hrs'⟩

end Clausal
