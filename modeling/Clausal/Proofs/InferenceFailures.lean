/-
When an enumeration of inferences fails. It stops at any failure that says more than that
one choice has no conclusion, so it fails if and only if some choice fails in such a way
(`exists_collect_iff`, `exists_productive_iff`).

For paramodulation this can only be a literal that asserts equality of other than two
terms. Every position that the enumeration tries is that of a subterm, so neither looking
the subterm up nor replacing it can go wrong in any other way than by changing nothing;
and unification fails in one way only. So the enumeration succeeds if and only if no such
literal is used (`exists_paramodulants_iff`), and a failure names such a literal
(`paramodulants_eq_error_iff`).
-/
import Clausal.Proofs.Factors
import Clausal.Proofs.ParamodulationSoundness

set_option autoImplicit false

namespace Clausal

/-! ## Enumerations -/

section

variable {α β : Type}

/-- All choices are gone through, and the first failure wins. -/
theorem exists_collect_iff {f : α → Except InferenceError (List β)} {as : List α} :
    (∃ bs, collect f as = .ok bs) ↔ ∀ a ∈ as, ∃ part, f a = .ok part := by
  constructor
  · rintro ⟨bs, hbs⟩ a ha
    obtain ⟨part, hpart, -⟩ := exists_part_of_collect_eq_ok hbs ha
    exact ⟨part, hpart⟩
  · intro h
    induction as with
    | nil => exact ⟨[], rfl⟩
    | cons a as ih =>
      rw [List.forall_mem_cons] at h
      obtain ⟨here, hhere⟩ := h.1
      obtain ⟨later, hlater⟩ := ih h.2
      exact ⟨here ++ later, bind_eq_ok_iff.2 ⟨here, hhere, bind_eq_ok_iff.2 ⟨later, hlater, rfl⟩⟩⟩

/-- What an enumeration reports is the failure of one of its choices. -/
theorem exists_of_collect_eq_error {f : α → Except InferenceError (List β)} {as : List α}
    {e : InferenceError} (h : collect f as = .error e) : ∃ a ∈ as, f a = .error e := by
  induction as with
  | nil => exact nomatch h
  | cons a as ih =>
    rcases bind_eq_error_iff.1 h with hhere | ⟨here, -, h⟩
    · exact ⟨a, List.mem_cons_self, hhere⟩
    · rcases bind_eq_error_iff.1 h with hlater | ⟨later, -, h⟩
      · obtain ⟨a', ha', he⟩ := ih hlater
        exact ⟨a', List.mem_cons_of_mem a ha', he⟩
      · exact nomatch h

/-- An inference gives a list of results if it succeeds or fails in one of the ways that count as
none. -/
theorem exists_productive_iff {x : Except InferenceError α} :
    (∃ as, productive x = .ok as) ↔ ∀ e, x = .error e → e.isUnproductive = true := by
  rcases x with e | a
  · have hproductive : productive (.error e : Except InferenceError α) =
        if e.isUnproductive then .ok [] else .error e := rfl
    by_cases he : e.isUnproductive = true
    · rw [hproductive, if_pos he]
      refine iff_of_true ⟨[], rfl⟩ fun e' heq => ?_
      rw [← Except.error.inj heq]
      exact he
    · rw [hproductive, if_neg he]
      exact iff_of_false (fun ⟨_, h⟩ => nomatch h) fun h => he (h e rfl)
  · exact iff_of_true ⟨[a], rfl⟩ fun _ h => nomatch h

/-- Every member of a list is selected, and nothing else. -/
theorem exists_mem_selections_iff {l : List α} {a : α} :
    a ∈ l ↔ ∃ s ∈ selections l, s.1 = a := by
  constructor
  · intro ha
    obtain ⟨i, hi⟩ := List.mem_iff_getElem?.1 ha
    exact ⟨_, mem_selections_of_getElem? hi, rfl⟩
  · rintro ⟨s, hs, rfl⟩
    exact (mem_iff_of_mem_selections hs).2 List.mem_cons_self

end

/-! ## One inference -/

/-- A subterm that is there fails to be replaced only if it would be replaced by itself. -/
theorem isUnproductive_of_replaceAt {a : Atom} {p : Nat} {u r : Term}
    (hu : a.subtermAt p = .ok u) {e : InferenceError} (h : a.replaceAt p r = .error e) :
    e.isUnproductive = true := by
  by_cases hne : u = r
  · have hsame : a.replaceAt p r = .error (.degenerateReplacement p) := by
      rw [Atom.replaceAt, hu]
      exact if_pos hne
    rw [hsame] at h
    rw [← Except.error.inj h]
    rfl
  · rw [Atom.replaceAt_of_ne hu hne] at h
    cases h

/-- At the position of a subterm an inference has a conclusion, or none for a reason that
the enumeration passes over. -/
theorem isUnproductive_of_paramodulate {rest targetRest : List Literal} {equation : Term × Term}
    {target : Literal} {p : Nat} (hp : 1 ≤ p) (hlt : p < target.atom.size) {e : InferenceError}
    (h : paramodulate rest equation targetRest target p = .error e) :
    e.isUnproductive = true := by
  obtain ⟨u, hu⟩ := Atom.exists_subtermAt hp hlt
  -- what fails is one of three steps: finding the subterm, unifying it, or replacing it
  rcases bind_eq_error_iff.1 h with hsubterm | ⟨u', hu', h⟩
  · rw [hu] at hsubterm
    exact nomatch hsubterm
  · rw [hu] at hu'
    obtain rfl := Except.ok.inj hu'
    rcases bind_eq_error_iff.1 h with hunify | ⟨w, -, h⟩
    · exact isUnproductive_of_mgu_eq_error hunify
    · rcases bind_eq_error_iff.1 h with hreplace | ⟨a, -, h⟩
      · exact isUnproductive_of_replaceAt hu hreplace
      · exact nomatch h

/-! ## The enumeration -/

/-- If the literal asserts equality, then of two terms. -/
def Literal.EquatesTwo (l : Literal) : Prop :=
  l.isPositiveEquality = true → l.equation?.isSome = true

/-- A literal that respects the number of arguments of equality is no obstacle. -/
theorem Literal.equatesTwo_of_length {l : Literal}
    (h : l.atom.isEquality = true → l.atom.args.length = 2) : l.EquatesTwo := by
  intro hequality
  rw [isPositiveEquality, Bool.and_eq_true, isPositive, Bool.not_eq_true'] at hequality
  obtain ⟨s, t, hargs⟩ := List.length_eq_two.1 (h hequality.2)
  rw [equation?, hequality.1, if_neg Bool.false_ne_true, Atom.sides?, hargs]
  exact (Option.isSome_ite).2 hequality.2

/-- The literal asserts an atom of equality that has other than two arguments. -/
def Literal.IsMalformedEquality (l : Literal) : Prop :=
  l.isPositive = true ∧ l.atom.pred = Atom.equality ∧ l.atom.args.length ≠ 2

/-- To assert equality and to be a proper equation differ in the malformed literals only. -/
theorem Literal.isMalformedEquality_iff {l : Literal} :
    l.IsMalformedEquality ↔ l.isPositiveEquality = true ∧ l.equation? = none := by
  obtain ⟨negated, pred, args⟩ := l
  simp only [IsMalformedEquality, isPositiveEquality, isPositive, equation?, Atom.isEquality,
    Bool.and_eq_true, Bool.not_eq_true', beq_iff_eq, and_assoc]
  refine and_congr_right fun hpos => and_congr_right fun hequality => ?_
  rw [hpos, if_neg Bool.false_ne_true, Option.eq_none_iff_forall_not_mem]
  -- an atom of equality has sides just if it has two arguments
  constructor
  · intro hlength st hst
    have hatom := Atom.sides?_eq_some_iff.1 (show _ = some (st.1, st.2) from hst)
    rw [(Atom.mk.inj hatom).2] at hlength
    exact hlength rfl
  · intro hnone hlength
    obtain ⟨s, t, rfl⟩ := List.length_eq_two.1 hlength
    refine hnone (s, t) (Atom.sides?_eq_some_iff.2 ?_)
    rw [hequality]
    rfl

/-- The only obstacle is a positive atom of equality with another number of arguments. -/
theorem Literal.not_equatesTwo_iff {l : Literal} : ¬l.EquatesTwo ↔ l.IsMalformedEquality := by
  rw [isMalformedEquality_iff, EquatesTwo, Classical.not_imp, Bool.not_eq_true,
    Option.isSome_eq_false_iff, Option.isNone_iff_eq_none]

/-- Enumeration between two literals succeeds if the first one is an equation. What can go wrong
after that counts as no result. -/
theorem exists_literalParamodulants_iff {rest targetRest : List Literal}
    {equation target : Literal} :
    (∃ cs, literalParamodulants rest equation targetRest target = .ok cs) ↔
      equation.equation?.isSome = true := by
  rw [literalParamodulants]
  rcases equation.equation? with _ | ⟨s, t⟩
  · exact iff_of_false (fun ⟨_, h⟩ => nomatch h) (by simp)
  · refine iff_of_true ?_ rfl
    by_cases hst : s = t
    · exact ⟨[], if_pos hst⟩
    · show ∃ cs, (if s = t then _ else _) = _
      rw [if_neg hst]
      refine exists_collect_iff.2 fun p hp => exists_collect_iff.2 fun e _ => ?_
      rw [List.mem_range'_1] at hp
      exact exists_productive_iff.2 fun _ => isUnproductive_of_paramodulate hp.1 (by omega)

/-- In one direction it succeeds unless the first literal is an obstacle. -/
theorem exists_directedParamodulants_iff {one two : Literal × List Literal} :
    (∃ cs, directedParamodulants one two = .ok cs) ↔ one.1.EquatesTwo := by
  rw [directedParamodulants, Literal.EquatesTwo]
  by_cases h : one.1.isPositiveEquality = true
  · rw [if_pos h, exists_literalParamodulants_iff]
    exact ⟨fun hsome _ => hsome, fun hsome => hsome h⟩
  · rw [if_neg h]
    exact iff_of_true ⟨[], rfl⟩ fun h' => absurd h' h

/-- In both directions it succeeds unless one of the literals is an obstacle. -/
theorem exists_selectionParamodulants_iff {one two : Literal × List Literal} :
    (∃ cs, selectionParamodulants one two = .ok cs) ↔ one.1.EquatesTwo ∧ two.1.EquatesTwo := by
  rw [selectionParamodulants_eq, ← @exists_directedParamodulants_iff one two,
    ← @exists_directedParamodulants_iff two one]
  constructor
  · rintro ⟨cs, hcs⟩
    obtain ⟨forward, hforward, hcs⟩ := bind_eq_ok_iff.1 hcs
    obtain ⟨backward, hbackward, -⟩ := bind_eq_ok_iff.1 hcs
    exact ⟨⟨forward, hforward⟩, ⟨backward, hbackward⟩⟩
  · rintro ⟨⟨forward, hforward⟩, ⟨backward, hbackward⟩⟩
    exact ⟨_, bind_eq_ok_iff.2 ⟨forward, hforward, bind_eq_ok_iff.2 ⟨backward, hbackward, rfl⟩⟩⟩

/-- Between two clauses it succeeds unless one has an obstacle and the other a literal to meet
it. -/
theorem Clause.exists_paramodulants_iff {c given : Clause} :
    (∃ rs, c.paramodulants given = .ok rs) ↔
      ∀ l ∈ c.literals, ∀ m ∈ given.literals, l.EquatesTwo ∧ m.EquatesTwo := by
  -- the enumeration goes over selections, of which each is a literal with the rest
  have hselections : (∃ rs, c.paramodulants given = .ok rs) ↔
      ∀ one ∈ selections c.literals, ∀ two ∈ selections given.literals,
        one.1.EquatesTwo ∧ two.1.EquatesTwo := by
    rw [Clause.paramodulants, exists_collect_iff]
    refine forall₂_congr fun one _ => ?_
    simp only [map_eq_ok_iff, ← exists_selectionParamodulants_iff, ← exists_collect_iff]
    exact ⟨fun ⟨_, rs, hrs, _⟩ => ⟨rs, hrs⟩, fun ⟨rs, hrs⟩ => ⟨_, rs, hrs, rfl⟩⟩
  rw [hselections]
  constructor
  · intro h l hl m hm
    obtain ⟨one, hone, rfl⟩ := exists_mem_selections_iff.1 hl
    obtain ⟨two, htwo, rfl⟩ := exists_mem_selections_iff.1 hm
    exact h one hone two htwo
  · intro h one hone two htwo
    exact h one.1 (exists_mem_selections_iff.2 ⟨one, hone, rfl⟩) two.1
      (exists_mem_selections_iff.2 ⟨two, htwo, rfl⟩)

/-- **The enumeration of paramodulants** fails only if a literal asserts equality of other
than two terms and there is a literal in the other clause to be tried with it. -/
theorem exists_paramodulants_iff {processed : List Clause} {given : Clause} :
    (∃ rs, paramodulants processed given = .ok rs) ↔
      ∀ c ∈ processed, ∀ l ∈ c.literals, ∀ m ∈ given.literals, l.EquatesTwo ∧ m.EquatesTwo := by
  rw [paramodulants, exists_collect_iff]
  exact forall₂_congr fun c _ => Clause.exists_paramodulants_iff

/-! ## What is reported -/

/-- The rule fails on account of the literal that it cannot use, and names it. -/
theorem eq_of_literalParamodulants_eq_error {rest targetRest : List Literal}
    {equation target : Literal} {e : InferenceError}
    (h : literalParamodulants rest equation targetRest target = .error e) :
    equation.equation? = none ∧ e = .notEquation equation := by
  have hnone : equation.equation? = none := by
    by_contra hsome
    obtain ⟨cs, hcs⟩ := exists_literalParamodulants_iff.2 (Option.isSome_iff_ne_none.2 hsome)
    rw [hcs] at h
    exact nomatch h
  rw [literalParamodulants, hnone] at h
  exact ⟨hnone, (Except.error.inj h).symm⟩

/-- The error names the literal that is the obstacle. -/
theorem eq_of_directedParamodulants_eq_error {one two : Literal × List Literal}
    {e : InferenceError} (h : directedParamodulants one two = .error e) :
    one.1.IsMalformedEquality ∧ e = .notEquation one.1 := by
  rw [directedParamodulants] at h
  by_cases hequality : one.1.isPositiveEquality = true
  · rw [if_pos hequality] at h
    obtain ⟨hnone, he⟩ := eq_of_literalParamodulants_eq_error h
    exact ⟨Literal.isMalformedEquality_iff.2 ⟨hequality, hnone⟩, he⟩
  · rw [if_neg hequality] at h
    exact nomatch h

/-- In both directions the error names one of the two literals. -/
theorem exists_of_selectionParamodulants_eq_error {one two : Literal × List Literal}
    {e : InferenceError} (h : selectionParamodulants one two = .error e) :
    ∃ l, (l = one.1 ∨ l = two.1) ∧ l.IsMalformedEquality ∧ e = .notEquation l := by
  rw [selectionParamodulants_eq] at h
  rcases bind_eq_error_iff.1 h with hforward | ⟨forward, -, h⟩
  · exact ⟨one.1, .inl rfl, eq_of_directedParamodulants_eq_error hforward⟩
  · rcases bind_eq_error_iff.1 h with hbackward | ⟨backward, -, h⟩
    · exact ⟨two.1, .inr rfl, eq_of_directedParamodulants_eq_error hbackward⟩
    · exact nomatch h

/-- Between two clauses, neither of which is empty then, it names a literal of one of them. -/
theorem Clause.exists_of_paramodulants_eq_error {c given : Clause} {e : InferenceError}
    (h : c.paramodulants given = .error e) :
    given.literals ≠ [] ∧ c.literals ≠ [] ∧ ∃ l, (l ∈ c.literals ∨ l ∈ given.literals) ∧
      l.IsMalformedEquality ∧ e = .notEquation l := by
  obtain ⟨one, hone, h⟩ := exists_of_collect_eq_error h
  obtain ⟨two, htwo, h⟩ := exists_of_collect_eq_error (map_eq_error_iff.1 h)
  have hl : one.1 ∈ c.literals := exists_mem_selections_iff.2 ⟨one, hone, rfl⟩
  have hm : two.1 ∈ given.literals := exists_mem_selections_iff.2 ⟨two, htwo, rfl⟩
  refine ⟨List.ne_nil_of_mem hm, List.ne_nil_of_mem hl, ?_⟩
  obtain ⟨l, hmem, hmalformed⟩ := exists_of_selectionParamodulants_eq_error h
  rcases hmem with rfl | rfl
  · exact ⟨_, .inl hl, hmalformed⟩
  · exact ⟨_, .inr hm, hmalformed⟩

/-- A malformed literal is met as soon as the other clause has a literal to try it with. -/
theorem exists_paramodulants_eq_error {processed : List Clause} {given c : Clause}
    (hc : c ∈ processed) (hgiven : given.literals ≠ []) (hne : c.literals ≠ []) {l : Literal}
    (hl : l ∈ c.literals ∨ l ∈ given.literals) (hmalformed : l.IsMalformedEquality) :
    ∃ e, paramodulants processed given = .error e := by
  rcases hrs : paramodulants processed given with e | rs
  · exact ⟨e, rfl⟩
  · exfalso
    have hequates := exists_paramodulants_iff.1 ⟨rs, hrs⟩ c hc
    have hnot := Literal.not_equatesTwo_iff.2 hmalformed
    rcases hl with hl | hl
    · obtain ⟨m, hm⟩ := List.exists_mem_of_ne_nil _ hgiven
      exact hnot (hequates l hl m hm).1
    · obtain ⟨m, hm⟩ := List.exists_mem_of_ne_nil _ hne
      exact hnot (hequates m hm l hl).2

/-- **When the enumeration of paramodulants fails.** It does if and only if the given
clause and some processed one both have literals, and one of these two clauses has a literal
that asserts equality of other than two terms. What is reported is that such a literal is
no equation, and never anything else. -/
theorem paramodulants_eq_error_iff (processed : List Clause) (given : Clause) :
    ((∃ e, paramodulants processed given = .error e) ↔
      given.literals ≠ [] ∧ ∃ c ∈ processed, c.literals ≠ [] ∧
        ∃ l, (l ∈ c.literals ∨ l ∈ given.literals) ∧ l.IsMalformedEquality) ∧
    ∀ e, paramodulants processed given = .error e →
      ∃ c ∈ processed, c.literals ≠ [] ∧
        ∃ l, (l ∈ c.literals ∨ l ∈ given.literals) ∧ l.IsMalformedEquality ∧
          e = .notEquation l := by
  refine ⟨⟨?_, ?_⟩, ?_⟩
  · rintro ⟨e, he⟩
    obtain ⟨c, hc, he⟩ := exists_of_collect_eq_error he
    obtain ⟨hgiven, hne, l, hl, hmalformed, -⟩ := Clause.exists_of_paramodulants_eq_error he
    exact ⟨hgiven, c, hc, hne, l, hl, hmalformed⟩
  · rintro ⟨hgiven, c, hc, hne, l, hl, hmalformed⟩
    exact exists_paramodulants_eq_error hc hgiven hne hl hmalformed
  · intro e he
    obtain ⟨c, hc, he⟩ := exists_of_collect_eq_error he
    obtain ⟨-, hne, hl⟩ := Clause.exists_of_paramodulants_eq_error he
    exact ⟨c, hc, hne, hl⟩

/-- The empty clause is passed over although the given clause asserts equality of three
terms. The clause behind it has a literal to try, and the malformed one is reported. -/
theorem paramodulants_eq_error_iff_ternary :
    paramodulants [⟨[], .named "c"⟩, ⟨[.pos ⟨1, [.var 0]⟩], .named "d"⟩]
        ⟨[.neg ⟨0, [.var 0]⟩, .pos ⟨0, [.var 0, .var 1, .app 0 []]⟩], .named "g"⟩ =
      .error (.notEquation (.pos ⟨0, [.var 0, .var 1, .app 0 []]⟩)) ∧
    paramodulants [⟨[], .named "c"⟩]
        ⟨[.neg ⟨0, [.var 0]⟩, .pos ⟨0, [.var 0, .var 1, .app 0 []]⟩], .named "g"⟩ = .ok [] ∧
    (Literal.pos ⟨0, [.var 0, .var 1, .app 0 []]⟩).IsMalformedEquality := by
  have h : paramodulants [⟨[], .named "c"⟩, ⟨[.pos ⟨1, [.var 0]⟩], .named "d"⟩]
      ⟨[.neg ⟨0, [.var 0]⟩, .pos ⟨0, [.var 0, .var 1, .app 0 []]⟩], .named "g"⟩ =
        .error (.notEquation (.pos ⟨0, [.var 0, .var 1, .app 0 []]⟩)) := by decide +kernel
  obtain ⟨-, -, -, l, -, hmalformed, he⟩ := (paramodulants_eq_error_iff _ _).2 _ h
  obtain rfl := InferenceError.notEquation.inj he
  exact ⟨h, by decide +kernel, hmalformed⟩

end Clausal
