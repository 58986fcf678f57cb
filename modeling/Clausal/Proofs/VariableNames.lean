/-
Variables are told apart by the names under which they are written, across all clauses of a
session and at all times of it (`variables_named_apart`).

That two variables are never written alike has nothing to do with sessions: the number of a
variable stands at the end of its text, whatever the signature and the names in it
(`Signature.variableText_inj`). What a session adds is the converse, that one variable is
always written alike. The variables of its clauses are known, and since everything that a
step does to the signature is made of additions (`Session.Step.develops`), a known variable
keeps its name. An unknown variable need not keep its text, which changes once its number is
given a name.
-/
import Clausal.Proofs.Interning

set_option autoImplicit false

namespace Clausal

open Problem

/-! ## Known variables -/

theorem Term.Over.variableName?_isSome {σ : Signature} {t : Term} (ht : t.Over σ) {x : Nat}
    (hx : x ∈ t.vars) : (σ.variableName? x).isSome = true := by
  induction ht with
  | @var y known =>
    obtain rfl : x = y := by simpa using hx
    rw [Signature.variableName?, Array.getElem?_eq_getElem known]
    rfl
  | app known args_over ih =>
    rw [vars_app] at hx
    obtain ⟨t, ht, hx⟩ := List.mem_flatMap.1 hx
    exact ih t ht hx

/-- The variables of a clause over a signature have names. -/
theorem Clause.Over.variableName?_isSome {σ : Signature} {c : Clause} (hc : c.Over σ) {x : Nat}
    (hx : x ∈ c.vars) : (σ.variableName? x).isSome = true := by
  obtain ⟨l, hl, hx⟩ := List.mem_flatMap.1 hx
  obtain ⟨t, ht, hx⟩ := List.mem_flatMap.1 hx
  exact ((hc l hl).args_over t ht).variableName?_isSome hx

/-- A variable that is known already is written alike ever after. -/
theorem Signature.Preserves.variableText_eq {σ τ : Signature} (h : σ.Preserves τ) {x : Nat}
    (hx : (σ.variableName? x).isSome = true) : τ.variableText x = σ.variableText x := by
  obtain ⟨name, hname⟩ := Option.isSome_iff_exists.1 hx
  rw [variableText, variableText, hname, h.variableNames x name hname]

/-! ## Sessions -/

namespace Session

variable {s s' : Session}

/-- A step of a session only adds to the signature. -/
theorem Step.develops (h : s.Step s') : s.signature.Develops s'.signature := by
  cases h with
  | readText files text => exact develops_fromText files text s.signature
  | readFile files path => exact develops_fromFile files path s.signature
  | copy mem => exact s.signature.develops_freshCopy _
  | copyOther c => exact s.signature.develops_freshCopy c
  | factors mem eq_ok => exact .refl
  | paramodulants processed_mem given_mem eq_ok => exact .refl

theorem develops_of_steps (h : Relation.ReflTransGen Step s s') :
    s.signature.Develops s'.signature := by
  induction h with
  | refl => exact .refl
  | tail _ hstep ih => exact ih.trans hstep.develops

/-- A variable of a clause of the session keeps its text however the session goes on. -/
theorem variableText_eq_of_steps (hs : s.Reachable) (h : Relation.ReflTransGen Step s s')
    {c : Clause} (hc : c ∈ s.clauses) {x : Nat} (hx : x ∈ c.vars) :
    s'.signature.variableText x = s.signature.variableText x := by
  have hover : c.Over s.signature := ((sound_of_reachable hs).clauses c hc).known
  exact (develops_of_steps h).preserves.variableText_eq (hover.variableName?_isSome hx)

end Session

/-! ## Names of variables -/

/-- **Variables are told apart by their names.** Whatever the names in a signature are, it
writes no two variables alike, known or unknown, and neither do two signatures. So in all
clauses of a session, written now or later, two variables have the same name if and only if
they are the same variable. -/
theorem variables_named_apart :
    (∀ (σ τ : Signature) (x y : Nat), (Term.var x).named σ = (Term.var y).named τ → x = y) ∧
    ∀ s s' : Session, s.Reachable → Relation.ReflTransGen Session.Step s s' →
      ∀ c ∈ s.clauses, ∀ d ∈ s'.clauses, ∀ x ∈ c.vars, ∀ y ∈ d.vars,
        (Term.var x).named s.signature = (Term.var y).named s'.signature ↔ x = y := by
  refine ⟨fun σ τ x y h => Signature.variableText_inj h, ?_⟩
  intro s s' hs hlater c hc d _ x hx y _
  constructor
  · exact fun h => Signature.variableText_inj h
  · -- the variable was known already when the first of the clauses was written
    rintro rfl
    exact (Session.variableText_eq_of_steps hs hlater hc hx).symm

/-- A clause whose second variable is written just as its first one is named, and a copy of
it: four variables with two names. A fifth number is unknown to the session and to a new
signature. -/
theorem variables_named_apart_copied :
    ∃ (s s' : Session) (c d : Clause), s.Reachable ∧ Relation.ReflTransGen Session.Step s s' ∧
      c ∈ s.clauses ∧ d ∈ s'.clauses ∧ 1 ∈ c.vars ∧ 2 ∈ d.vars ∧
      s'.signature.variableNames = #["X_1", "X", "X_1", "X"] ∧
      c.named s.signature = "p(X_1_0) | p(X_1)" ∧ d.named s'.signature = "p(X_1_2) | p(X_3)" ∧
      ((Term.var 1).named s.signature = (Term.var 2).named s'.signature ↔ 1 = 2) ∧
      (Term.var 4).named s'.signature = (Term.var 4).named .initial ∧ 4 = 4 := by
  let s : Session := Session.new.read (fromText .empty "cnf(a, axiom, p(X_1) | p(X)).")
  let c : Clause := ⟨[.pos ⟨1, [.var 0]⟩, .pos ⟨1, [.var 1]⟩], .named "a"⟩
  let d : Clause := ⟨[.pos ⟨1, [.var 2]⟩, .pos ⟨1, [.var 3]⟩], .named "a"⟩
  have hc : c ∈ s.clauses := by decide +kernel
  have hs : s.Reachable := .single (.readText .new .empty _)
  have hcopy : Relation.ReflTransGen Session.Step s (s.copy c) := .single (.copy hc)
  have hd : d ∈ (s.copy c).clauses := by decide +kernel
  have hnames : (s.copy c).signature.variableNames = #["X_1", "X", "X_1", "X"] := by
    decide +kernel
  have hunknown : (Term.var 4).named (s.copy c).signature = (Term.var 4).named .initial := by
    decide +kernel
  exact ⟨s, s.copy c, c, d, hs, hcopy, hc, hd, by decide, by decide, hnames, by decide +kernel,
    by decide +kernel,
    variables_named_apart.2 s _ hs hcopy c hc d hd 1 (by decide) 2 (by decide), hunknown,
    variables_named_apart.1 _ _ 4 4 hunknown⟩

end Clausal
