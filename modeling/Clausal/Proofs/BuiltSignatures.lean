/-
Signatures as they are built up from the initial one, by adding variables and symbols in
any order. Nothing is asked of the names here, and a symbol may be added more than once,
so such a signature need not name every symbol once; what is left of this is that looking
a symbol up finds the first number it got (`SymbolTable.Indexed`).

That is enough for interning to do what it should. The number that it returns is a number
of the symbol, which is all that reading needs in order to give every symbol its number of
arguments.
-/
import Clausal.Proofs.Signatures
import Mathlib.Data.Nat.Find

set_option autoImplicit false

namespace Clausal

/-! ## Tables -/

namespace SymbolTable

variable {t : SymbolTable} {s : Symbol}

/-- The number is the first one of the symbol. -/
structure IsFirst (t : SymbolTable) (s : Symbol) (id : Nat) : Prop where
  get?_eq : t.get? id = some s
  ne_of_lt : ∀ k < id, t.get? k ≠ some s

/-- Looking a symbol up finds its first number, and finds nothing if it has none. -/
def Indexed (t : SymbolTable) : Prop :=
  ∀ (s : Symbol) (id : Nat), t.find? s = some id ↔ t.IsFirst s id

theorem indexed_empty : empty.Indexed := by
  intro s id
  refine iff_of_false (fun h => nomatch h) fun h => ?_
  have hget := h.get?_eq
  rw [get?, empty, Array.getElem?_empty] at hget
  cases hget

/-- Where every symbol has one number, this is its first one. -/
theorem Faithful.indexed (h : t.Faithful) : t.Indexed := by
  intro s id
  rw [← h id s]
  refine ⟨fun hid => ⟨hid, fun k hk hks => ?_⟩, IsFirst.get?_eq⟩
  rw [h] at hid hks
  rw [hid, Option.some.injEq] at hks
  omega

theorem lt_size_of_get? {id : Nat} (h : t.get? id = some s) : id < t.entries.size :=
  (Array.getElem?_eq_some_iff.1 h).1

/-- What is not found is not in the table. -/
theorem Indexed.get?_ne_of_find? (h : t.Indexed) (hs : t.find? s = none) (id : Nat) :
    t.get? id ≠ some s := by
  intro hid
  -- otherwise it would have a first number
  have hex : ∃ k, t.get? k = some s := ⟨id, hid⟩
  have hfirst : t.IsFirst s (Nat.find hex) := ⟨Nat.find_spec hex, fun k hk => Nat.find_min hex hk⟩
  rw [(h s _).2 hfirst] at hs
  exact nomatch hs

/-- A symbol has one first number. -/
theorem IsFirst.unique {i j : Nat} (hi : t.IsFirst s i) (hj : t.IsFirst s j) : i = j := by
  rcases Nat.lt_trichotomy i j with hlt | heq | hlt
  · exact absurd hi.get?_eq (hj.ne_of_lt i hlt)
  · exact heq
  · exact absurd hj.get?_eq (hi.ne_of_lt j hlt)

/-- First numbers stay what they are. -/
theorem IsFirst.add {r : Symbol} {id : Nat} (h : t.IsFirst r id) (s : Symbol) :
    (t.add s).2.IsFirst r id := by
  have hlt := lt_size_of_get? h.get?_eq
  refine ⟨t.extends_add s h.get?_eq, fun k hk => ?_⟩
  rw [get?_add, if_neg (by omega)]
  exact h.ne_of_lt k hk

/-- A symbol that is not in the table gets the next number as its first one. -/
theorem isFirst_add (h : ∀ k, t.get? k ≠ some s) : (t.add s).2.IsFirst s t.entries.size := by
  refine ⟨by rw [get?_add, if_pos rfl], fun k hk => ?_⟩
  rw [get?_add, if_neg (by omega)]
  exact h k

/-- Adding a symbol that is known changes nothing that is found. -/
theorem find?_add_of_isSome (h : (t.find? s).isSome) (r : Symbol) :
    (t.add s).2.find? r = t.find? r := by
  rw [find?, SymbolTable.add]
  simp only [h, if_true]
  rfl

/-- A first number in the longer table is one in the shorter table, or the new number. -/
theorem isFirst_of_add {r : Symbol} {id : Nat} (h : (t.add s).2.IsFirst r id) :
    t.IsFirst r id ∨ r = s ∧ id = t.entries.size ∧ ∀ k, t.get? k ≠ some s := by
  have hget := h.get?_eq
  rw [get?_add] at hget
  have hbefore : ∀ k < id, t.get? k ≠ some r := by
    intro k hk hkr
    exact h.ne_of_lt k hk (t.extends_add s hkr)
  by_cases hid : id = t.entries.size
  · rw [if_pos hid, Option.some.injEq] at hget
    refine .inr ⟨hget.symm, hid, fun k hk => ?_⟩
    rw [hget] at hk
    exact hbefore k (hid ▸ lt_size_of_get? hk) hk
  · rw [if_neg hid] at hget
    exact .inl ⟨hget, hbefore⟩

/-- Adding keeps the index right, also when a symbol is added once more. -/
theorem Indexed.add (h : t.Indexed) (s : Symbol) : (t.add s).2.Indexed := by
  intro r id
  rcases hs : t.find? s with _ | first
  · -- a symbol that was not there is found under its new number
    have hnew := h.get?_ne_of_find? hs
    rw [find?_add hs]
    by_cases hr : r = s
    · rw [if_pos hr, hr, Option.some.injEq]
      refine ⟨fun heq => heq ▸ isFirst_add hnew, fun hfirst => ?_⟩
      exact (isFirst_add hnew).unique hfirst
    · rw [if_neg hr, h r id]
      refine ⟨fun hfirst => hfirst.add s, fun hfirst => ?_⟩
      rcases isFirst_of_add hfirst with hfirst | ⟨heq, -, -⟩
      · exact hfirst
      · exact absurd heq hr
  · -- one that was there has its first number already
    rw [find?_add_of_isSome (by rw [hs]; rfl), h r id]
    refine ⟨fun hfirst => hfirst.add s, fun hfirst => ?_⟩
    rcases isFirst_of_add hfirst with hfirst | ⟨-, -, hnone⟩
    · exact hfirst
    · exact absurd ((h s first).1 hs).get?_eq (hnone first)

/-- The number given to a symbol is a number of that symbol. -/
theorem Indexed.get?_intern (h : t.Indexed) (s : Symbol) :
    (t.intern s).2.get? (t.intern s).1 = some s := by
  unfold SymbolTable.intern
  split
  · next id hs => exact ((h s id).1 hs).get?_eq
  · rw [add_fst, get?_add, if_pos rfl]

end SymbolTable

/-! ## Signatures -/

namespace Signature

variable {σ τ υ : Signature}

/-- The signature comes about from the initial one. -/
inductive Built : Signature → Prop where
  | initial : Built initial
  | addVariable {σ : Signature} (built : Built σ) (name : String) : Built (σ.addVariable name).2
  | addFunction {σ : Signature} (built : Built σ) (s : Symbol) : Built (σ.addFunction s).2
  | addPredicate {σ : Signature} (built : Built σ) (s : Symbol) : Built (σ.addPredicate s).2

/-- Every symbol is found under its first number, and equality has the number 0. -/
structure Indexed (σ : Signature) : Prop where
  functions : σ.functions.Indexed
  predicates : σ.predicates.Indexed
  equality : σ.predicateSymbol? Atom.equality = some ⟨"=", 2⟩

/-- However a signature is built, symbols are found under their first numbers. -/
theorem Built.indexed (h : σ.Built) : σ.Indexed := by
  induction h with
  | initial => exact ⟨SymbolTable.indexed_empty, SymbolTable.indexed_empty.add _, rfl⟩
  | addVariable built name ih => exact ⟨ih.functions, ih.predicates, ih.equality⟩
  | addFunction built s ih => exact ⟨ih.functions.add s, ih.predicates, ih.equality⟩
  | @addPredicate σ built s ih =>
    exact ⟨ih.functions, ih.predicates.add s, σ.predicates.extends_add s ih.equality⟩

theorem WellFormed.indexed (h : σ.WellFormed) : σ.Indexed :=
  ⟨h.functions_faithful.indexed, h.predicates_faithful.indexed, h.equality⟩

/-- Interning adds a symbol or changes nothing. -/
theorem Built.internFunction (h : σ.Built) (s : Symbol) : (σ.internFunction s).2.Built := by
  rcases hs : σ.functions.find? s with _ | id
  · have hadd : (σ.internFunction s).2 = (σ.addFunction s).2 := by
      rw [Signature.internFunction, SymbolTable.intern, hs, Signature.addFunction]
    rw [hadd]
    exact h.addFunction s
  · rw [Signature.internFunction, SymbolTable.intern, hs]
    exact h

theorem Built.internPredicate (h : σ.Built) (s : Symbol) : (σ.internPredicate s).2.Built := by
  rcases hs : σ.predicates.find? s with _ | id
  · have hadd : (σ.internPredicate s).2 = (σ.addPredicate s).2 := by
      rw [Signature.internPredicate, SymbolTable.intern, hs, Signature.addPredicate]
    rw [hadd]
    exact h.addPredicate s
  · rw [Signature.internPredicate, SymbolTable.intern, hs]
    exact h

/-- The second signature has been built up further from the first. -/
structure Grows (σ τ : Signature) : Prop where
  built : τ.Built
  later : σ.Extends τ

theorem Built.grows (h : σ.Built) : σ.Grows σ := ⟨h, .refl σ⟩

theorem Grows.trans (h : σ.Grows τ) (h' : τ.Grows υ) : σ.Grows υ :=
  ⟨h'.built, h.later.trans h'.later⟩

end Signature

end Clausal
