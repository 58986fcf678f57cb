/-
Signatures as reading leaves them. A signature that has only ever been extended by
interning names every symbol once: the number of a symbol is found by looking the symbol
up (`SymbolTable.Faithful`). And its names are words that can be written down and read
again (`Signature.WellFormed`): variable names begin with a capital letter, function and
predicate symbols are spelled as names, and only a function symbol without arguments may
be a number or a distinct object. The one symbol with a name of another kind is equality.

Numbers never change their meaning, so what has been built over a signature is built over
every later one (`Signature.Extends`).
-/
import Clausal.Proofs.Statements
import Clausal.Signature

set_option autoImplicit false

namespace Clausal

open Problem

/-! ## Tables -/

namespace SymbolTable

variable {t : SymbolTable} {s : Symbol}

/-- Every symbol of the table has one number, and it is found under this number. -/
def Faithful (t : SymbolTable) : Prop :=
  ∀ (id : Nat) (s : Symbol), t.get? id = some s ↔ t.find? s = some id

/-- A later table has the same symbols under the same numbers, and perhaps more. -/
def Extends (t u : SymbolTable) : Prop :=
  ∀ ⦃id : Nat⦄ ⦃s : Symbol⦄, t.get? id = some s → u.get? id = some s

/-- The empty table has nothing to find. -/
theorem faithful_empty : empty.Faithful := by
  intro id s
  simp [empty, get?, find?]

/-- The new number belongs to the symbol that is added, and the old ones to the old symbols. -/
theorem get?_add (t : SymbolTable) (s : Symbol) (id : Nat) :
    (t.add s).2.get? id = if id = t.entries.size then some s else t.get? id := by
  rw [get?, entries_add, Array.getElem?_push, get?]

/-- A missing symbol is found under the new number, and every other symbol as before. -/
theorem find?_add (h : t.find? s = none) (r : Symbol) :
    (t.add s).2.find? r = if r = s then some t.entries.size else t.find? r := by
  have hindex : (t.add s).2.index = t.index ++ [(s, t.entries.size)] := by
    simp [SymbolTable.add, h]
  rw [find?, hindex, List.lookup_append, ← find?]
  by_cases hr : r = s
  · rw [hr, h, if_pos rfl, List.lookup_cons_self]
    rfl
  · rw [if_neg hr, List.lookup_cons, beq_false_of_ne hr, List.lookup_nil, Option.or_none]

/-- Adding comes behind all that is there. -/
theorem extends_add (t : SymbolTable) (s : Symbol) : t.Extends (t.add s).2 := by
  intro id r h
  have hlt : id < t.entries.size := (Array.getElem?_eq_some_iff.1 h).1
  rw [get?_add, if_neg (Nat.ne_of_lt hlt), h]

/-- A missing symbol is added under a number that no other symbol has. -/
theorem Faithful.add (h : t.Faithful) (hs : t.find? s = none) : (t.add s).2.Faithful := by
  intro id r
  rw [get?_add, find?_add hs]
  by_cases hid : id = t.entries.size
  · -- the new number: no symbol was found under it before
    have hnone : t.find? r ≠ some id := by
      rw [ne_eq, ← h, hid]
      simp [get?]
    rw [if_pos hid, Option.some.injEq]
    by_cases hr : r = s
    · rw [if_pos hr, Option.some.injEq]
      exact iff_of_true hr.symm hid.symm
    · rw [if_neg hr]
      exact iff_of_false (fun heq => hr heq.symm) hnone
  · -- an old number: it is not the number of the new symbol
    rw [if_neg hid, h]
    by_cases hr : r = s
    · rw [if_pos hr, hr, hs, Option.some.injEq]
      exact iff_of_false (fun heq => nomatch heq) fun heq => hid heq.symm
    · rw [if_neg hr]

/-- Interning adds only what is missing, so the table stays faithful. -/
theorem Faithful.intern (h : t.Faithful) (s : Symbol) : (t.intern s).2.Faithful := by
  unfold SymbolTable.intern
  split
  · exact h
  · next hs => exact h.add hs

/-- Interning comes behind all that is there, if it adds anything. -/
theorem extends_intern (t : SymbolTable) (s : Symbol) : t.Extends (t.intern s).2 := by
  unfold SymbolTable.intern
  split
  · exact fun _ _ h => h
  · exact t.extends_add s

/-- The number given to a symbol is the number of that symbol. -/
theorem Faithful.get?_intern (h : t.Faithful) (s : Symbol) :
    (t.intern s).2.get? (t.intern s).1 = some s := by
  unfold SymbolTable.intern
  split
  · next id hs => exact (h id s).2 hs
  · rw [add_fst, get?_add, if_pos rfl]

/-- A known symbol gets its old number, and nothing is added. -/
theorem Faithful.intern_of_get? (h : t.Faithful) {id : Nat} (hs : t.get? id = some s) :
    t.intern s = (id, t) := by
  rw [SymbolTable.intern, (h id s).1 hs]

/-- Interning adds no symbol but the one it is given. -/
theorem get?_intern_eq_some {id : Nat} {r : Symbol} (h : (t.intern s).2.get? id = some r) :
    t.get? id = some r ∨ r = s := by
  unfold SymbolTable.intern at h
  split at h
  · exact .inl h
  · rw [get?_add] at h
    split at h
    · exact .inr (Option.some.inj h).symm
    · exact .inl h

end SymbolTable

/-! ## Well-formed signatures -/

/-- A function symbol has the spelling of a name; a constant may be a number or a distinct
object instead. -/
def Symbol.IsFunction (s : Symbol) : Prop :=
  Spells Token.isAtomic s.name ∨ Spells Token.isConstant s.name ∧ s.arity = 0

/-- A predicate symbol has the spelling of a name. -/
def Symbol.IsPredicate (s : Symbol) : Prop := Spells Token.isAtomic s.name

namespace Signature

variable {σ τ υ : Signature}

/-- The signature names every symbol once, by a word of its kind. -/
structure WellFormed (σ : Signature) : Prop where
  functions_faithful : σ.functions.Faithful
  predicates_faithful : σ.predicates.Faithful
  equality : σ.predicateSymbol? Atom.equality = some ⟨"=", 2⟩
  isVariableName : ∀ {x : Nat} {name : String}, σ.variableName? x = some name → IsVariableName name
  isFunction : ∀ {f : Nat} {s : Symbol}, σ.functionSymbol? f = some s → s.IsFunction
  isPredicate : ∀ {p : Nat} {s : Symbol}, σ.predicateSymbol? p = some s → p ≠ Atom.equality →
    s.IsPredicate

/-- All that the first signature knows the second one knows under the same number. -/
structure Extends (σ τ : Signature) : Prop where
  variables_le : σ.variableNames.size ≤ τ.variableNames.size
  functions : σ.functions.Extends τ.functions
  predicates : σ.predicates.Extends τ.predicates

theorem Extends.refl (σ : Signature) : σ.Extends σ :=
  ⟨Nat.le_refl _, fun _ _ h => h, fun _ _ h => h⟩

/-- Later than a later signature is later. -/
theorem Extends.trans (h : σ.Extends τ) (h' : τ.Extends υ) : σ.Extends υ :=
  ⟨Nat.le_trans h.variables_le h'.variables_le, fun _ _ hs => h'.functions (h.functions hs),
    fun _ _ hs => h'.predicates (h.predicates hs)⟩

/-- The second signature is well formed and later than the first. -/
structure Leads (σ τ : Signature) : Prop where
  wellFormed : τ.WellFormed
  later : σ.Extends τ

theorem WellFormed.leads (h : σ.WellFormed) : σ.Leads σ := ⟨h, .refl σ⟩

/-- The signature that knows equality only is well formed. -/
theorem wellFormed_initial : initial.WellFormed where
  functions_faithful := SymbolTable.faithful_empty
  predicates_faithful := SymbolTable.faithful_empty.add rfl
  equality := rfl
  isVariableName h := by simp [initial, variableName?] at h
  isFunction h := by simp [initial, functionSymbol?, SymbolTable.empty, SymbolTable.get?] at h
  isPredicate {p s} h hp := by
    -- the only symbol is that of equality, and of this nothing is asked
    have hsize : p ≠ SymbolTable.empty.entries.size := hp
    rw [predicateSymbol?, initial, SymbolTable.get?_add, if_neg hsize] at h
    simp [SymbolTable.empty, SymbolTable.get?] at h

/-! ## Adding variables and symbols -/

/-- A variable may be added under any name that is one of a variable, also under one that is
taken. -/
theorem WellFormed.addVariable (h : σ.WellFormed) {name : String} (hname : IsVariableName name) :
    (σ.addVariable name).2.WellFormed where
  functions_faithful := h.functions_faithful
  predicates_faithful := h.predicates_faithful
  equality := h.equality
  isFunction := h.isFunction
  isPredicate := h.isPredicate
  isVariableName {x n} hx := by
    rw [variableName?, Signature.addVariable, Array.getElem?_push] at hx
    split at hx
    · rwa [← Option.some.inj hx]
    · exact h.isVariableName hx

theorem extends_addVariable (σ : Signature) (name : String) : σ.Extends (σ.addVariable name).2 where
  variables_le := by simp [addVariable]
  functions _ _ h := h
  predicates _ _ h := h

/-- A function symbol may be interned if it is spelled as one. -/
theorem WellFormed.internFunction (h : σ.WellFormed) {s : Symbol} (hs : s.IsFunction) :
    (σ.internFunction s).2.WellFormed where
  functions_faithful := h.functions_faithful.intern s
  predicates_faithful := h.predicates_faithful
  equality := h.equality
  isVariableName := h.isVariableName
  isPredicate := h.isPredicate
  isFunction hf := by
    rcases SymbolTable.get?_intern_eq_some hf with hf | rfl
    · exact h.isFunction hf
    · exact hs

theorem extends_internFunction (σ : Signature) (s : Symbol) : σ.Extends (σ.internFunction s).2 where
  variables_le := Nat.le_refl _
  functions := σ.functions.extends_intern s
  predicates _ _ h := h

/-- A known function symbol gets its old number, and the signature stays as it is. -/
theorem internFunction_of_functionSymbol? (h : σ.functions.Faithful) {f : Nat} {s : Symbol}
    (hf : σ.functionSymbol? f = some s) : σ.internFunction s = (f, σ) := by
  rw [Signature.internFunction, h.intern_of_get? hf]

/-- A predicate symbol may be interned if it is spelled as one. -/
theorem WellFormed.internPredicate (h : σ.WellFormed) {s : Symbol} (hs : s.IsPredicate) :
    (σ.internPredicate s).2.WellFormed where
  functions_faithful := h.functions_faithful
  predicates_faithful := h.predicates_faithful.intern s
  equality := σ.predicates.extends_intern s h.equality
  isVariableName := h.isVariableName
  isFunction := h.isFunction
  isPredicate hp hne := by
    rcases SymbolTable.get?_intern_eq_some hp with hp | rfl
    · exact h.isPredicate hp hne
    · exact hs

theorem extends_internPredicate (σ : Signature) (s : Symbol) :
    σ.Extends (σ.internPredicate s).2 where
  variables_le := Nat.le_refl _
  functions _ _ h := h
  predicates := σ.predicates.extends_intern s

/-- A known predicate symbol gets its old number, and the signature stays as it is. -/
theorem internPredicate_of_predicateSymbol? (h : σ.predicates.Faithful) {p : Nat} {s : Symbol}
    (hp : σ.predicateSymbol? p = some s) : σ.internPredicate s = (p, σ) := by
  rw [Signature.internPredicate, h.intern_of_get? hp]

/-! ## Copying variables -/

/-- A copied variable has the name of the old one, or a capital letter and a number. -/
theorem WellFormed.copyVariable (h : σ.WellFormed) (x : Nat) : (σ.copyVariable x).WellFormed := by
  refine h.addVariable ?_
  rcases hx : σ.variableName? x with _ | name
  · have hletter : IsVariableName "X" := ⟨'X', [], rfl, rfl, by simp⟩
    exact hletter.append fun _ => isWordChar_of_mem_toString
  · exact h.isVariableName hx

/-- The signature is well formed after any number of copies. -/
theorem WellFormed.foldl_copyVariable (h : σ.WellFormed) (xs : List Nat) :
    (xs.foldl Signature.copyVariable σ).WellFormed := by
  induction xs generalizing σ with
  | nil => exact h
  | cons x xs ih => exact ih (h.copyVariable x)

/-- Copies come behind the variables that there are. -/
theorem extends_foldl_copyVariable (σ : Signature) (xs : List Nat) :
    σ.Extends (xs.foldl copyVariable σ) := by
  induction xs generalizing σ with
  | nil => exact .refl σ
  | cons x xs ih => exact (σ.extends_addVariable _).trans (ih _)

/-- Every copy takes one number. -/
theorem size_foldl_copyVariable (σ : Signature) (xs : List Nat) :
    (xs.foldl copyVariable σ).variableNames.size = σ.variableNames.size + xs.length := by
  induction xs generalizing σ with
  | nil => rfl
  | cons x xs ih =>
    rw [List.foldl_cons, ih, copyVariable, addVariable, Array.size_push, List.length_cons]
    omega

end Signature

end Clausal
