/-
Signatures over time. Whatever is done to a signature, by hand, by copying a clause or by
reading a text that may turn out not to be readable, comes down to adding one variable or
symbol after the other (`Signature.Develops`). An addition leaves all numbers as they are, and
the number under which a symbol is found is the first one that it got.

So a number means one thing at all times, and interning a symbol gives the same number again
however much has happened in between, while no other symbol is given that number
(`Signature.after_consistent`).
-/
import Clausal.Proofs.Inclusions
import Clausal.Proofs.Registration
import Clausal.Proofs.Translation
import Mathlib.Logic.Relation
import Mathlib.Order.Bounds.Defs

set_option autoImplicit false

namespace Clausal

open Problem

/-! ## First numbers -/

namespace SymbolTable

variable {t : SymbolTable}

/-- The index has the symbols of the table and no others, and has each of them under its
first number. -/
structure FirstNumbers (t : SymbolTable) : Prop where
  exists_find?_iff : ∀ s, (∃ id, t.find? s = some id) ↔ ∃ id, t.get? id = some s
  isLeast_of_find? : ∀ s id, t.find? s = some id → IsLeast {k | t.get? k = some s} id

/-- An index that finds first numbers finds the least ones. -/
theorem Indexed.firstNumbers (h : t.Indexed) : t.FirstNumbers where
  exists_find?_iff s := by
    constructor
    · rintro ⟨id, hid⟩
      exact ⟨id, ((h s id).1 hid).get?_eq⟩
    · rintro ⟨id, hid⟩
      -- a symbol of the table is missing from the index: then it has no number at all
      by_contra hnone
      rw [← Option.isSome_iff_exists, Option.not_isSome_iff_eq_none] at hnone
      exact h.get?_ne_of_find? hnone id hid
  isLeast_of_find? s id hid := by
    have hfirst := (h s id).1 hid
    refine ⟨hfirst.get?_eq, fun k hk => ?_⟩
    by_contra hlt
    exact hfirst.ne_of_lt k (Nat.lt_of_not_le hlt) hk

/-- A symbol with a first number is interned under it, and no other symbol is. -/
theorem Indexed.intern_fst_eq_iff (h : t.Indexed) {s : Symbol} {id : Nat} (hs : t.IsFirst s id)
    (r : Symbol) : (t.intern r).1 = id ↔ r = s :=
  (h.isFirst_intern r).eq_iff (hs.intern r)

end SymbolTable

namespace Signature

/-! ## Additions -/

/-- One variable or symbol is added, which may be known already. -/
inductive Adds : Signature → Signature → Prop where
  | addVariable (σ : Signature) (name : String) : Adds σ (σ.addVariable name).2
  | addFunction (σ : Signature) (s : Symbol) : Adds σ (σ.addFunction s).2
  | addPredicate (σ : Signature) (s : Symbol) : Adds σ (σ.addPredicate s).2

/-- The second signature comes about from the first by additions. -/
def Develops : Signature → Signature → Prop := Relation.ReflTransGen Adds

/-- What the first signature knows the second one knows under the same number and by the
same name. -/
structure Preserves (σ τ : Signature) : Prop where
  variableNames : ∀ x name, σ.variableName? x = some name → τ.variableName? x = some name
  functions : ∀ f s, σ.functionSymbol? f = some s → τ.functionSymbol? f = some s
  predicates : ∀ p s, σ.predicateSymbol? p = some s → τ.predicateSymbol? p = some s

variable {σ τ υ : Signature}

theorem Preserves.refl (σ : Signature) : σ.Preserves σ :=
  ⟨fun _ _ h => h, fun _ _ h => h, fun _ _ h => h⟩

/-- What is preserved twice is preserved. -/
theorem Preserves.trans (h : σ.Preserves τ) (h' : τ.Preserves υ) : σ.Preserves υ :=
  ⟨fun x n hx => h'.variableNames x n (h.variableNames x n hx),
    fun f s hf => h'.functions f s (h.functions f s hf),
    fun p s hp => h'.predicates p s (h.predicates p s hp)⟩

/-- An addition changes nothing that is known. -/
theorem Adds.preserves (h : σ.Adds τ) : σ.Preserves τ := by
  cases h with
  | addVariable name =>
    refine ⟨fun x n hx => ?_, fun _ _ h => h, fun _ _ h => h⟩
    have hlt : x < σ.variableNames.size := (Array.getElem?_eq_some_iff.1 hx).1
    rw [variableName?, Signature.addVariable, Array.getElem?_push, if_neg (Nat.ne_of_lt hlt)]
    exact hx
  | addFunction s =>
    exact ⟨fun _ _ h => h, fun _ _ h => σ.functions.extends_add s h, fun _ _ h => h⟩
  | addPredicate s =>
    exact ⟨fun _ _ h => h, fun _ _ h => h, fun _ _ h => σ.predicates.extends_add s h⟩

/-- An addition is one of the ways to build a signature. -/
theorem Adds.built (h : σ.Adds τ) (hσ : σ.Built) : τ.Built := by
  cases h with
  | addVariable name => exact hσ.addVariable name
  | addFunction s => exact hσ.addFunction s
  | addPredicate s => exact hσ.addPredicate s

/-- An addition leaves every first number what it is. -/
theorem Adds.isFirst (h : σ.Adds τ) {s : Symbol} {id : Nat} :
    (σ.functions.IsFirst s id → τ.functions.IsFirst s id) ∧
      (σ.predicates.IsFirst s id → τ.predicates.IsFirst s id) := by
  cases h with
  | addVariable name => exact ⟨fun h => h, fun h => h⟩
  | addFunction r => exact ⟨fun h => h.add r, fun h => h⟩
  | addPredicate r => exact ⟨fun h => h, fun h => h.add r⟩

namespace Develops

/-- A development changes nothing that is known, step by step. -/
theorem preserves (h : σ.Develops τ) : σ.Preserves τ := by
  induction h with
  | refl => exact .refl σ
  | tail _ hstep ih => exact ih.trans hstep.preserves

/-- A development of a built signature is built. -/
theorem built (h : σ.Develops τ) (hσ : σ.Built) : τ.Built := by
  induction h with
  | refl => exact hσ
  | tail _ hstep ih => exact hstep.built ih

/-- A development leaves every first number what it is. -/
theorem isFirst (h : σ.Develops τ) {s : Symbol} {id : Nat} :
    (σ.functions.IsFirst s id → τ.functions.IsFirst s id) ∧
      (σ.predicates.IsFirst s id → τ.predicates.IsFirst s id) := by
  induction h with
  | refl => exact ⟨fun h => h, fun h => h⟩
  | tail _ hstep ih => exact ⟨fun h => hstep.isFirst.1 (ih.1 h), fun h => hstep.isFirst.2 (ih.2 h)⟩

end Develops

/-! ## Everything is made of additions -/

/-- A fold of developments is a development. -/
theorem develops_foldl {α : Type} {f : Signature → α → Signature}
    (h : ∀ (σ : Signature) (a : α), σ.Develops (f σ a)) (σ : Signature) (as : List α) :
    σ.Develops (as.foldl f σ) := by
  induction as generalizing σ with
  | nil => exact .refl
  | cons a as ih => exact (h σ a).trans (ih (f σ a))

/-- Interning a function symbol is adding it, or nothing. -/
theorem develops_internFunction (σ : Signature) (s : Symbol) :
    σ.Develops (σ.internFunction s).2 := by
  rcases hs : σ.functions.find? s with _ | id
  · have hadd : (σ.internFunction s).2 = (σ.addFunction s).2 := by
      rw [internFunction, SymbolTable.intern, hs, addFunction]
    rw [hadd]
    exact .single (.addFunction σ s)
  · have hkeep : (σ.internFunction s).2 = σ := by rw [internFunction, SymbolTable.intern, hs]
    rw [hkeep]
    exact .refl

/-- Interning a predicate symbol is adding it, or nothing. -/
theorem develops_internPredicate (σ : Signature) (s : Symbol) :
    σ.Develops (σ.internPredicate s).2 := by
  rcases hs : σ.predicates.find? s with _ | id
  · have hadd : (σ.internPredicate s).2 = (σ.addPredicate s).2 := by
      rw [internPredicate, SymbolTable.intern, hs, addPredicate]
    rw [hadd]
    exact .single (.addPredicate σ s)
  · have hkeep : (σ.internPredicate s).2 = σ := by rw [internPredicate, SymbolTable.intern, hs]
    rw [hkeep]
    exact .refl

/-- A copy adds its variables one after the other. -/
theorem develops_freshCopy (σ : Signature) (c : Clause) : σ.Develops (σ.freshCopy c).2 :=
  develops_foldl (fun σ _ => .single (.addVariable σ _)) σ c.distinctVars

/-- Registering adds what is mentioned, each when it comes first. -/
theorem develops_registerAll (σ : Signature) (ms : List Mention) :
    σ.Develops (registerAll σ ms) := by
  refine develops_foldl (fun τ m => ?_) σ ms.eraseDups
  cases m with
  | var name => exact .single (.addVariable τ name)
  | function s => exact τ.develops_internFunction s
  | predicate s => exact τ.develops_internPredicate s

instance : LeadsOn Develops where
  trans h h' := h.trans h'
  stay _ := .refl

end Signature

/-! ## Reading -/

namespace Problem

open Signature

/-- Whether it succeeds or fails, the computation only adds to the signature. -/
def OnlyAdds (m : Reading (List Clause)) : Prop :=
  ∀ σ : Signature, Ensures Develops σ m fun _ _ => True

/-- Adding goes through all ways in which reading is put together. -/
theorem compositional_onlyAdds : Compositional OnlyAdds where
  nil _ := ensures_pure .refl trivial
  throw _ _ := ensures_throw .refl
  append hm hk σ :=
    (hm σ).bind fun _ τ _ _ => (hk τ).bind fun _ _ _ _ => ensures_pure .refl trivial
  refuse _ hm σ := (hm σ).bind fun _ _ _ _ => ensures_throw .refl

/-- A clause is read or refused, and either way what has been mentioned is registered. -/
theorem onlyAdds_clause (name : String) (ls : List LiteralExpr) :
    OnlyAdds (do let c ← readClause name ls; pure [c]) := by
  intro σ
  have hclause : Ensures Develops σ (readClause name ls) fun _ _ => True := by
    refine ⟨?_, fun _ _ => trivial⟩
    rcases plain_or_firstReservedIn ls with hplain | ⟨before, e, hfirst⟩
    · obtain ⟨c, hrun⟩ := run_readClause_of_plain name σ hplain
      rw [hrun]
      exact σ.develops_registerAll _
    · rw [run_readClause_of_firstReservedIn name σ hfirst]
      exact σ.develops_registerAll before
  exact hclause.bind fun _ _ _ _ => ensures_pure .refl trivial

/-- Reading a text only adds to the signature, whether it succeeds or fails. -/
theorem develops_fromText (files : FileSystem) (text : String) (σ : Signature) :
    σ.Develops ((fromText files text).run σ).2 :=
  (compositional_onlyAdds.fromText files text
    (fun name ls _ _ => onlyAdds_clause name ls) σ).related

/-- Reading a file only adds to the signature, whether it succeeds or fails. -/
theorem develops_fromFile (files : FileSystem) (path : String) (σ : Signature) :
    σ.Develops ((fromFile files path).run σ).2 :=
  (compositional_onlyAdds.fromFile files path
    (fun _ _ name ls _ _ => onlyAdds_clause name ls) σ).related

end Problem

/-! ## Histories -/

namespace Signature

/-- What can be done to a signature. -/
inductive Operation where
  | addVariable (name : String)
  | addFunction (s : Symbol)
  | addPredicate (s : Symbol)
  | internFunction (s : Symbol)
  | internPredicate (s : Symbol)
  /-- Any clause is copied over new variables, whether the signature knows it or not. -/
  | freshCopy (c : Clause)
  /-- A text is read, or a file. Where this fails, what has been added by then stays. -/
  | readText (files : FileSystem) (text : String)
  | readFile (files : FileSystem) (path : String)

/-- The signature that an operation leaves. -/
def perform (σ : Signature) : Operation → Signature
  | .addVariable name => (σ.addVariable name).2
  | .addFunction s => (σ.addFunction s).2
  | .addPredicate s => (σ.addPredicate s).2
  | .internFunction s => (σ.internFunction s).2
  | .internPredicate s => (σ.internPredicate s).2
  | .freshCopy c => (σ.freshCopy c).2
  | .readText files text => ((fromText files text).run σ).2
  | .readFile files path => ((fromFile files path).run σ).2

/-- The signature after some operations. -/
def after (σ : Signature) (history : List Operation) : Signature := history.foldl perform σ

/-- Each operation only adds. -/
theorem develops_perform (σ : Signature) (op : Operation) : σ.Develops (σ.perform op) := by
  cases op with
  | addVariable name => exact .single (.addVariable σ name)
  | addFunction s => exact .single (.addFunction σ s)
  | addPredicate s => exact .single (.addPredicate σ s)
  | internFunction s => exact σ.develops_internFunction s
  | internPredicate s => exact σ.develops_internPredicate s
  | freshCopy c => exact σ.develops_freshCopy c
  | readText files text => exact develops_fromText files text σ
  | readFile files path => exact develops_fromFile files path σ

/-- **A history only adds.** -/
theorem develops_after (σ : Signature) (history : List Operation) : σ.Develops (σ.after history) :=
  develops_foldl develops_perform σ history

/-- The number under which a function symbol is interned belongs to it ever after. -/
theorem Built.internFunction_after {σ : Signature} (hσ : σ.Built) (s : Symbol)
    (later : List Operation) :
    ((σ.internFunction s).2.after later).functionSymbol? (σ.internFunction s).1 = some s ∧
      ∀ r, (((σ.internFunction s).2.after later).internFunction r).1 = (σ.internFunction s).1 ↔
        r = s := by
  have hlater := (σ.internFunction s).2.develops_after later
  have hbuilt := hlater.built (hσ.internFunction s)
  have hfirst := hlater.isFirst.1 (hσ.indexed.functions.isFirst_intern s)
  exact ⟨hfirst.get?_eq, hbuilt.indexed.functions.intern_fst_eq_iff hfirst⟩

/-- The number under which a predicate symbol is interned belongs to it ever after. -/
theorem Built.internPredicate_after {σ : Signature} (hσ : σ.Built) (s : Symbol)
    (later : List Operation) :
    ((σ.internPredicate s).2.after later).predicateSymbol? (σ.internPredicate s).1 = some s ∧
      ∀ r, (((σ.internPredicate s).2.after later).internPredicate r).1 =
        (σ.internPredicate s).1 ↔ r = s := by
  have hlater := (σ.internPredicate s).2.develops_after later
  have hbuilt := hlater.built (hσ.internPredicate s)
  have hfirst := hlater.isFirst.2 (hσ.indexed.predicates.isFirst_intern s)
  exact ⟨hfirst.get?_eq, hbuilt.indexed.predicates.intern_fst_eq_iff hfirst⟩

/-- **Numbers keep their meaning.** After any history of a signature, looking up finds the
symbols that there are, each under its first number, and equality is the predicate 0. What is
done next changes nothing that is known. A symbol that is interned has its number from then
on: later the number still means this symbol, and interning gives this number for it and for
no other. -/
theorem after_consistent (history : List Operation) :
    (initial.after history).functions.FirstNumbers ∧
    (initial.after history).predicates.FirstNumbers ∧
    (initial.after history).predicateSymbol? Atom.equality = some ⟨"=", 2⟩ ∧
    (∀ op, (initial.after history).Preserves ((initial.after history).perform op)) ∧
    (∀ s later,
      (((initial.after history).internFunction s).2.after later).functionSymbol?
        ((initial.after history).internFunction s).1 = some s ∧
      ∀ r, ((((initial.after history).internFunction s).2.after later).internFunction r).1 =
        ((initial.after history).internFunction s).1 ↔ r = s) ∧
    ∀ s later,
      (((initial.after history).internPredicate s).2.after later).predicateSymbol?
        ((initial.after history).internPredicate s).1 = some s ∧
      ∀ r, ((((initial.after history).internPredicate s).2.after later).internPredicate r).1 =
        ((initial.after history).internPredicate s).1 ↔ r = s := by
  have hbuilt := (initial.develops_after history).built .initial
  exact ⟨hbuilt.indexed.functions.firstNumbers, hbuilt.indexed.predicates.firstNumbers,
    hbuilt.indexed.equality, fun op => (develops_perform _ op).preserves,
    fun s later => hbuilt.internFunction_after s later,
    fun s later => hbuilt.internPredicate_after s later⟩

end Signature

end Clausal
