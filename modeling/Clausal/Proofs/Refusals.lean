/-
What cannot be read, and what is left of the attempt. A text without inclusions is read just
if all its items are clauses in which no reserved word stands for a term or an atom. If one
of them is not, reading stops at the first such item: at the whole item if it is no clause
at all, and otherwise at its first reserved word, which is the outermost of those furthest to
the left. No clause is returned, and the signature has what the items before have
mentioned, and of the item that fails just what stands to the left of that word. The symbols
of the applications around the word are not among these, since they come after their
arguments (`Problem.fromText_refusal`).
-/
import Clausal.Proofs.Concatenation
import Clausal.Proofs.Registration

set_option autoImplicit false

namespace Clausal.Problem

/-! ## Items -/

/-- The complaint about a reserved word is that it is not supported. -/
theorem AtomExpr.FirstReserved.exists_message {a : AtomExpr} {before : List Mention}
    {e : ReadError} (h : a.FirstReserved before e) :
    ∃ what, e.message = "unsupported input: " ++ what := by
  have hterm : ∀ s, (ReadError.reservedTerm s).message =
      "unsupported input: " ++ ("term " ++ s) := by
    intro s
    show "unsupported input: term " ++ s = _
    simp [← String.append_assoc]
  have hatom : ∀ s, (ReadError.reservedAtom s).message =
      "unsupported input: " ++ ("atom " ++ s) := by
    intro s
    show "unsupported input: atom " ++ s = _
    simp [← String.append_assoc]
  cases h with
  | here name args => exact ⟨_, hatom _⟩
  | argument _ _ | left _ | right _ _ => exact ⟨_, hterm _⟩

namespace Item

/-- Asks for another text, or for a part of one. -/
def isInclusion : Item → Bool
  | .inclusion _ _ => true
  | .clause _ _ | .formula _ => false

/-- The item is a clause, and no reserved word stands for a term or an atom in it. -/
inductive Supported : Item → Prop where
  | clause (name : String) {ls : List LiteralExpr} (plain : ∀ l ∈ ls, l.Plain) :
    Supported (.clause name ls)

/-- What an item mentions in the order of the text; only clauses mention anything. -/
def mentions : Item → List Mention
  | .clause _ ls => ls.flatMap LiteralExpr.mentions
  | .formula _ | .inclusion _ _ => []

/-- What there is to complain about in an item that is no inclusion, and what the item
mentions to the left of it. -/
inductive FirstOffence : Item → List Mention → ReadError → Prop where
  | reserved (name : String) {ls : List LiteralExpr} {before : List Mention} {e : ReadError}
    (inside : FirstReservedIn ls before e) : FirstOffence (.clause name ls) before e
  /-- The item is no clause, so all of it is at fault. -/
  | notClausal (spelling : String) : FirstOffence (.formula spelling) [] (.notClausal spelling)

/-- An item that includes nothing is supported, or there is a first thing to complain about. -/
theorem supported_or_firstOffence {i : Item} (hi : i.isInclusion = false) :
    i.Supported ∨ ∃ before e, i.FirstOffence before e := by
  match i, hi with
  | .clause name ls, _ =>
    rcases plain_or_firstReservedIn ls with hls | ⟨before, e, hls⟩
    · exact .inl (.clause name hls)
    · exact .inr ⟨before, e, .reserved name hls⟩
  | .formula spelling, _ => exact .inr ⟨[], _, .notClausal spelling⟩

/-- Every complaint is that something is not supported. -/
theorem FirstOffence.exists_message {i : Item} {before : List Mention} {e : ReadError}
    (h : i.FirstOffence before e) : ∃ what, e.message = "unsupported input: " ++ what := by
  cases h with
  | reserved name inside =>
    obtain ⟨-, inside⟩ := inside
    exact inside.exists_message
  | notClausal spelling =>
    refine ⟨"only cnf formulae are supported, got " ++ spelling, ?_⟩
    show "unsupported input: only cnf formulae are supported, got " ++ spelling = _
    simp [← String.append_assoc]

variable (included : String → Reading (List Clause)) (directory : String) (σ : Signature)

/-- A supported item is read as one clause, and what it mentions is registered. -/
theorem Supported.run_read {i : Item} (h : i.Supported) :
    ∃ c, (i.read included directory).run σ = (.ok [c], registerAll σ i.mentions) := by
  obtain ⟨name, plain⟩ := h
  obtain ⟨c, hrun⟩ := run_readClause_of_plain name σ plain
  exact ⟨c, by rw [Item.read, run_bind, hrun]; rfl⟩

/-- Any other item is refused, and what comes before the offence is registered. -/
theorem FirstOffence.run_read {i : Item} {before : List Mention} {e : ReadError}
    (h : i.FirstOffence before e) :
    (i.read included directory).run σ = (.error e, registerAll σ before) := by
  cases h with
  | reserved name inside =>
    rw [Item.read, run_bind, run_readClause_of_firstReservedIn name σ inside]
  | notClausal spelling => rfl

end Item

/-! ## Texts -/

/-- Registers what the items mention, item by item. Every item has variables of its own. -/
def registerItems (σ : Signature) (is : List Item) : Signature :=
  is.foldl (fun σ i => registerAll σ i.mentions) σ

section

variable (included : String → Reading (List Clause)) (directory : String)

/-- Supported items are read one after the other. -/
theorem run_readItems_of_supported {is : List Item} (h : ∀ i ∈ is, i.Supported) (σ : Signature) :
    ∃ cs, (readItems included directory is).run σ = (.ok cs, registerItems σ is) := by
  induction is generalizing σ with
  | nil => exact ⟨[], rfl⟩
  | cons i is ih =>
    rw [List.forall_mem_cons] at h
    obtain ⟨c, hi⟩ := h.1.run_read included directory σ
    obtain ⟨cs, his⟩ := ih h.2 (registerAll σ i.mentions)
    refine ⟨[c] ++ cs, ?_⟩
    rw [readItems, run_bind, hi]
    simp only
    rw [run_bind, his]
    rfl

/-- The first item that is at fault ends the reading. -/
theorem run_readItems_of_firstOffence {left : List Item} (hleft : ∀ j ∈ left, j.Supported)
    {i : Item} {before : List Mention} {e : ReadError} (hi : i.FirstOffence before e)
    (right : List Item) (σ : Signature) :
    (readItems included directory (left ++ i :: right)).run σ =
      (.error e, registerAll (registerItems σ left) before) := by
  obtain ⟨cs, hrun⟩ := run_readItems_of_supported included directory hleft σ
  rw [run_readItems_append_eq_error_iff hrun, readItems, run_bind, hi.run_read]

end

/-- A document without a fault is read as its items are. -/
theorem Document.run_read_of_fault_eq_none {included : String → Reading (List Clause)}
    {directory : String} {d : Document} {σ : Signature} (h : d.fault = none) :
    (d.read included directory).run σ = (readItems included directory d.items).run σ := by
  rw [Document.read, h]
  exact congrArg (fun m : Reading (List Clause) => m.run σ) (bind_pure _)

/-- **What cannot be read.** A text of items, none of which is an inclusion, is read just if
all of them are clauses without reserved words. Reading it fails with an error just if this
is the complaint about the first item that is not supported, and it leaves what the items
before mention and what this item mentions before the place of the complaint. -/
theorem fromText_refusal (files : FileSystem) {text : String}
    (hfault : (Document.ofBytes (utf8 text)).fault = none)
    (hitems : ∀ i ∈ (Document.ofBytes (utf8 text)).items, i.isInclusion = false) (σ : Signature) :
    ((∃ cs τ, (fromText files text).run σ = (.ok cs, τ)) ↔
      ∀ i ∈ (Document.ofBytes (utf8 text)).items, i.Supported) ∧
    ∀ e τ, (fromText files text).run σ = (.error e, τ) ↔
      ∃ left i right before, (Document.ofBytes (utf8 text)).items = left ++ i :: right ∧
        (∀ j ∈ left, j.Supported) ∧ i.FirstOffence before e ∧
        (∃ what, e.message = "unsupported input: " ++ what) ∧
        τ = registerAll (registerItems σ left) before := by
  have hread : (fromText files text).run σ =
      (readItems (readNested files files.depth) "./" (Document.ofBytes (utf8 text)).items).run σ :=
    Document.run_read_of_fault_eq_none hfault
  rw [hread]
  generalize (Document.ofBytes (utf8 text)).items = items at hitems
  rcases forall_or_exists_first fun i hi => Item.supported_or_firstOffence (hitems i hi) with
    hall | ⟨left, i, right, rfl, hleft, before, e, hi⟩
  · -- nothing to complain about: an offence would be in a supported item
    obtain ⟨cs, hrun⟩ := run_readItems_of_supported (readNested files files.depth) "./" hall σ
    refine ⟨iff_of_true ⟨cs, _, hrun⟩ hall, fun e τ => iff_of_false ?_ ?_⟩
    · rw [hrun]
      exact fun h => nomatch h
    · rintro ⟨left, i, right, before, rfl, hleft, hi, -⟩
      have hfails := run_readItems_of_firstOffence (readNested files files.depth) "./" hleft hi
        right σ
      rw [hrun] at hfails
      cases hfails
  -- the first offence: reading stops there, so this is the error and no other
  · have hrun := run_readItems_of_firstOffence (readNested files files.depth) "./" hleft hi right σ
    constructor
    · refine iff_of_false ?_ fun hall => ?_
      · rintro ⟨cs, τ, hok⟩
        rw [hrun] at hok
        cases hok
      · obtain ⟨cs, hok⟩ := run_readItems_of_supported (readNested files files.depth) "./" hall σ
        rw [hrun] at hok
        cases hok
    · intro e' τ
      constructor
      · intro hfails
        rw [hrun] at hfails
        obtain ⟨he, rfl⟩ := Prod.mk.inj hfails
        obtain rfl := Except.error.inj he
        exact ⟨left, i, right, before, rfl, hleft, hi, hi.exists_message, rfl⟩
      · rintro ⟨left', i', right', before', heq, hleft', hi', -, rfl⟩
        rw [heq]
        exact run_readItems_of_firstOffence _ _ hleft' hi' right' σ

/-- The second clause has a reserved word in an argument of an argument of its second atom,
with another one inside and a third one behind it. Both clauses mention a variable `X` of
their own and the one predicate `p`; neither `h` nor `q` gets a number. -/
theorem fromText_refusal_nested :
    ∃ (text : String) (τ : Signature),
      text = "cnf(a, axiom, p(X)). cnf(b, axiom, p(f(X, g(Y))) | q(c, h($d($e), b)) | $true)." ∧
      (Document.ofBytes (utf8 text)).fault = none ∧
      (∀ i ∈ (Document.ofBytes (utf8 text)).items, i.isInclusion = false) ∧
      (fromText (Directory.ofFiles []).toFileSystem text).run .initial =
        (.error (.reservedTerm "$d($e)"), τ) ∧
      τ.variableNames = #["X", "X", "Y"] ∧
      τ.functions.entries = #[⟨"g", 1⟩, ⟨"f", 2⟩, ⟨"c", 0⟩] ∧
      τ.predicates.entries = #[⟨"=", 2⟩, ⟨"p", 1⟩] ∧
      ∃ left i right before, (Document.ofBytes (utf8 text)).items = left ++ i :: right ∧
        (∀ j ∈ left, j.Supported) ∧ i.FirstOffence before (.reservedTerm "$d($e)") ∧
        (∃ what, (ReadError.reservedTerm "$d($e)").message = "unsupported input: " ++ what) ∧
        τ = registerAll (registerItems .initial left) before := by
  let text := "cnf(a, axiom, p(X)). cnf(b, axiom, p(f(X, g(Y))) | q(c, h($d($e), b)) | $true)."
  let files := (Directory.ofFiles []).toFileSystem
  let τ : Signature := ⟨#["X", "X", "Y"],
    ⟨#[⟨"g", 1⟩, ⟨"f", 2⟩, ⟨"c", 0⟩], [(⟨"g", 1⟩, 0), (⟨"f", 2⟩, 1), (⟨"c", 0⟩, 2)]⟩,
    ⟨#[⟨"=", 2⟩, ⟨"p", 1⟩], [(⟨"=", 2⟩, 0), (⟨"p", 1⟩, 1)]⟩⟩
  obtain ⟨hfault, hitems⟩ : (Document.ofBytes (utf8 text)).fault = none ∧
      ∀ i ∈ (Document.ofBytes (utf8 text)).items, i.isInclusion = false := by decide +kernel
  obtain ⟨herror, hleaves⟩ : ((fromText files text).run .initial).1 =
      .error (.reservedTerm "$d($e)") ∧ ((fromText files text).run .initial).2 = τ := by
    decide +kernel
  have hrun : (fromText files text).run .initial = (.error (.reservedTerm "$d($e)"), τ) :=
    Prod.ext herror hleaves
  exact ⟨text, τ, rfl, hfault, hitems, hrun, rfl, rfl, rfl,
    ((fromText_refusal files hfault hitems .initial).2 _ _).1 hrun⟩

end Clausal.Problem
