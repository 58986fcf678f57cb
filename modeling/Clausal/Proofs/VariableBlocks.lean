/-
The variables of the clauses of a text. Reading gives every clause variables of its own,
numbered where they first occur, so that the clauses of a text own one block of numbers
after the other, from the first number that the signature had free to the last one that it
has given away in the end. No clause shares a variable with another one, nor with anything
that was there before; and all that it is made of is known to the signature by then, every
symbol with its number of arguments (`reads_variableBlocks`).

Of the signature nothing is assumed but that it has been built up from the initial one.
In particular its names may be anything, and a symbol may have several numbers.

The invariant inside a clause is `Scope.Counts`: after the variable occurrences `ws`, the
distinct entries of `ws` are the numbers given away since the clause began. It does not
matter that a clause drops repeated literals, since these bring no new variable.
-/
import Clausal.Files.Directory
import Clausal.Proofs.Inclusions
import Clausal.Proofs.ScopeInvariants

set_option autoImplicit false

namespace Clausal.Problem

/-! ## Inside a clause -/

namespace Scope

/-- The scope after the variable occurrences `ws` of a clause that began when there were
`n` variables. -/
structure Counts (n : Nat) (ws : List Nat) (s : Scope) : Prop where
  built : s.signature.Built
  le_size : n ≤ s.signature.variableNames.size
  eraseDups_eq : ws.eraseDups = List.range' n (s.signature.variableNames.size - n)
  /-- A name stands for a variable that has occurred. -/
  bound : ∀ b ∈ s.bound, b.2 ∈ ws

/-- The signature has been built up further. -/
def Grows (s s' : Scope) : Prop := s.signature.Grows s'.signature

instance : LeadsOn Grows where
  trans h h' := h.trans h'
  stay h := h.built.grows

variable {n : Nat} {ws : List Nat} {s : Scope}

/-- A clause starts without variables, behind those of the signature. -/
theorem counts_start {σ : Signature} (h : σ.Built) : Counts σ.variableNames.size [] ⟨σ, []⟩ where
  built := h
  le_size := Nat.le_refl _
  eraseDups_eq := by rw [Nat.sub_self]; rfl
  bound b hb := absurd hb List.not_mem_nil

/-- The variables up to now are a block, from the first number of the clause to the last of the
signature. -/
theorem Counts.mem_iff (h : s.Counts n ws) {x : Nat} :
    x ∈ ws ↔ n ≤ x ∧ x < s.signature.variableNames.size := by
  have hle := h.le_size
  rw [← List.mem_eraseDups, h.eraseDups_eq, List.mem_range'_1]
  omega

/-- A variable that occurs again takes no new number. -/
theorem Counts.concat_of_mem (h : s.Counts n ws) {x : Nat} (hx : x ∈ ws) :
    s.Counts n (ws ++ [x]) where
  built := h.built
  le_size := h.le_size
  eraseDups_eq := by rw [eraseDups_concat_of_mem hx, h.eraseDups_eq]
  bound b hb := List.mem_append_left _ (h.bound b hb)

/-- A new variable takes the next number. -/
theorem Counts.addVariable (h : s.Counts n ws) (name : String) :
    Counts n (ws ++ [s.signature.variableNames.size])
      ⟨(s.signature.addVariable name).2,
        s.bound ++ [(name, s.signature.variableNames.size)]⟩ where
  built := h.built.addVariable name
  le_size := Nat.le_trans h.le_size (s.signature.extends_addVariable name).variables_le
  eraseDups_eq := by
    have hle := h.le_size
    -- all that has occurred is below the new number
    have hnew : s.signature.variableNames.size ∉ ws := by
      rw [h.mem_iff]
      omega
    have hsize : (s.signature.addVariable name).2.variableNames.size - n =
        s.signature.variableNames.size - n + 1 := by
      rw [Signature.addVariable, Array.size_push]
      omega
    have hlast : n + (s.signature.variableNames.size - n) = s.signature.variableNames.size := by
      omega
    rw [eraseDups_concat_of_not_mem hnew, h.eraseDups_eq, hsize, List.range'_1_concat, hlast]
  bound b hb := by
    rcases List.mem_append.1 hb with hb | hb
    · exact List.mem_append_left _ (h.bound b hb)
    · rw [List.mem_singleton.1 hb]
      exact List.mem_append_right _ (List.mem_singleton_self _)

/-- Symbols may be added without any effect on variables. -/
theorem Counts.withSignature (h : s.Counts n ws) {τ : Signature} (hτ : τ.Built)
    (hvariables : τ.variableNames = s.signature.variableNames) :
    Counts n ws { s with signature := τ } where
  built := hτ
  le_size := hvariables ▸ h.le_size
  eraseDups_eq := hvariables ▸ h.eraseDups_eq
  bound := h.bound

/-- A variable that is resolved is in the block, or it becomes the next one of it. -/
theorem Counts.resolve (h : s.Counts n ws) (name : String) :
    (s.resolve name).2.Counts n (ws ++ (s.resolve name).1.vars) := by
  rcases hlookup : s.bound.lookup name with _ | x
  · rw [resolve_of_eq_none hlookup]
    exact h.addVariable name
  · rw [resolve_of_eq_some hlookup]
    exact h.concat_of_mem (h.bound _ (mem_bound_of_lookup hlookup))

/-- Whatever the names are, the count is kept. -/
theorem invariant_counts (n : Nat) : Invariant Grows (Counts n) where
  leads h hlater := ⟨h.built, hlater⟩
  later h := h.later
  indexed h := h.built.indexed
  bound h b hb := (h.mem_iff.1 (h.bound b hb)).2
  resolve h name _ := h.resolve name
  apply h _ _ _ := h.withSignature (h.built.internFunction _) rfl
  atom h _ _ _ := h.withSignature (h.built.internPredicate _) rfl

end Scope

/-! ## Whole texts -/

/-- Literals that a clause drops have no variable that it does not have anyway. -/
theorem distinctVars_make (ls : List Literal) (provenance : Provenance) :
    (Clause.make ls provenance).distinctVars = (ls.flatMap Literal.vars).eraseDups :=
  eraseDups_flatMap_eraseDups Literal.vars ls

/-- Between the first signature and the second, the clauses have taken all new variables,
block by block, and they are over the second. -/
structure OwnBlocks (σ τ : Signature) (cs : List Clause) : Prop where
  numbers : cs.flatMap Clause.distinctVars =
    List.range' σ.variableNames.size (τ.variableNames.size - σ.variableNames.size)
  known : ∀ c ∈ cs, ∀ l ∈ c.literals, l.Over τ

theorem ownBlocks_nil (σ : Signature) : OwnBlocks σ σ [] where
  numbers := by rw [Nat.sub_self]; rfl
  known c hc := absurd hc List.not_mem_nil

/-- Blocks that follow one another. -/
theorem OwnBlocks.append {σ τ υ : Signature} {cs ds : List Clause} (hcs : OwnBlocks σ τ cs)
    (hle : σ.variableNames.size ≤ τ.variableNames.size) (hds : OwnBlocks τ υ ds)
    (hlater : τ.Extends υ) : OwnBlocks σ υ (cs ++ ds) where
  numbers := by
    have hle' := hlater.variables_le
    -- the second block begins where the first one ends
    have hmiddle : τ.variableNames.size =
        σ.variableNames.size + (τ.variableNames.size - σ.variableNames.size) := by
      omega
    have hlength : τ.variableNames.size - σ.variableNames.size +
        (υ.variableNames.size - τ.variableNames.size) =
          υ.variableNames.size - σ.variableNames.size := by
      omega
    have hnext : ds.flatMap Clause.distinctVars =
        List.range' (σ.variableNames.size + (τ.variableNames.size - σ.variableNames.size))
          (υ.variableNames.size - τ.variableNames.size) := by
      rw [← hmiddle, hds.numbers]
    rw [List.flatMap_append, hcs.numbers, hnext, List.range'_append_1, hlength]
  known c hc l hl := by
    rcases List.mem_append.1 hc with hc | hc
    · exact Atom.Over.mono hlater (hcs.known c hc l hl)
    · exact hds.known c hc l hl

/-- No two clauses share a variable, since no number is in a block twice. -/
theorem OwnBlocks.pairwise {σ τ : Signature} {cs : List Clause} (h : OwnBlocks σ τ cs) :
    cs.Pairwise fun c d => ∀ x ∈ c.vars, x ∉ d.vars := by
  have hnodup : (cs.flatMap Clause.distinctVars).Nodup := by
    rw [h.numbers]
    exact List.nodup_range'
  refine (List.nodup_flatMap.1 hnodup).2.imp fun hdisjoint x hc hd => ?_
  exact hdisjoint (List.mem_eraseDups.2 hc) (List.mem_eraseDups.2 hd)

/-- The variables of the clauses are new. -/
theorem OwnBlocks.variableName?_eq_none {σ τ : Signature} {cs : List Clause}
    (h : OwnBlocks σ τ cs) {c : Clause} (hc : c ∈ cs) {x : Nat} (hx : x ∈ c.vars) :
    σ.variableName? x = none := by
  have hmem : x ∈ cs.flatMap Clause.distinctVars :=
    List.mem_flatMap.2 ⟨c, hc, List.mem_eraseDups.2 hx⟩
  rw [h.numbers, List.mem_range'_1] at hmem
  exact Array.getElem?_eq_none hmem.1

instance : LeadsOn Signature.Grows where
  trans h h' := h.trans h'
  stay h := h.built.grows

/-- From any signature that has been built up, the computation builds it up further, and
the clauses that it returns own the new variables. -/
def ReadsBlocks (m : Reading (List Clause)) : Prop :=
  ∀ σ : Signature, σ.Built → Ensures Signature.Grows σ m (OwnBlocks σ)

/-- Reading clauses with blocks of their own goes through all ways in which reading is put
together. -/
theorem compositional_readsBlocks : Compositional ReadsBlocks where
  nil σ hσ := ensures_pure hσ.grows (ownBlocks_nil σ)
  throw _ σ hσ := ensures_throw hσ.grows
  append {m k} hm hk σ hσ := by
    refine (hm σ hσ).bind fun here τ hτ hhere => ?_
    refine (hk τ hτ.built).bind fun later υ hυ hlater => ?_
    exact ensures_pure hυ.built.grows (hhere.append hτ.later.variables_le hlater hυ.later)
  refuse e hm σ hσ := (hm σ hσ).bind fun _ τ hτ _ => ensures_throw hτ.built.grows

/-- A clause takes one block, all of the variables that it adds. -/
theorem readsBlocks_clause {name : String} {ls : List LiteralExpr}
    (h : (Item.clause name ls).WellSpelled) :
    ReadsBlocks (do let c ← readClause name ls; pure [c]) := by
  intro σ hσ
  have hreads := readsOn_readLiterals (Scope.invariant_counts σ.variableNames.size) h.2.2
  have hclause : Ensures Signature.Grows σ (readClause name ls) fun τ c => OwnBlocks σ τ [c] := by
    refine (hreads (Scope.counts_start hσ)).readClause (fun _ h => h) ?_
    rintro s ms ⟨hcounts, -, hover⟩
    refine ⟨?_, List.forall_mem_singleton.2 fun m hm => hover m (Clause.mem_make.1 hm)⟩
    rw [List.flatMap_singleton, distinctVars_make]
    exact hcounts.eraseDups_eq
  exact hclause.bind fun c τ hτ hc => ensures_pure hτ.built.grows hc

/-- **Blocks of variables.** The clauses read from a text or a file have the new variables
of the signature among themselves: in the order of the clauses, and of first occurrence in
each clause, these are numbered through. So no clause shares a variable with another one or
with anything that is over the signature from before. And every symbol in the clauses is
known afterwards, with as many arguments as it has there. -/
theorem reads_variableBlocks {σ : Signature} (hσ : σ.Built) (files : FileSystem)
    {m : Reading (List Clause)}
    (hm : (∃ text, m = fromText files text) ∨ ∃ path, m = fromFile files path)
    {cs : List Clause} {τ : Signature} (h : m.run σ = (.ok cs, τ)) :
    σ.variableNames.size ≤ τ.variableNames.size ∧
      cs.flatMap Clause.distinctVars =
        List.range' σ.variableNames.size (τ.variableNames.size - σ.variableNames.size) ∧
      cs.Pairwise (fun c d => ∀ x ∈ c.vars, x ∉ d.vars) ∧
      (∀ c ∈ cs, ∀ x ∈ c.vars, σ.variableName? x = none) ∧
      ∀ c ∈ cs, ∀ l ∈ c.literals, l.Over τ := by
  have hreads : ReadsBlocks m := by
    rcases hm with ⟨text, rfl⟩ | ⟨path, rfl⟩
    · exact compositional_readsBlocks.fromText files text fun _ _ h _ => readsBlocks_clause h
    · exact compositional_readsBlocks.fromFile files path fun _ _ _ _ h _ => readsBlocks_clause h
  obtain ⟨hgrows, hreturns⟩ := hreads σ hσ
  rw [h] at hgrows hreturns
  have hblocks := hreturns cs rfl
  exact ⟨hgrows.later.variables_le, hblocks.numbers, hblocks.pairwise,
    fun c hc x hx => hblocks.variableName?_eq_none hc hx, hblocks.known⟩

/-- A text that includes a file with a repeated literal, read into a signature with a
variable and with the same function symbol twice. -/
theorem reads_variableBlocks_included :
    ∃ (σ τ : Signature) (files : FileSystem) (cs : List Clause), σ.Built ∧
      σ.variableNames.size = 1 ∧ τ.variableNames.size = 5 ∧
      (fromText files "include('b.p'). cnf(a, axiom, p(f(X)) | X = Y).").run σ = (.ok cs, τ) ∧
      cs.map Clause.distinctVars = [[1, 2], [3, 4]] ∧
      cs.flatMap Clause.distinctVars =
        List.range' σ.variableNames.size (τ.variableNames.size - σ.variableNames.size) ∧
      cs.Pairwise (fun c d => ∀ x ∈ c.vars, x ∉ d.vars) ∧
      (∀ c ∈ cs, ∀ x ∈ c.vars, σ.variableName? x = none) ∧
      ∀ c ∈ cs, ∀ l ∈ c.literals, l.Over τ := by
  let text := "include('b.p'). cnf(a, axiom, p(f(X)) | X = Y)."
  let files := (Directory.ofFiles
    [("b.p", utf8 "cnf(b, axiom, q(X, f(Y)) | q(X, f(Y)) | p(Y)).")]).toFileSystem
  let σ := (((Signature.initial.addVariable "X").2.addFunction ⟨"f", 1⟩).2.addFunction ⟨"f", 1⟩).2
  have hσ : σ.Built := ((Signature.Built.initial.addVariable "X").addFunction _).addFunction _
  let cs : List Clause := [⟨[.pos ⟨1, [.var 1, .app 0 [.var 2]]⟩, .pos ⟨2, [.var 2]⟩], .named "b"⟩,
    ⟨[.pos ⟨2, [.app 0 [.var 3]]⟩, .pos (.equation (.var 3) (.var 4))], .named "a"⟩]
  have hread : ((fromText files text).run σ).1 = .ok cs := by decide +kernel
  have hsize : ((fromText files text).run σ).2.variableNames.size = 5 := by decide +kernel
  have hrun : (fromText files text).run σ = (.ok cs, ((fromText files text).run σ).2) :=
    Prod.ext hread rfl
  exact ⟨σ, _, files, cs, hσ, rfl, hsize, hrun, by decide,
    (reads_variableBlocks hσ files (.inl ⟨text, rfl⟩) hrun).2⟩

end Clausal.Problem
