/-
What reading does to a signature. Reading a text or a file only ever extends the
signature, also where it fails half-way, and keeps it well formed; and the clauses that it
returns can be printed over the signature that it leaves (`readsPrintable_fromText`,
`readsPrintable_fromFile`). Nothing is assumed of the text: that its names are words is settled
where it is parsed.

Inside a clause this is an invariant of scopes (`Scope.invariant_wellFormed`), and from one
clause to the next it is compositional (`compositional_readsAll`).
-/
import Clausal.Proofs.Inclusions
import Clausal.Proofs.ScopeInvariants

set_option autoImplicit false

namespace Clausal.Problem

/-! ## Inside a clause -/

namespace Scope

/-- The signature is well formed, and the variables of the clause are variables of it. -/
structure WellFormed (s : Scope) : Prop where
  signature : s.signature.WellFormed
  bound : ∀ b ∈ s.bound, b.2 < s.signature.variableNames.size

/-- The second scope is well formed and over a later signature. -/
structure Leads (s s' : Scope) : Prop where
  wellFormed : s'.WellFormed
  later : s.signature.Extends s'.signature

instance : LeadsOn Leads where
  trans h h' := ⟨h'.wellFormed, h.later.trans h'.later⟩
  stay h := ⟨h.wellFormed, .refl _⟩

variable {s : Scope}

theorem WellFormed.leads (h : s.WellFormed) : s.Leads s := ⟨h, .refl _⟩

/-- A later signature does not unbind anything. -/
theorem WellFormed.withSignature (h : s.WellFormed) {τ : Signature} (hτ : τ.WellFormed)
    (hlater : s.signature.Extends τ) : WellFormed { s with signature := τ } :=
  ⟨hτ, fun b hb => Nat.lt_of_lt_of_le (h.bound b hb) hlater.variables_le⟩

/-- A variable may be resolved under any name of a variable. -/
theorem WellFormed.resolve (h : s.WellFormed) {name : String} (hname : IsVariableName name) :
    (s.resolve name).2.WellFormed := by
  rcases hlookup : s.bound.lookup name with _ | x
  · have hlater := s.signature.extends_addVariable name
    rw [resolve_of_eq_none hlookup]
    refine ⟨h.signature.addVariable hname, fun b hb => ?_⟩
    rcases List.mem_append.1 hb with hb | hb
    · exact Nat.lt_of_lt_of_le (h.bound b hb) hlater.variables_le
    · rw [List.mem_singleton.1 hb]
      simp [Signature.addVariable]
  · rw [resolve_of_eq_some hlookup]
    exact h

theorem WellFormed.atom (h : s.WellFormed) {name : String} (args : List Term)
    (hname : Symbol.IsPredicate ⟨name, args.length⟩) : (s.atom name args).2.WellFormed :=
  h.withSignature (h.signature.internPredicate hname) (s.signature.extends_internPredicate _)

/-- Well-formed names keep a scope well formed, whatever has occurred before. -/
theorem invariant_wellFormed : Invariant Leads fun _ s => s.WellFormed where
  leads h hlater := ⟨h, hlater⟩
  later h := h.later
  indexed h := h.signature.indexed
  bound h := h.bound
  resolve h _ hname := h.resolve hname
  apply {_ s} h _ _ hname :=
    h.withSignature (h.signature.internFunction hname) (s.signature.extends_internFunction _)
  atom h _ args hname := h.atom args hname

end Scope

/-- Reading literals keeps the scope well formed, and they are over its signature. -/
theorem ensures_readLiterals {ls : List LiteralExpr} (h : ∀ l ∈ ls, l.WellSpelled) {s : Scope}
    (hs : s.WellFormed) :
    Ensures Scope.Leads s (readLiterals ls) fun s' ms =>
      ms.length = ls.length ∧ ∀ m ∈ ms, m.Over s'.signature := by
  have hreads : ReadsOn Scope.Leads (fun _ s => s.WellFormed) (readLiterals ls) _ _ :=
    readsOn_readLiterals Scope.invariant_wellFormed h
  obtain ⟨hrelated, hreturns⟩ := @hreads [] s hs
  exact ⟨hrelated, fun ms hms => (hreturns ms hms).2⟩

/-! ## Whole texts -/

instance : LeadsOn Signature.Leads where
  trans h h' := ⟨h'.wellFormed, h.later.trans h'.later⟩
  stay h := h.wellFormed.leads

/-- All the clauses can be printed over the signature. -/
def AllPrintable (σ : Signature) (cs : List Clause) : Prop := ∀ c ∈ cs, c.Printable σ

/-- A clause that is read can be printed. -/
theorem ensures_readClause {name : String} (hname : Spells Token.isLabel name)
    {ls : List LiteralExpr} (hne : ls ≠ []) (h : ∀ l ∈ ls, l.WellSpelled) {σ : Signature}
    (hσ : σ.WellFormed) :
    Ensures Signature.Leads σ (readClause name ls) fun τ c => c.Printable τ := by
  have hscope : Scope.WellFormed ⟨σ, []⟩ := ⟨hσ, by simp⟩
  refine (ensures_readLiterals h hscope).readClause
    (fun s hs => ⟨hs.wellFormed.signature, hs.later⟩) fun s ms hms => ?_
  obtain ⟨hlength, hover⟩ := hms
  refine ⟨?_, Clause.nodup_make _ _, fun m hm => hover m (Clause.mem_make.1 hm), ?_⟩
  · have hms : ms ≠ [] := by
      rw [← List.length_pos_iff, hlength, List.length_pos_iff]
      exact hne
    exact Clause.literals_make_ne_nil hms _
  · exact List.forall_mem_singleton.2 hname

/-- From any well-formed signature the computation leads to a later one, and the clauses
that it returns can be printed there. -/
def ReadsPrintable (m : Reading (List Clause)) : Prop :=
  ∀ σ : Signature, σ.WellFormed → Ensures Signature.Leads σ m AllPrintable

/-- From any well-formed signature the computation leads to a later one, and what it
returns are clauses that pass the condition there. -/
def ReadsAll (Q : Signature → Clause → Prop) (m : Reading (List Clause)) : Prop :=
  ∀ σ : Signature, σ.WellFormed → Ensures Signature.Leads σ m fun τ cs => ∀ c ∈ cs, Q τ c

/-- A condition that is kept when the signature is extended may be checked clause by
clause. -/
theorem compositional_readsAll {Q : Signature → Clause → Prop}
    (hmono : ∀ {σ τ : Signature} {c : Clause}, σ.Extends τ → Q σ c → Q τ c) :
    Compositional (ReadsAll Q) where
  nil σ hσ := ensures_pure hσ.leads fun c hc => absurd hc List.not_mem_nil
  throw _ σ hσ := ensures_throw hσ.leads
  append {m k} hm hk σ hσ := by
    refine (hm σ hσ).bind fun here τ hτ hhere => ?_
    refine (hk τ hτ.wellFormed).bind fun later υ hυ hlater => ?_
    refine ensures_pure hυ.wellFormed.leads fun c hc => ?_
    rcases List.mem_append.1 hc with hc | hc
    · exact hmono hυ.later (hhere c hc)
    · exact hlater c hc
  refuse e hm σ hσ := (hm σ hσ).bind fun _ τ hτ _ => ensures_throw hτ.wellFormed.leads

/-- Reading clauses that can be printed goes through all ways in which reading is put
together. -/
theorem compositional_readsPrintable : Compositional ReadsPrintable :=
  compositional_readsAll fun h hc => hc.mono h

theorem readsPrintable_clause {name : String} {ls : List LiteralExpr}
    (h : (Item.clause name ls).WellSpelled) :
    ReadsPrintable (do let c ← readClause name ls; pure [c]) := by
  intro σ hσ
  obtain ⟨hname, hne, hls⟩ := h
  refine (ensures_readClause hname hne hls hσ).bind fun c τ hτ hc => ?_
  exact ensures_pure hτ.wellFormed.leads (List.forall_mem_singleton.2 hc)

/-- **Reading a file** keeps the signature well formed, and its clauses can be printed. -/
theorem readsPrintable_fromFile (files : FileSystem) (path : String) :
    ReadsPrintable (fromFile files path) :=
  compositional_readsPrintable.fromFile files path fun _ _ _ _ h _ => readsPrintable_clause h

/-- **Reading a text** keeps the signature well formed, and its clauses can be printed. -/
theorem readsPrintable_fromText (files : FileSystem) (text : String) :
    ReadsPrintable (fromText files text) :=
  compositional_readsPrintable.fromText files text fun _ _ h _ => readsPrintable_clause h

end Clausal.Problem
