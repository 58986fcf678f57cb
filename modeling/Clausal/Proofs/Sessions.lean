/-
Sessions: a signature that grows as texts and files are read into it and clauses are
copied over it, and the clauses obtained on the way. The clauses are those that have been
read, copies of clauses of the session over new variables, and what the two inference
rules derive from clauses of the session. A reading that fails adds no clause, but what it
has added to the signature by then stays there.

The main fact is that a session never gets into a state from which a clause could not be
written down: `Session.sound_of_reachable`.
-/
import Clausal.Proofs.ReadingInvariant
import Mathlib.Logic.Relation

set_option autoImplicit false

namespace Clausal

open Problem

/-- A signature, and clauses obtained over it. -/
structure Session where
  signature : Signature
  clauses : List Clause

namespace Session

/-- A session begins with equality alone and no clause. -/
def new : Session := ⟨.initial, []⟩

/-- The session after a reading: the signature that it leaves, and the clauses that it
returns if it does not fail. -/
def read (s : Session) (reading : Reading (List Clause)) : Session :=
  let (result, signature) := reading.run s.signature
  ⟨signature, s.clauses ++ result.toOption.getD []⟩

/-- The session after a clause has been copied over new variables. -/
def copy (s : Session) (c : Clause) : Session :=
  let (d, signature) := s.signature.freshCopy c
  ⟨signature, s.clauses ++ [d]⟩

/-- What can be done in a session. -/
inductive Step : Session → Session → Prop where
  | readText (s : Session) (files : FileSystem) (text : String) :
    Step s (s.read (fromText files text))
  | readFile (s : Session) (files : FileSystem) (path : String) :
    Step s (s.read (fromFile files path))
  /-- A clause of the session is copied. -/
  | copy {s : Session} {c : Clause} (mem : c ∈ s.clauses) : Step s (s.copy c)
  /-- Any other clause is copied too, but the copy is none of the session's clauses, for
  its symbols may be unknown. -/
  | copyOther (s : Session) (c : Clause) : Step s ⟨(s.signature.freshCopy c).2, s.clauses⟩
  | factors {s : Session} {c : Clause} {fs : List Clause} (mem : c ∈ s.clauses)
    (eq_ok : c.factors = .ok fs) : Step s ⟨s.signature, s.clauses ++ fs⟩
  | paramodulants {s : Session} {processed : List Clause} {given : Clause} {rs : List Clause}
    (processed_mem : ∀ c ∈ processed, c ∈ s.clauses) (given_mem : given ∈ s.clauses)
    (eq_ok : paramodulants processed given = .ok rs) : Step s ⟨s.signature, s.clauses ++ rs⟩

/-- The session comes about from a new one. -/
def Reachable (s : Session) : Prop := Relation.ReflTransGen Step new s

/-- The signature is well formed, and every clause can be printed over it. -/
structure Sound (s : Session) : Prop where
  signature : s.signature.WellFormed
  clauses : AllPrintable s.signature s.clauses

variable {s : Session}

/-- A later signature and more clauses that can be printed over it. -/
theorem Sound.extend (h : s.Sound) {τ : Signature} (hτ : s.signature.Leads τ) {cs : List Clause}
    (hcs : AllPrintable τ cs) : Sound ⟨τ, s.clauses ++ cs⟩ := by
  refine ⟨hτ.wellFormed, fun c hc => ?_⟩
  rcases List.mem_append.1 hc with hc | hc
  · exact (h.clauses c hc).mono hτ.later
  · exact hcs c hc

theorem Sound.read (h : s.Sound) {reading : Reading (List Clause)}
    (hreading : ReadsPrintable reading) : (s.read reading).Sound := by
  obtain ⟨hleads, hreturns⟩ := hreading s.signature h.signature
  refine h.extend hleads ?_
  show AllPrintable _ ((reading.run s.signature).1.toOption.getD [])
  rcases hresult : (reading.run s.signature).1 with e | cs
  · exact fun c hc => nomatch hc
  · exact hreturns cs hresult

theorem leads_freshCopy {σ : Signature} (h : σ.WellFormed) (c : Clause) :
    σ.Leads (σ.freshCopy c).2 :=
  ⟨h.foldl_copyVariable _, σ.extends_foldl_copyVariable _⟩

theorem Sound.step (h : s.Sound) {s' : Session} (hstep : s.Step s') : s'.Sound := by
  -- one case for each step; the signature changes in the first four
  cases hstep with
  | readText files text => exact h.read (readsPrintable_fromText files text)
  | readFile files path => exact h.read (readsPrintable_fromFile files path)
  | copy mem =>
    exact h.extend (leads_freshCopy h.signature _)
      (List.forall_mem_singleton.2 (h.clauses _ mem).freshCopy)
  | copyOther c =>
    have hleads := leads_freshCopy h.signature c
    exact ⟨hleads.wellFormed, fun d hd => (h.clauses d hd).mono hleads.later⟩
  | factors mem eq_ok =>
    exact h.extend h.signature.leads fun f hf => (h.clauses _ mem).of_mem_factors eq_ok hf
  | paramodulants processed_mem given_mem eq_ok =>
    exact h.extend h.signature.leads fun r hr =>
      Clause.Printable.of_mem_paramodulants (fun c hc => h.clauses c (processed_mem c hc))
        (h.clauses _ given_mem) eq_ok hr

/-- **Every session is sound.** -/
theorem sound_of_reachable (h : s.Reachable) : s.Sound := by
  induction h with
  | refl => exact ⟨Signature.wellFormed_initial, fun c hc => absurd hc (by simp [new])⟩
  | tail _ hstep ih => exact ih.step hstep

end Session

end Clausal
