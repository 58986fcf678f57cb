/-
What the program prints is right. A run with options that ends well has read the clauses of a
problem, taken the given clause out of them, and drawn clauses from it. Each line printed is
one of these under a number, and it says where the clause comes from: from the given clause
alone, or from the given clause and another one of the problem. The clause follows from what
is cited (`CommandLine.followsFrom_of_derive`).

Names need not be unique in a problem, so clauses are told apart by their places. The given
clause is the first of its name, all others take part in inferences, also those of the same
name, and what is cited by name is the clause at some other place.

Without the tautologies the lines are fewer and are numbered on their own, but say the
same (`CommandLine.run_output_sound`).
-/
import Clausal.Proofs.CommandLineRuns
import Clausal.Proofs.InferenceSteps
import Clausal.Proofs.Tautologies

set_option autoImplicit false

universe u

namespace Clausal.CommandLine

open Problem

/-! ## The given clause -/

/-- The given clause and its place: the first place with the wanted name, or the last place
if no name is wanted. -/
structure IsGiven (name : Option String) (clauses : List Clause) (g : Nat) (given : Clause) :
    Prop where
  at_place : clauses[g]? = some given
  first : ∀ n, name = some n → given.label? = some n ∧
    ∀ k < g, ∀ c, clauses[k]? = some c → c.label? ≠ some n
  last : name = none → g + 1 = clauses.length

/-- The given clause is taken out at its place, and at no other. -/
theorem exists_isGiven_of_chooseGiven {name : Option String} {clauses processed : List Clause}
    {given : Clause} (h : chooseGiven name clauses = some (given, processed)) :
    ∃ g, IsGiven name clauses g given ∧ processed = clauses.eraseIdx g := by
  rcases name with _ | n
  · rw [chooseGiven, List.getLast?_eq_getElem?, length_selections, getElem?_selections,
      Option.map_eq_some_iff] at h
    obtain ⟨c, hc, hgiven⟩ := h
    obtain ⟨rfl, rfl⟩ := Prod.mk.inj hgiven
    obtain ⟨hlt, -⟩ := List.getElem?_eq_some_iff.1 hc
    exact ⟨_, ⟨hc, by simp, fun _ => by omega⟩, rfl⟩
  · rw [chooseGiven, List.find?_eq_some_iff_getElem] at h
    obtain ⟨hlabel, g, hg, hselection, hbefore⟩ := h
    have hplace : (selections clauses)[g]? = some (given, processed) :=
      List.getElem?_eq_some_iff.2 ⟨hg, hselection⟩
    rw [getElem?_selections, Option.map_eq_some_iff] at hplace
    obtain ⟨c, hc, hgiven⟩ := hplace
    obtain ⟨rfl, rfl⟩ := Prod.mk.inj hgiven
    refine ⟨g, ⟨hc, ?_, by simp⟩, rfl⟩
    rintro _ ⟨⟩
    refine ⟨beq_iff_eq.1 hlabel, fun k hk d hd hname => ?_⟩
    -- an earlier clause of the name would have been found
    have hearlier : (selections clauses)[k]? = some (d, clauses.eraseIdx k) := by
      rw [getElem?_selections, hd, Option.map_some]
    obtain ⟨hlt, hselection⟩ := List.getElem?_eq_some_iff.1 hearlier
    have hdiffers := hbefore k hk
    rw [hselection, hname] at hdiffers
    exact absurd hdiffers (by simp)

/-! ## What is drawn -/

/-- A clause that follows from the given clause, or from it and a clause at another place,
and cites by their names what it follows from. As a factor it follows whatever equality is
taken to mean. -/
inductive FollowsFrom (clauses : List Clause) (g : Nat) (given c : Clause) : Prop where
  | factor (cited : c.provenance = .derived .factoring [given.label?])
    (entails : Entails.{u} [given] c)
  | paramodulant {k : Nat} {other : Clause} (elsewhere : k ≠ g)
    (at_place : clauses[k]? = some other)
    (cited : c.provenance = .derived .paramodulation [other.label?, given.label?])
    (entails : EntailsEq.{u} [other, given] c)

/-- A derived clause has no name of its own, so it is written under its number. -/
theorem FollowsFrom.writtenName_eq {clauses : List Clause} {g : Nat} {given c : Clause}
    (h : FollowsFrom.{u} clauses g given c) (i : Nat) :
    c.writtenName i = "derived_" ++ toString i := by
  have hlabel : c.label? = none := by
    rw [Clause.label?]
    rcases h with ⟨hcited, -⟩ | ⟨-, -, hcited, -⟩ <;> rw [hcited]
  rw [Clause.writtenName, hlabel, Option.getD_none]

/-- **Every clause drawn follows** from what it cites. -/
theorem followsFrom_of_derive {clauses : List Clause} {g : Nat} {given : Clause}
    {derived : List Clause} (h : derive given (clauses.eraseIdx g) = .ok derived) {c : Clause}
    (hc : c ∈ derived) : FollowsFrom.{u} clauses g given c := by
  obtain ⟨factors, hfactors, h⟩ := bind_eq_ok_iff.1 h
  obtain ⟨others, hothers, h⟩ := bind_eq_ok_iff.1 h
  rw [← Except.ok.inj h, List.mem_append] at hc
  rcases hc with hc | hc
  · obtain ⟨w, hstep⟩ := Clause.exists_factorStep hfactors hc
    exact .factor hstep.provenance_eq hstep.entails
  · obtain ⟨other, hother, part, hpart, hc⟩ := (mem_iff_of_collect_eq_ok hothers).1 hc
    -- taking the given clause out leaves the clauses at all other places
    obtain ⟨k, hk, hplace⟩ := List.mem_eraseIdx_iff_getElem?.1 hother
    obtain ⟨_, -, _, -, _, -, d, -, rfl⟩ := Clause.exists_of_mem_paramodulants hpart hc
    exact .paramodulant hk hplace rfl (Clause.entailsEq_of_mem_paramodulants hpart hc)

/-! ## What is printed -/

/-- The clauses drawn that are printed. -/
def shown (keepTrivial : Bool) (derived : List Clause) : List Clause :=
  derived.filter fun c => keepTrivial || !c.isTrivial

/-- With trivial clauses kept, all clauses are shown. -/
theorem shown_true (derived : List Clause) : shown true derived = derived :=
  List.filter_eq_self.2 fun _ _ => rfl

/-- The lines are the clauses that are shown, with their numbers in the output. -/
theorem getElem?_printed (σ : Signature) (keepTrivial : Bool) (derived : List Clause) (i : Nat) :
    (printed σ keepTrivial derived)[i]? =
      (shown keepTrivial derived)[i]?.map fun c => c.annotated σ i := by
  rw [printed, List.getElem?_map, List.getElem?_zipIdx, Option.map_map, Nat.zero_add]
  rfl

/-! ## Asking for tautologies -/

/-- Naming the given clause neither asks for tautologies nor depends on whether they were
asked for. -/
theorem Seen.name?_keep {s s' : Seen} {value : String} (h : s.name? value = some s') :
    s'.keepTrivial = s.keepTrivial ∧
      name? { s with keepTrivial := true } value = some { s' with keepTrivial := true } := by
  unfold name? at h ⊢
  split at h
  · cases h
  · next hnone =>
    cases h
    exact ⟨rfl, if_neg hnone⟩

/-- Nor does naming the file. -/
theorem Seen.file?_keep {s s' : Seen} {name : String} (h : s.file? name = some s') :
    s'.keepTrivial = s.keepTrivial ∧
      file? { s with keepTrivial := true } name = some { s' with keepTrivial := true } := by
  unfold file? at h ⊢
  split at h
  · cases h
  · next hnone =>
    cases h
    exact ⟨rfl, if_neg hnone⟩

theorem Seen.foldlM_file?_keep {s s' : Seen} {names : List String}
    (h : names.foldlM file? s = some s') : s'.keepTrivial = s.keepTrivial ∧
      names.foldlM file? { s with keepTrivial := true } =
        some { s' with keepTrivial := true } := by
  induction names generalizing s with
  | nil =>
    cases h
    exact ⟨rfl, rfl⟩
  | cons name names ih =>
    rw [List.foldlM_cons] at h ⊢
    obtain ⟨t, ht, h⟩ := Option.bind_eq_some_iff.1 h
    obtain ⟨hsame, hname⟩ := file?_keep ht
    obtain ⟨hsame', hnames⟩ := ih h
    exact ⟨hsame'.trans hsame, Option.bind_eq_some_iff.2 ⟨_, hname, hnames⟩⟩

/-- Only the wish for tautologies itself depends on whether they are wanted already. -/
theorem Seen.request?_keep {s : Seen} {options : Options}
    (h : s.request? = some (.inferences options)) : s.keepTrivial = options.keepTrivial ∧
      request? { s with keepTrivial := true } =
        some (.inferences { options with keepTrivial := true }) := by
  obtain ⟨file, hfile, hoptions⟩ := Option.map_eq_some_iff.1 h
  cases hoptions
  exact ⟨rfl, Option.map_eq_some_iff.2 ⟨file, hfile, rfl⟩⟩

/-- Arguments that do not ask for tautologies come to the same request after one that
does. -/
theorem request?_keep {s : Seen} {arguments : List String} {options : Options}
    (h : request? s arguments = some (.inferences options))
    (hoptions : options.keepTrivial = false) : s.keepTrivial = false ∧
      request? { s with keepTrivial := true } arguments =
        some (.inferences { options with keepTrivial := true }) := by
  fun_induction request? s arguments with
  | case1 s =>
    obtain ⟨hsame, hrequest⟩ := s.request?_keep h
    exact ⟨hsame.trans hoptions, hrequest⟩
  | case2 s names =>
    obtain ⟨s', hs', h⟩ := Option.bind_eq_some_iff.1 h
    obtain ⟨hsame, hnames⟩ := Seen.foldlM_file?_keep hs'
    obtain ⟨hkept, hrequest⟩ := s'.request?_keep h
    refine ⟨hsame ▸ hkept.trans hoptions, ?_⟩
    rw [request?]
    exact Option.bind_eq_some_iff.2 ⟨_, hnames, hrequest⟩
  | case3 s rest ih =>
    -- the wish is never taken back
    obtain ⟨s', hs', h⟩ := Option.bind_eq_some_iff.1 h
    have hkept := (ih s' h).1
    unfold Seen.keep? at hs'
    split at hs'
    · cases hs'
    · cases hs'
      cases hkept
  | case4 s value rest hlooks => cases h
  | case5 s value rest hlooks ih =>
    obtain ⟨s', hs', h⟩ := Option.bind_eq_some_iff.1 h
    obtain ⟨hkept, hrest⟩ := ih s' h
    obtain ⟨hsame, hname⟩ := Seen.name?_keep hs'
    refine ⟨hsame ▸ hkept, ?_⟩
    rw [request?, if_neg hlooks]
    exact Option.bind_eq_some_iff.2 ⟨_, hname, hrest⟩
  | case6 s argument rest h₁ h₂ h₃ value hvalue ih =>
    obtain ⟨s', hs', h⟩ := Option.bind_eq_some_iff.1 h
    obtain ⟨hkept, hrest⟩ := ih s' h
    obtain ⟨hsame, hname⟩ := Seen.name?_keep hs'
    refine ⟨hsame ▸ hkept, ?_⟩
    rw [request?, hvalue]
    · exact Option.bind_eq_some_iff.2 ⟨_, hname, hrest⟩
    all_goals assumption
  | case7 s argument rest h₁ h₂ h₃ hvalue hhelp => cases h
  | case8 s argument rest h₁ h₂ h₃ hvalue hhelp hlooks => cases h
  | case9 s argument rest h₁ h₂ h₃ hvalue hhelp hlooks ih =>
    obtain ⟨s', hs', h⟩ := Option.bind_eq_some_iff.1 h
    obtain ⟨hkept, hrest⟩ := ih s' h
    obtain ⟨hsame, hname⟩ := Seen.file?_keep hs'
    refine ⟨hsame ▸ hkept, ?_⟩
    rw [request?, hvalue]
    · simp only [if_neg hhelp, if_neg hlooks]
      exact Option.bind_eq_some_iff.2 ⟨_, hname, hrest⟩
    all_goals assumption

/-- The flag for trivial clauses may be put in front of all arguments. -/
theorem Options.parse?_keep {arguments : List String} {options : Options}
    (h : parse? arguments = some options) (hkeep : options.keepTrivial = false) :
    parse? ("--keep-trivial" :: arguments) = some { options with keepTrivial := true } := by
  rw [parse?_eq_some_iff] at h ⊢
  exact (request?_keep h hkeep).2

/-! ## Runs -/

/-- A run that ends well has read its clauses and found the given one. -/
theorem exists_of_runWith_status_eq_zero {files : FileSystem} {options : Options}
    (h : (runWith files options).status = 0) :
    ∃ clauses σ given processed, (fromFile files options.file).run .initial = (.ok clauses, σ) ∧
      chooseGiven options.given clauses = some (given, processed) := by
  rcases hread : (fromFile files options.file).run .initial with ⟨e | clauses, σ⟩
  · rw [runWith_of_error hread] at h
    exact absurd h (by decide)
  · rcases hgiven : chooseGiven options.given clauses with _ | ⟨given, processed⟩
    · rw [runWith_of_none hread hgiven] at h
      exact absurd h (by decide)
    · exact ⟨clauses, σ, given, processed, rfl, hgiven⟩

/-- **The output is sound.** A run with options that ends well has read the clauses of the
problem, each with a name, has taken the given clause out of them at one place, and has drawn
clauses from it. Line `i` is one of these, under the number `i`, and it follows from what it
cites.

For arguments that differ in asking for tautologies or not, and there are some that do ask,
what is printed is all that has been drawn, or a part of it in the same order, numbered
from 0 in either case. What is left out is true in every normal interpretation, so all that
is printed has the same models. -/
theorem run_output_sound {files : FileSystem} {arguments : List String} {options : Options}
    (hparse : Options.parse? arguments = some options)
    (h : (run files arguments).status = 0) :
    ∃ (clauses : List Clause) (σ : Signature) (g : Nat) (given : Clause)
      (derived : List Clause),
      (fromFile files options.file).run .initial = (.ok clauses, σ) ∧
      (∀ c ∈ clauses, ∃ name, c.label? = some name) ∧
      IsGiven options.given clauses g given ∧
      derive given (clauses.eraseIdx g) = .ok derived ∧
      (∀ i line, (run files arguments).output[i]? = some line →
        ∃ c ∈ derived, line = c.annotated σ i ∧ c.writtenName i = "derived_" ++ toString i ∧
          FollowsFrom.{u} clauses g given c) ∧
      (∀ keep arguments', Options.parse? arguments' = some { options with keepTrivial := keep } →
        (run files arguments').status = 0 ∧ ∀ i, (run files arguments').output[i]? =
          (shown keep derived)[i]?.map fun c : Clause => c.annotated σ i) ∧
      (options.keepTrivial = false → Options.parse? ("--keep-trivial" :: arguments) =
        some { options with keepTrivial := true }) ∧
      shown true derived = derived ∧ (shown false derived).Sublist derived ∧
      ∀ (D : Type u) (M : Interpretation D), M.IsNormal →
        (∀ c ∈ shown true derived, c ∉ shown false derived → M.Valid c) ∧
        ((∀ c ∈ shown false derived, M.Valid c) ↔ ∀ c ∈ shown true derived, M.Valid c) := by
  rw [run_of_options hparse] at h
  obtain ⟨clauses, σ, given, processed, hread, hgiven⟩ := exists_of_runWith_status_eq_zero h
  obtain ⟨derived, hderive⟩ := exists_derive_of_fromFile hread hgiven
  obtain ⟨g, hplace, rfl⟩ := exists_isGiven_of_chooseGiven hgiven
  have hfollows {c : Clause} (hc : c ∈ derived) : FollowsFrom.{u} clauses g given c :=
    followsFrom_of_derive hderive hc
  refine ⟨clauses, σ, g, given, derived, hread, fun c hc => ?_, hplace, hderive,
    fun i line hline => ?_, fun keep arguments' hparse' => ?_, Options.parse?_keep hparse,
    shown_true derived, List.filter_sublist, fun D M hM => ⟨fun c hc hdropped => ?_, ?_⟩⟩
  · obtain ⟨⟨-, name, -, -, -, hlabel, -⟩, -⟩ := equality_of_fromFile hread hc
    exact ⟨name, hlabel⟩
  · rw [run_of_options hparse, runWith_of_derive hread hgiven hderive, Report.success,
      getElem?_printed, Option.map_eq_some_iff] at hline
    obtain ⟨c, hc, rfl⟩ := hline
    have hc : c ∈ derived := (List.mem_filter.1 (List.mem_of_getElem? hc)).1
    exact ⟨c, hc, rfl, (hfollows hc).writtenName_eq i, hfollows hc⟩
  · -- the problem and the given clause are the same
    have hsuccess := @runWith_of_derive files { options with keepTrivial := keep } _ _ hread _ _ _
      hgiven hderive
    rw [run_of_options hparse', hsuccess]
    exact ⟨rfl, getElem?_printed σ keep derived⟩
  · rw [shown_true] at hc
    have htrivial : c.isTrivial = true := by
      by_contra hnot
      exact hdropped (List.mem_filter.2 ⟨hc, by simpa using hnot⟩)
    exact Clause.valid_of_isTrivial hM htrivial
  · rw [shown_true]
    exact forall_valid_filter_iff hM

/-- Two clauses of one name. The first of them is the given one, and line 1 cites both; with
the tautologies there are three lines more. -/
theorem run_output_sound_alike :
    ∃ (files : FileSystem) (clauses : List Clause) (σ : Signature) (given c : Clause) (g : Nat),
      Options.parse? ["--given", "g", "a.p"] = some ⟨"a.p", some "g", false⟩ ∧
      (run files ["--given", "g", "a.p"]).status = 0 ∧
      IsGiven (some "g") clauses g given ∧ FollowsFrom.{0} clauses g given c ∧
      c.annotated σ 1 =
        "cnf(derived_1, lemma, q(c) | ~q(d), inference(paramodulation, [], [g, g]))." ∧
      (run files ["--given", "g", "a.p"]).output =
        ["cnf(derived_0, lemma, ~q(d) | q(c), inference(factoring, [], [g])).",
          "cnf(derived_1, lemma, q(c) | ~q(d), inference(paramodulation, [], [g, g]))."] ∧
      (run files ["--keep-trivial", "--given", "g", "a.p"]).status = 0 ∧
      (run files ["--keep-trivial", "--given", "g", "a.p"]).output =
        ["cnf(derived_0, lemma, ~q(d) | q(c), inference(factoring, [], [g])).",
          "cnf(derived_1, lemma, q(c) | ~q(d), inference(paramodulation, [], [g, g])).",
          "cnf(derived_2, lemma, q(d) | q(c) | ~q(d), inference(paramodulation, [], [g, g])).",
          "cnf(derived_3, lemma, q(d) | q(X_0) | ~q(d), inference(paramodulation, [], [g, g])).",
          "cnf(derived_4, lemma, ~q(c) | q(X_0) | q(c), inference(paramodulation, [], [g, g]))."] := by
  let files := (Directory.ofFiles
    [("a.p", utf8 "cnf(g, axiom, q(X) | q(c) | ~q(d)). cnf(g, axiom, d = c).")]).toFileSystem
  have hstatus : (run files ["--given", "g", "a.p"]).status = 0 := by decide +kernel
  have houtput : (run files ["--given", "g", "a.p"]).output =
      ["cnf(derived_0, lemma, ~q(d) | q(c), inference(factoring, [], [g])).",
        "cnf(derived_1, lemma, q(c) | ~q(d), inference(paramodulation, [], [g, g]))."] := by
    decide +kernel
  have hparse : Options.parse? ["--given", "g", "a.p"] = some ⟨"a.p", some "g", false⟩ := by
    decide +kernel
  obtain ⟨clauses, σ, g, given, derived, -, -, hgiven, -, hlines, hmodes, hkeep, -⟩ :=
    run_output_sound hparse hstatus
  -- the second line, which comes of the given clause and another one of the same name
  obtain ⟨c, -, hline, -, hfollows⟩ := hlines 1 _ (by rw [houtput]; rfl)
  exact ⟨files, clauses, σ, given, c, g, hparse, hstatus, hgiven, hfollows, hline.symm, houtput,
    (hmodes true _ (hkeep rfl)).1, by decide +kernel⟩

end Clausal.CommandLine
