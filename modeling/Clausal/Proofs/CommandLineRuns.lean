/-
When a run of the program ends well. If its arguments ask for inferences, it does so if and
only if the problem can be read and the given clause is among the clauses read; and once
there is a given clause, nothing can go wrong any more
(`CommandLine.run_status_eq_zero_iff`). A request for help is always answered.

That no inference fails rests on what has been read. An inference could fail on a literal
that asserts equality of other than two terms, but the literals of equality in a problem
are all written with a sign of equality or inequality between two terms.
-/
import Clausal.CommandLine
import Clausal.Files.Directory
import Clausal.Proofs.EqualityAtoms
import Clausal.Proofs.InferenceFailures

set_option autoImplicit false

namespace Clausal.CommandLine

open Problem

/-! ## The given clause -/

/-- The given clause exists: there is a clause of the wanted name, or any clause at all if
no name is wanted. -/
def GivenExists (name : Option String) (clauses : List Clause) : Prop :=
  match name with
  | some n => ∃ c ∈ clauses, c.label? = some n
  | none => clauses ≠ []

/-- A given clause is chosen if there is one to choose. -/
theorem isSome_chooseGiven_iff (name : Option String) (clauses : List Clause) :
    (chooseGiven name clauses).isSome = true ↔ GivenExists name clauses := by
  rcases name with _ | n
  · have hlength := length_selections clauses
    rw [chooseGiven, GivenExists, List.getLast?_isSome, ne_eq, ne_eq, ← List.length_eq_zero_iff,
      hlength, List.length_eq_zero_iff]
  · rw [chooseGiven, GivenExists, List.find?_isSome]
    constructor
    · rintro ⟨s, hs, hlabel⟩
      exact ⟨s.1, exists_mem_selections_iff.2 ⟨s, hs, rfl⟩, beq_iff_eq.1 hlabel⟩
    · rintro ⟨c, hc, hlabel⟩
      obtain ⟨s, hs, rfl⟩ := exists_mem_selections_iff.1 hc
      exact ⟨s, hs, beq_iff_eq.2 hlabel⟩

/-- What is chosen is one of the selections. -/
theorem mem_selections_of_chooseGiven {name : Option String} {clauses : List Clause}
    {s : Clause × List Clause} (h : chooseGiven name clauses = some s) : s ∈ selections clauses := by
  rcases name with _ | n
  · exact List.mem_of_getLast? h
  · exact List.mem_of_find?_eq_some h

/-! ## Inferences -/

/-- Factors can always be listed, so it is all a matter of paramodulants. -/
theorem exists_derive {given : Clause} {processed : List Clause}
    (h : ∀ c ∈ given :: processed, ∀ l ∈ c.literals, l.EquatesTwo) :
    ∃ derived, derive given processed = .ok derived := by
  rw [List.forall_mem_cons] at h
  obtain ⟨rs, hrs⟩ := exists_paramodulants_iff.2 fun c hc l hl m hm => ⟨h.2 c hc l hl, h.1 m hm⟩
  exact ⟨_, bind_eq_ok_iff.2 ⟨_, given.factors_eq, bind_eq_ok_iff.2 ⟨rs, hrs, rfl⟩⟩⟩

/-- Every literal of equality in a problem that has been read has two sides, and comes
from a literal that is written as such. -/
theorem equality_of_fromFile {files : FileSystem} {path : String} {clauses : List Clause}
    {σ : Signature} (h : (fromFile files path).run .initial = (.ok clauses, σ)) {c : Clause}
    (hc : c ∈ clauses) :
    ComesFrom files path c ∧
      ∀ l ∈ c.literals, l.atom.isEquality = true → l.atom.args.length = 2 := by
  have hprintable := readsPrintable_fromFile files path _ Signature.wellFormed_initial
  have horigin := readsAll_fromFile files path _ Signature.wellFormed_initial
  obtain ⟨hleads, hreturns⟩ := hprintable
  obtain ⟨-, hcomes⟩ := horigin
  rw [h] at hleads hreturns hcomes
  refine ⟨hcomes clauses rfl c hc, fun l hl hequality => ?_⟩
  exact (hreturns clauses rfl c hc).length_args hleads.wellFormed hl hequality

/-- **No inference fails** between clauses that have been read. -/
theorem exists_derive_of_fromFile {files : FileSystem} {path : String} {clauses : List Clause}
    {σ : Signature} (h : (fromFile files path).run .initial = (.ok clauses, σ))
    {name : Option String} {given : Clause} {processed : List Clause}
    (hgiven : chooseGiven name clauses = some (given, processed)) :
    ∃ derived, derive given processed = .ok derived := by
  have hselection := mem_selections_of_chooseGiven hgiven
  refine exists_derive fun c hc l hl => ?_
  have hc : c ∈ clauses := (mem_iff_of_mem_selections hselection).2 hc
  exact Literal.equatesTwo_of_length ((equality_of_fromFile h hc).2 l hl)

/-! ## Requests -/

/-- Arguments stand for options if and only if they ask for inferences. -/
theorem Options.parse?_eq_some_iff {arguments : List String} {options : Options} :
    Options.parse? arguments = some options ↔
      Request.parse? arguments = some (.inferences options) := by
  rw [Options.parse?, Option.bind_eq_bind, Option.bind_eq_some_iff]
  constructor
  · rintro ⟨request, hrequest, hoptions⟩
    cases request with
    | inferences _ => rwa [← Option.some.inj hoptions]
    | help => cases hoptions
  · exact fun h => ⟨_, h, rfl⟩

/-- If the arguments stand for options, the run is the one with these options. -/
theorem run_of_options {arguments : List String} {options : Options}
    (h : Options.parse? arguments = some options) (files : FileSystem) :
    run files arguments = runWith files options := by
  rw [run, Options.parse?_eq_some_iff.1 h]

/-- **Two kinds of runs end well**: those that give the help asked for, whatever the files
are, and some of those with options. -/
theorem help_or_options_of_status_eq_zero {files : FileSystem} {arguments : List String}
    (h : (run files arguments).status = 0) :
    Request.parse? arguments = some .help ∧ run files arguments = .success helpText ∨
      ∃ options, Options.parse? arguments = some options := by
  rcases hparse : Request.parse? arguments with _ | options | _
  · rw [run, hparse] at h
    have husage : Report.usage.status ≠ 0 := by decide
    exact absurd h husage
  · exact .inr ⟨options, Options.parse?_eq_some_iff.2 hparse⟩
  · exact .inl ⟨rfl, by rw [run, hparse]⟩

/-- Noting things down never comes to a request for help. -/
theorem Seen.request?_ne_help (s : Seen) : s.request? ≠ some .help := by
  intro h
  obtain ⟨file, -, hrequest⟩ := Option.map_eq_some_iff.1 h
  cases hrequest

/-- What stands behind a request for help is not looked at. -/
theorem request?_append_of_help {s : Seen} {arguments : List String}
    (h : request? s arguments = some .help) (more : List String) :
    request? s (arguments ++ more) = some .help := by
  -- along the arguments up to the one that asks for help
  fun_induction request? s arguments with
  | case1 s => exact absurd h s.request?_ne_help
  | case2 s names =>
    obtain ⟨s', -, h⟩ := Option.bind_eq_some_iff.1 h
    exact absurd h s'.request?_ne_help
  | case3 s rest ih =>
    obtain ⟨s', hs', h⟩ := Option.bind_eq_some_iff.1 h
    rw [List.cons_append, request?]
    exact Option.bind_eq_some_iff.2 ⟨s', hs', ih s' h⟩
  | case4 s value rest hlooks => cases h
  | case5 s value rest hlooks ih =>
    obtain ⟨s', hs', h⟩ := Option.bind_eq_some_iff.1 h
    rw [List.cons_append, List.cons_append, request?, if_neg hlooks]
    exact Option.bind_eq_some_iff.2 ⟨s', hs', ih s' h⟩
  | case6 s argument rest h₁ h₂ h₃ value hvalue ih =>
    obtain ⟨s', hs', h⟩ := Option.bind_eq_some_iff.1 h
    rw [List.cons_append, request?, hvalue]
    · exact Option.bind_eq_some_iff.2 ⟨s', hs', ih s' h⟩
    · exact h₁
    · exact h₂
    · rintro _ _ rfl
      cases hvalue
  | case7 s argument rest h₁ h₂ h₃ hvalue hhelp =>
    rw [List.cons_append, request?, hvalue]
    · exact if_pos hhelp
    · exact h₁
    · exact h₂
    · -- with nothing behind it `--given` asks for nothing, with something it takes a value
      rintro _ _ rfl
      exact absurd hhelp (by decide)
  | case8 s argument rest h₁ h₂ h₃ hvalue hhelp hlooks => cases h
  | case9 s argument rest h₁ h₂ h₃ hvalue hhelp hlooks ih =>
    obtain ⟨s', hs', h⟩ := Option.bind_eq_some_iff.1 h
    rw [List.cons_append, request?, hvalue]
    · simp only [if_neg hhelp, if_neg hlooks]
      exact Option.bind_eq_some_iff.2 ⟨s', hs', ih s' h⟩
    · exact h₁
    · exact h₂
    · rintro _ _ rfl
      exact absurd (by decide) hlooks

/-- **A request for help settles the matter**, whatever comes after it. -/
theorem Request.parse?_append_of_help {arguments : List String}
    (h : Request.parse? arguments = some .help) (more : List String) :
    Request.parse? (arguments ++ more) = some .help :=
  request?_append_of_help h more

/-- What comes before it does matter: a second file is a fault, and so is an option without
its value. -/
example : Request.parse? ["a.p", "-h", "--wrong"] = some .help ∧
    Request.parse? ["a.p", "b.p", "--help"] = none ∧
    Request.parse? ["--given", "--help"] = none ∧
    Request.parse? ["--", "--help"] = some (.inferences ⟨"--help", none, false⟩) := by
  decide +kernel

/-! ## Runs -/

theorem runWith_of_error {files : FileSystem} {options : Options} {e : ReadError} {σ : Signature}
    (h : (fromFile files options.file).run .initial = (.error e, σ)) :
    (runWith files options).status = 1 := by
  rw [runWith, h]
  rfl

theorem runWith_of_none {files : FileSystem} {options : Options} {clauses : List Clause}
    {σ : Signature} (h : (fromFile files options.file).run .initial = (.ok clauses, σ))
    (hgiven : chooseGiven options.given clauses = none) : (runWith files options).status = 1 := by
  rw [runWith, h]
  simp only [hgiven]
  rfl

/-- Where the problem is read and a given clause chosen, the derived clauses are printed. -/
theorem runWith_of_derive {files : FileSystem} {options : Options} {clauses : List Clause}
    {σ : Signature} (h : (fromFile files options.file).run .initial = (.ok clauses, σ))
    {given : Clause} {processed derived : List Clause}
    (hgiven : chooseGiven options.given clauses = some (given, processed))
    (hderive : derive given processed = .ok derived) :
    runWith files options = .success (printed σ options.keepTrivial derived) := by
  rw [runWith, h]
  simp only [hgiven, hderive]

/-- **The program ends well exactly if there is a given clause to work with.** For
arguments that stand for options, the status is 0 if and only if the file can be read and
the given clause exists. Then all inferences can be drawn, and what they yield is printed:
every literal of equality in the clauses read has two arguments, because it comes from an
infix literal of an item of the file or of one that it includes. -/
theorem run_status_eq_zero_iff {arguments : List String} {options : Options}
    (h : Options.parse? arguments = some options) (files : FileSystem) :
    ((run files arguments).status = 0 ↔
      ∃ clauses σ, (fromFile files options.file).run .initial = (.ok clauses, σ) ∧
        GivenExists options.given clauses) ∧
    ∀ clauses σ, (fromFile files options.file).run .initial = (.ok clauses, σ) →
      (∀ given processed, chooseGiven options.given clauses = some (given, processed) →
        ∃ derived, derive given processed = .ok derived ∧
          run files arguments = .success (printed σ options.keepTrivial derived)) ∧
      ∀ c ∈ clauses, ∃ bytes name ls, files.read options.file = .ok bytes ∧
        ItemIn files (.clause name ls) (directoryOf options.file) (.ofBytes bytes) ∧
        c.label? = some name ∧
        ∀ l ∈ c.literals, l.atom.isEquality = true → l.atom.args.length = 2 ∧
          ∃ e ∈ ls, e.isInfix = true ∧ ∃ s s', e.read.run s = (.ok l, s') := by
  rw [run_of_options h files]
  refine ⟨?_, fun clauses σ hread => ⟨?_, ?_⟩⟩
  · constructor
    · -- a run that stops early has the status 1
      intro hstatus
      rcases hread : (fromFile files options.file).run .initial with ⟨e | clauses, σ⟩
      · rw [runWith_of_error hread] at hstatus
        exact absurd hstatus (by decide)
      · refine ⟨clauses, σ, rfl, ?_⟩
        rw [← isSome_chooseGiven_iff]
        rcases hgiven : chooseGiven options.given clauses with _ | s
        · rw [runWith_of_none hread hgiven] at hstatus
          exact absurd hstatus (by decide)
        · rfl
    · rintro ⟨clauses, σ, hread, hexists⟩
      rw [← isSome_chooseGiven_iff, Option.isSome_iff_exists] at hexists
      obtain ⟨⟨given, processed⟩, hgiven⟩ := hexists
      obtain ⟨derived, hderive⟩ := exists_derive_of_fromFile hread hgiven
      rw [runWith_of_derive hread hgiven hderive]
      rfl
  · intro given processed hgiven
    obtain ⟨derived, hderive⟩ := exists_derive_of_fromFile hread hgiven
    exact ⟨derived, hderive, runWith_of_derive hread hgiven hderive⟩
  · intro c hc
    obtain ⟨⟨bytes, name, ls, hbytes, hitem, hlabel, hyields⟩, hlength⟩ :=
      equality_of_fromFile hread hc
    refine ⟨bytes, name, ls, hbytes, hitem, hlabel, fun l hl hequality => ?_⟩
    obtain ⟨e, he, hl'⟩ := hyields l hl
    exact ⟨hlength l hl hequality, e, he, hl'.isInfix hequality, hl'.read_eq⟩

/-- A given clause chosen by name, with a denied equation in it, and an equation in a file
that is included. -/
theorem run_status_eq_zero_iff_included :
    ∃ (files : FileSystem) (clauses processed derived : List Clause) (given : Clause)
      (σ : Signature),
      Options.parse? ["--given", "g", "a.p"] = some ⟨"a.p", some "g", false⟩ ∧
      (fromFile files "a.p").run .initial = (.ok clauses, σ) ∧
      chooseGiven (some "g") clauses = some (given, processed) ∧
      (run files ["--given", "g", "a.p"]).status = 0 ∧
      derive given processed = .ok derived ∧ derived ≠ [] ∧
      run files ["--given", "g", "a.p"] = .success (printed σ false derived) := by
  let files := (Directory.ofFiles [("a.p", utf8 "include('b.p'). cnf(g, axiom, p(f(X)) | X != c)."),
    ("b.p", utf8 "cnf(e, axiom, f(Y) = Y).")]).toFileSystem
  let one : Clause := ⟨[.pos (.equation (.app 0 [.var 0]) (.var 0))], .named "e"⟩
  let given : Clause := ⟨[.pos ⟨1, [.app 0 [.var 1]]⟩, .neg (.equation (.var 1) (.app 1 []))],
    .named "g"⟩
  let σ := ((fromFile files "a.p").run .initial).2
  have hparse : Options.parse? ["--given", "g", "a.p"] = some ⟨"a.p", some "g", false⟩ := by
    decide +kernel
  have hread : ((fromFile files "a.p").run .initial).1 = .ok [one, given] := by decide +kernel
  have hrun : (fromFile files "a.p").run .initial = (.ok [one, given], σ) := Prod.ext hread rfl
  have hgiven : chooseGiven (some "g") [one, given] = some (given, [one]) := by decide
  have hexists : GivenExists (some "g") [one, given] := ⟨given, by simp, rfl⟩
  obtain ⟨hstatus, hinferences⟩ := run_status_eq_zero_iff hparse files
  obtain ⟨derived, hderive, hsuccess⟩ := (hinferences _ σ hrun).1 given [one] hgiven
  have hne : derive given [one] ≠ .ok [] := by decide +kernel
  refine ⟨files, [one, given], [one], derived, given, σ, hparse, hrun, hgiven,
    hstatus.2 ⟨_, σ, hrun, hexists⟩, hderive, ?_, hsuccess⟩
  rintro rfl
  exact hne hderive

end Clausal.CommandLine
