/-
An inclusion stands for the text of the file. Where a text includes a file of its own
directory, reading it is reading the text that has the contents of the file in the place of
the inclusion: the same clauses over the same signature, or the same error, except that a
fault behind the inclusion is found at another position (`fromBytes_include`).

Three things have to be seen. An inclusion is read as one item, and the file that it names
is looked for beside the text, so that the inclusions in it lead to the same files from both
places. What is included may nest one level less deep, which makes no difference unless the
files go round in a circle (`deepens_readNested_succ`). And whether a text is read does not
depend on the signature that it is read over (`settled_fromBytes`), so that a file that can
be read by itself can be read where it is included.
-/
import Clausal.Proofs.Concatenation
import Clausal.Proofs.PrintedClauses
import Clausal.Proofs.Registration

set_option autoImplicit false

namespace Clausal

/-! ## Files beside one another -/

/-- A name without a stroke is looked for in the directory. -/
theorem locate_of_not_mem {name : String} (h : '/' ∉ name.toList) (directory : String) :
    locate directory name = directory ++ name := by
  refine if_neg fun hhead => h ?_
  exact List.mem_of_mem_head? hhead

/-- And it leads to no other directory. -/
theorem directoryOf_append (directory : String) {name : String} (h : '/' ∉ name.toList) :
    directoryOf (directory ++ name) = directoryOf directory := by
  have hname : ∀ c ∈ name.toList.reverse, (c != '/') = true := fun c hc =>
    bne_iff_ne.2 fun heq => h (heq ▸ List.mem_reverse.1 hc)
  rw [directoryOf, String.toList_append, List.reverse_append, List.dropWhile_append_of_pos hname,
    directoryOf]

namespace Problem

/-! ## The words of an inclusion -/

/-- The statement that includes a file. -/
def inclusionText (file : String) : String := "include('" ++ file ++ "')."

/-- A name in which nothing is to be escaped goes up to the next quote. -/
theorem quotedRest?_of_unescaped {quote : Char} (hquote : quote ≠ '\\') {cs : List Char}
    (h : ∀ c ∈ cs, isPrintable c = true ∧ c ≠ quote ∧ c ≠ '\\') (rest : List Char) :
    quotedRest? quote (cs ++ quote :: rest) = some (cs ++ [quote], rest) := by
  induction cs with
  | nil =>
    rw [List.nil_append, quotedRest?.eq_2 _ _ _ fun _ _ heq _ => hquote heq,
      if_pos (beq_self_eq_true quote)]
    rfl
  | cons c cs ih =>
    rw [List.forall_mem_cons] at h
    obtain ⟨⟨hprintable, hne, hbackslash⟩, hcs⟩ := h
    rw [List.cons_append, quotedRest?.eq_2 _ _ _ fun _ _ heq _ => hbackslash heq,
      if_neg (by simpa using hne), if_pos (by simp [hprintable, hbackslash]), ih hcs]
    rfl

section

variable {file : String}
  (hfile : ∀ c ∈ file.toList, isPrintable c = true ∧ c ≠ '\'' ∧ c ≠ '\\')
include hfile

/-- The name of a file in quotes is one word, whatever follows. -/
theorem writes_fileName : Writes Anything ('\'' :: (file.toList ++ ['\'']))
    [.quoted (String.ofList ('\'' :: (file.toList ++ ['\''])))] where
  ascii c hc := by
    rw [← List.cons_append, List.mem_append, List.mem_cons, List.mem_singleton] at hc
    rcases hc with (rfl | hc) | rfl
    · rfl
    · have hprintable := (hfile c hc).1
      rw [isPrintable, Bool.and_eq_true] at hprintable
      exact hprintable.2
    · rfl
  statement?_eq {rest} _ := by
    refine statement?_of_scan? ?_ (by simp [Token.fullStop])
    show (quotedRest? '\'' (file.toList ++ ['\''] ++ rest)).map _ = _
    rw [List.append_assoc, List.singleton_append, quotedRest?_of_unescaped (by decide) hfile]
    rfl

/-- **An inclusion is spelled out**, and its file has the name without the quotes. -/
theorem spelled_inclusionText : Spelled (inclusionText file) (.inclusion file none) := by
  have hinclude : Writes Stops "include".toList [.lower "include"] := writes_lower rfl
  -- the words are written one behind the other, with marks in between
  have hall := hinclude.append (writes_open.append_of_anything
    ((writes_fileName hfile).append_of_anything writes_close)) fun _ _ => rfl
  have htext : (inclusionText file).toList =
      "include".toList ++ (['('] ++ ('\'' :: (file.toList ++ ['\'']) ++ [')'])) ++ ['.'] := by
    simp [inclusionText]
  have hstatement : IsStatement (inclusionText file) [.lower "include", .mark "(",
      .quoted (String.ofList ('\'' :: (file.toList ++ ['\'']))), .mark ")", .fullStop] := by
    refine ⟨fun c hc => ?_, ?_⟩
    · rw [htext, List.mem_append, List.mem_singleton] at hc
      rcases hc with hc | rfl
      · exact hall.ascii c hc
      · rfl
    · rw [htext, hall.statement?_eq trivial, statement?_fullStop]
      rfl
  -- the quotes are taken off again, and there are no others
  have hname : String.ofList ((String.ofList ('\'' :: (file.toList ++ ['\'']))).toList.filter
      (· != '\'')) = file := by
    have hfilter : file.toList.filter (· != '\'') = file.toList :=
      List.filter_eq_self.2 fun c hc => bne_iff_ne.2 (hfile c hc).2.1
    rw [String.toList_ofList, ← List.singleton_append, List.filter_append, List.filter_append,
      hfilter]
    simp
  refine ⟨hstatement.ascii, ?_⟩
  rw [hstatement.item?_eq]
  show some (Item.inclusion (String.ofList ((String.ofList
    ('\'' :: (file.toList ++ ['\'']))).toList.filter (· != '\''))) none, ([] : List Char)) = _
  rw [hname]

end

/-! ## The depth of inclusion -/

section

variable {α β : Type}

/-- The second reading does what the first does, unless that one has come to files that
include one another without end. -/
def Deepens (m k : Reading α) : Prop :=
  ∀ σ, (∀ path, (m.run σ).1 ≠ .error (.circular path)) → k.run σ = m.run σ

theorem Deepens.refl (m : Reading α) : Deepens m m := fun _ _ => rfl

/-- One after the other, if both are deepened. -/
theorem Deepens.bind {m k : Reading α} {f g : α → Reading β} (hm : Deepens m k)
    (hf : ∀ a, Deepens (f a) (g a)) : Deepens (m >>= f) (k >>= g) := by
  intro σ h
  rw [run_bind] at h
  -- the first computation does not end at the bound, or the whole would
  have hk : k.run σ = m.run σ := by
    refine hm σ fun path hpath => h path ?_
    rcases hrun : m.run σ with ⟨e | a, τ⟩
    · rw [hrun] at hpath
      exact congrArg Except.error (Except.error.inj hpath)
    · rw [hrun] at hpath
      cases hpath
  rw [run_bind, run_bind, hk]
  rcases hrun : m.run σ with ⟨e | a, τ⟩
  · rfl
  · rw [hrun] at h
    exact hf a τ h

variable {included included' : String → Reading (List Clause)}
  (h : ∀ path, Deepens (included path) (included' path)) (directory : String)
include h

/-- An item is read alike, unless it includes a file and that comes to the bound. -/
theorem Item.deepens_read (i : Item) :
    Deepens (i.read included directory) (i.read included' directory) := by
  match i with
  | .clause _ _ | .formula _ | .inclusion _ (some _) => exact Deepens.refl _
  | .inclusion file none => exact h (locate directory file)

/-- So are items, one after the other. -/
theorem deepens_readItems (is : List Item) :
    Deepens (readItems included directory is) (readItems included' directory is) := by
  induction is with
  | nil => exact Deepens.refl _
  | cons i is ih =>
    exact (Item.deepens_read h directory i).bind fun here => ih.bind fun later => Deepens.refl _

/-- So is a whole document. -/
theorem Document.deepens_read (d : Document) :
    Deepens (d.read included directory) (d.read included' directory) :=
  (deepens_readItems h directory d.items).bind fun _ => Deepens.refl _

end

/-- **One level more** makes no difference, unless there were not enough of them. -/
theorem deepens_readNested_succ (files : FileSystem) (depth : Nat) (path : String) :
    Deepens (readNested files depth path) (readNested files (depth + 1) path) := by
  induction depth generalizing path with
  | zero => exact fun σ h => absurd rfl (h path)
  | succ depth ih =>
    rw [readNested, readNested]
    split
    · exact Deepens.refl _
    · exact Document.deepens_read ih _ _

/-! ## The outcome over another signature -/

/-- Whether the reading fails, and with which error, is the same over every signature. -/
def Settled (m : Reading (List Clause)) : Prop :=
  (∀ σ, ∃ cs τ, m.run σ = (.ok cs, τ)) ∨ ∃ e, ∀ σ, ∃ τ, m.run σ = (.error e, τ)

/-- What succeeds over one signature does so over all. -/
theorem Settled.exists_of_run {m : Reading (List Clause)} (h : Settled m) {ρ τ : Signature}
    {cs : List Clause} (hrun : m.run ρ = (.ok cs, τ)) (σ : Signature) :
    ∃ ds υ, m.run σ = (.ok ds, υ) := by
  rcases h with h | ⟨e, h⟩
  · exact h σ
  · obtain ⟨υ, he⟩ := h ρ
    rw [hrun] at he
    cases he

/-- Whether reading succeeds is settled through all ways in which it is put together. -/
theorem compositional_settled : Compositional Settled where
  nil := .inl fun σ => ⟨[], σ, rfl⟩
  throw e := .inr ⟨e, fun σ => ⟨σ, rfl⟩⟩
  append := by
    -- the first one settles the outcome if it fails, and otherwise the second does
    rintro m k (hm | ⟨e, hm⟩) hk
    · rcases hk with hk | ⟨e, hk⟩
      · refine .inl fun σ => ?_
        obtain ⟨cs, τ, hrun⟩ := hm σ
        obtain ⟨ds, υ, hrun'⟩ := hk τ
        refine ⟨cs ++ ds, υ, ?_⟩
        rw [run_bind, hrun]
        simp only
        rw [run_bind, hrun']
        rfl
      · refine .inr ⟨e, fun σ => ?_⟩
        obtain ⟨cs, τ, hrun⟩ := hm σ
        obtain ⟨υ, hrun'⟩ := hk τ
        refine ⟨υ, ?_⟩
        rw [run_bind, hrun]
        simp only
        rw [run_bind, hrun']
    · refine .inr ⟨e, fun σ => ?_⟩
      obtain ⟨τ, hrun⟩ := hm σ
      exact ⟨τ, by rw [run_bind, hrun]⟩
  refuse := by
    rintro m e (hm | ⟨e', hm⟩)
    · refine .inr ⟨e, fun σ => ?_⟩
      obtain ⟨cs, τ, hrun⟩ := hm σ
      refine ⟨τ, ?_⟩
      rw [run_bind, hrun]
      rfl
    · refine .inr ⟨e', fun σ => ?_⟩
      obtain ⟨τ, hrun⟩ := hm σ
      exact ⟨τ, by rw [run_bind, hrun]⟩

/-- A clause is read over every signature, or it has a reserved word, which is refused over
every signature. -/
theorem settled_readClause (name : String) (ls : List LiteralExpr) :
    Settled (do let c ← readClause name ls; pure [c]) := by
  rcases plain_or_firstReservedIn ls with hplain | ⟨before, e, hreserved⟩
  · refine .inl fun σ => ?_
    obtain ⟨c, hrun⟩ := run_readClause_of_plain name σ hplain
    refine ⟨[c], registerAll σ (ls.flatMap LiteralExpr.mentions), ?_⟩
    rw [run_bind, hrun]
    rfl
  · refine .inr ⟨e, fun σ => ⟨registerAll σ before, ?_⟩⟩
    rw [run_bind, run_readClause_of_firstReservedIn name σ hreserved]

/-! ## Splicing -/

/-- Reads bytes as the content of a file in a directory. -/
def fromBytes (files : FileSystem) (directory : String) (bytes : List UInt8) :
    Reading (List Clause) :=
  (Document.ofBytes bytes).read (readNested files (files.depth - 1)) directory

/-- A file is read as its content in its directory. -/
theorem fromFile_eq_fromBytes {files : FileSystem} (hdepth : 0 < files.depth) {path : String}
    {bytes : List UInt8} (h : files.read path = .ok bytes) :
    fromFile files path = fromBytes files (directoryOf path) bytes := by
  obtain ⟨depth, hdepth⟩ := Nat.exists_eq_add_of_lt hdepth
  rw [fromFile, fromBytes, hdepth, Nat.zero_add, Nat.add_sub_cancel, readNested, h]

/-- Whether some bytes are read does not depend on the signature. -/
theorem settled_fromBytes (files : FileSystem) (directory : String) (bytes : List UInt8) :
    Settled (fromBytes files directory bytes) :=
  compositional_settled.read _ fun name ls _ => settled_readClause name ls

section

variable {included : String → Reading (List Clause)} {directory : String} {σ τ υ : Signature}

/-- Items that are read in front of a document leave it the signature that it is read over,
and its clauses come behind theirs. -/
theorem Document.run_read_append {is : List Item} {cs : List Clause}
    (h : (readItems included directory is).run σ = (.ok cs, τ)) (js : List Item)
    (fault : Option Nat) :
    (Document.read included directory ⟨is ++ js, fault⟩).run σ =
      (((Document.read included directory ⟨js, fault⟩).run τ).1.map (cs ++ ·),
        ((Document.read included directory ⟨js, fault⟩).run τ).2) := by
  rw [Document.read, Document.read, run_bind, run_bind, run_readItems_append h]
  rcases (readItems included directory js).run τ with ⟨e | ds, υ⟩
  · rfl
  · cases fault <;> rfl

/-- Where a document begins makes no difference to how it is read, unless that ends at the
fault of the document itself. -/
theorem Document.run_read_moved (d : Document) (n m : Nat) (σ : Signature) :
    (Document.read included directory ⟨d.items, d.fault.map (n + ·)⟩).run σ =
        (Document.read included directory ⟨d.items, d.fault.map (m + ·)⟩).run σ ∨
      ∃ k τ, d.fault = some k ∧
        (Document.read included directory ⟨d.items, d.fault.map (n + ·)⟩).run σ =
          (.error (.malformed (n + k)), τ) ∧
        (Document.read included directory ⟨d.items, d.fault.map (m + ·)⟩).run σ =
          (.error (.malformed (m + k)), τ) := by
  rw [Document.read, Document.read, run_bind, run_bind]
  rcases (readItems included directory d.items).run σ with ⟨e | cs, τ⟩
  · exact .inl rfl
  · rcases d.fault with _ | k
    · exact .inl rfl
    · exact .inr ⟨k, τ, rfl, rfl, rfl⟩

/-- A single inclusion is read as the file that it names. -/
theorem run_readItems_inclusion {file : String} {ds : List Clause}
    (h : (included (locate directory file)).run τ = (.ok ds, υ)) :
    (readItems included directory [.inclusion file none]).run τ = (.ok ds, υ) := by
  rw [readItems, run_bind, Item.read, h]
  show (Except.ok (ds ++ []), υ) = _
  rw [List.append_nil]

end

/-- Three parts, the first two of which have no fault. -/
theorem Document.ofBytes_append_append {a b : List UInt8} (ha : (ofBytes a).fault = none)
    (hb : (ofBytes b).fault = none) (c : List UInt8) :
    ofBytes (a ++ b ++ c) = ⟨((ofBytes a).items ++ (ofBytes b).items) ++ (ofBytes c).items,
      (ofBytes c).fault.map (a.length + b.length + ·)⟩ := by
  have hab : (ofBytes (a ++ b)).fault = none := by
    rw [ofBytes_append ha, hb]
    rfl
  rw [ofBytes_append hab, ofBytes_append ha, List.length_append]

/-- Two texts in front of a third leave it the signature that it is read over, and their
clauses come before its own. Its fault is counted from their beginning. -/
theorem run_fromBytes_append_append {files : FileSystem} {directory : String} {σ τ : Signature}
    {a b : List UInt8} (ha : (Document.ofBytes a).fault = none)
    (hb : (Document.ofBytes b).fault = none) {cs : List Clause}
    (h : (readItems (readNested files (files.depth - 1)) directory
      ((Document.ofBytes a).items ++ (Document.ofBytes b).items)).run σ = (.ok cs, τ))
    (c : List UInt8) :
    (fromBytes files directory (a ++ b ++ c)).run σ =
      (((Document.read (readNested files (files.depth - 1)) directory ⟨(Document.ofBytes c).items,
          (Document.ofBytes c).fault.map (a.length + b.length + ·)⟩).run τ).1.map (cs ++ ·),
        ((Document.read (readNested files (files.depth - 1)) directory ⟨(Document.ofBytes c).items,
          (Document.ofBytes c).fault.map (a.length + b.length + ·)⟩).run τ).2) := by
  rw [fromBytes, Document.ofBytes_append_append ha hb, Document.run_read_append h]

/-- **Inclusion is splicing.** A text that can be read, the inclusion of a file that can be
read, and any further text are read as the first text, the contents of the file and the
further text: with the same clauses over the same signature or with the same error and
signature, unless the reading comes to the end of the further text and finds it at fault.
Then only the position of the fault is another. The name of the file has nothing to be
escaped in it, the file lies beside the text, and the files do not go round in a circle. -/
theorem fromBytes_include {files : FileSystem} {directory file : String}
    {pre body post : List UInt8} {σ : Signature} (hdirectory : directoryOf directory = directory)
    (hfile : ∀ c ∈ file.toList, isPrintable c = true ∧ c ≠ '/' ∧ c ≠ '\'' ∧ c ≠ '\\')
    (hcontent : files.read (directory ++ file) = .ok body)
    (hpre : ∃ ρ cs τ, (fromBytes files directory pre).run ρ = (.ok cs, τ))
    (hbody : ∃ ρ cs τ, (fromBytes files directory body).run ρ = (.ok cs, τ))
    (hcircular : ∀ path, ((fromBytes files directory
      (pre ++ utf8 (inclusionText file) ++ post)).run σ).1 ≠ .error (.circular path)) :
    (fromBytes files directory (pre ++ utf8 (inclusionText file) ++ post)).run σ =
        (fromBytes files directory (pre ++ body ++ post)).run σ ∨
      ∃ n τ, (Document.ofBytes post).fault = some n ∧
        (fromBytes files directory (pre ++ utf8 (inclusionText file) ++ post)).run σ =
          (.error (.malformed (pre.length + (utf8 (inclusionText file)).length + n)), τ) ∧
        (fromBytes files directory (pre ++ body ++ post)).run σ =
          (.error (.malformed (pre.length + body.length + n)), τ) := by
  have hslash : '/' ∉ file.toList := fun hmem => (hfile '/' hmem).2.1 rfl
  have hlocate : locate directory file = directory ++ file := locate_of_not_mem hslash directory
  have hspelled := (spelled_inclusionText fun c hc =>
    ⟨(hfile c hc).1, (hfile c hc).2.2⟩ : Spelled (inclusionText file) _).ofBytes_eq
  -- the first text and the file are read, whatever the signature
  obtain ⟨ρ, _, _, hpre⟩ := hpre
  obtain ⟨cs, τ, hpre⟩ := (settled_fromBytes files directory pre).exists_of_run hpre σ
  obtain ⟨ρ', _, _, hbody⟩ := hbody
  obtain ⟨ds, υ, hbody⟩ := (settled_fromBytes files directory body).exists_of_run hbody τ
  obtain ⟨hprefault, hpreitems⟩ := Document.run_read_eq_ok_iff.1 hpre
  obtain ⟨hbodyfault, hbodyitems⟩ := Document.run_read_eq_ok_iff.1 hbody
  -- the file is read where it is included
  have hnested : Deepens (readNested files (files.depth - 1) (directory ++ file))
      (fromBytes files directory body) := by
    have h := deepens_readNested_succ files (files.depth - 1) (directory ++ file)
    rw [readNested, hcontent, directoryOf_append directory hslash, hdirectory] at h
    exact h
  have hends : ∀ path, ((readNested files (files.depth - 1) (directory ++ file)).run τ).1 ≠
      .error (.circular path) := by
    intro path hpath
    refine hcircular path ?_
    rw [fromBytes, Document.ofBytes_append_append hprefault (by rw [hspelled]), hspelled,
      List.append_assoc, Document.run_read_append hpreitems, Document.read, run_bind,
      List.singleton_append, readItems, run_bind, Item.read, hlocate]
    rcases hrun : (readNested files (files.depth - 1) (directory ++ file)).run τ with ⟨e | es, υ'⟩
    · rw [hrun] at hpath
      rw [Except.error.inj hpath]
      rfl
    · rw [hrun] at hpath
      cases hpath
  have hincluded : (readNested files (files.depth - 1) (locate directory file)).run τ =
      (.ok ds, υ) := by
    rw [hlocate, ← hnested τ hends, hbody]
  -- so both texts have come to the same signature where the further text begins
  have hspliced := (run_readItems_append_eq_ok_iff hpreitems _).2 hbodyitems
  have hincluding := (run_readItems_append_eq_ok_iff hpreitems _).2
    (run_readItems_inclusion hincluded)
  have hincludingitems : (readItems (readNested files (files.depth - 1)) directory
      ((Document.ofBytes pre).items ++
        (Document.ofBytes (utf8 (inclusionText file))).items)).run σ = (.ok (cs ++ ds), υ) := by
    rw [hspelled]
    exact hincluding
  rw [run_fromBytes_append_append hprefault (by rw [hspelled]) hincludingitems,
    run_fromBytes_append_append hprefault hbodyfault hspliced]
  rcases (Document.ofBytes post).run_read_moved (pre.length + (utf8 (inclusionText file)).length)
    (pre.length + body.length) υ with heq | ⟨n, τ', hn, hone, htwo⟩
  · exact .inl (by rw [heq])
  · exact .inr ⟨n, τ', hn, by rw [hone]; rfl, by rw [htwo]; rfl⟩

/-- A file that includes another one beside it, in front of a text that is read and of one
that breaks off behind its first blank. -/
theorem fromBytes_include_nested :
    ∃ (files : FileSystem) (pre body post broken : List UInt8) (τ : Signature),
      directoryOf "d/" = "d/" ∧ files.read ("d/" ++ "b.p") = .ok body ∧
      (∃ ρ cs υ, (fromBytes files "d/" pre).run ρ = (.ok cs, υ)) ∧
      (∃ ρ cs υ, (fromBytes files "d/" body).run ρ = (.ok cs, υ)) ∧
      (fromBytes files "d/" (pre ++ utf8 (inclusionText "b.p") ++ post)).run .initial =
        (fromBytes files "d/" (pre ++ body ++ post)).run .initial ∧
      ((fromBytes files "d/" (pre ++ body ++ post)).run .initial).1 =
        .ok [⟨[.pos ⟨1, [.var 0]⟩], .named "a"⟩, ⟨[.pos ⟨2, [.var 1]⟩], .named "b"⟩,
          ⟨[.pos ⟨2, [.app 0 []]⟩], .named "c"⟩, ⟨[.neg ⟨1, [.app 0 []]⟩], .named "d"⟩] ∧
      (fromBytes files "d/" (pre ++ utf8 (inclusionText "b.p") ++ broken)).run .initial =
        (.error (.malformed 36), τ) ∧
      (fromBytes files "d/" (pre ++ body ++ broken)).run .initial =
        (.error (.malformed 57), τ) := by
  let files := (Directory.ofFiles [("d/b.p", utf8 "cnf(b, axiom, q(Y)). include('c.p')."),
    ("d/c.p", utf8 "cnf(c, axiom, q(k)).")]).toFileSystem
  let pre := utf8 "cnf(a, axiom, p(X))."
  let body := utf8 "cnf(b, axiom, q(Y)). include('c.p')."
  let post := utf8 " cnf(d, axiom, ~p(k))."
  let broken := utf8 " cnf(d"
  have hfile : ∀ c ∈ "b.p".toList, isPrintable c = true ∧ c ≠ '/' ∧ c ≠ '\'' ∧ c ≠ '\\' := by
    simp [isPrintable]
  have hdirectory : directoryOf "d/" = "d/" := by decide +kernel
  have hcontent : files.read ("d/" ++ "b.p") = .ok body := by decide +kernel
  have hpre : ∃ ρ cs υ, (fromBytes files "d/" pre).run ρ = (.ok cs, υ) :=
    ⟨.initial, [⟨[.pos ⟨1, [.var 0]⟩], .named "a"⟩], _, Prod.ext (by decide +kernel) rfl⟩
  have hbody : ∃ ρ cs υ, (fromBytes files "d/" body).run ρ = (.ok cs, υ) :=
    ⟨.initial, [⟨[.pos ⟨1, [.var 0]⟩], .named "b"⟩, ⟨[.pos ⟨1, [.app 0 []]⟩], .named "c"⟩], _,
      Prod.ext (by decide +kernel) rfl⟩
  have hspliced : ((fromBytes files "d/" (pre ++ body ++ post)).run .initial).1 =
      .ok [⟨[.pos ⟨1, [.var 0]⟩], .named "a"⟩, ⟨[.pos ⟨2, [.var 1]⟩], .named "b"⟩,
        ⟨[.pos ⟨2, [.app 0 []]⟩], .named "c"⟩, ⟨[.neg ⟨1, [.app 0 []]⟩], .named "d"⟩] := by
    decide +kernel
  have hincluding : ((fromBytes files "d/"
      (pre ++ utf8 (inclusionText "b.p") ++ post)).run .initial).1.toBool = true := by
    decide +kernel
  -- the text behind the inclusion is read in both cases
  have hposts : (fromBytes files "d/" (pre ++ utf8 (inclusionText "b.p") ++ post)).run .initial =
      (fromBytes files "d/" (pre ++ body ++ post)).run .initial := by
    have hends : ∀ path, ((fromBytes files "d/"
        (pre ++ utf8 (inclusionText "b.p") ++ post)).run .initial).1 ≠ .error (.circular path) := by
      intro path hpath
      rw [hpath] at hincluding
      cases hincluding
    rcases fromBytes_include hdirectory hfile hcontent hpre hbody hends with h | ⟨n, -, hn, -⟩
    · exact h
    · -- this text is not at fault
      have hnone : (Document.ofBytes post).fault = none := by decide +kernel
      cases hnone.symm.trans hn
  have hbroken : ((fromBytes files "d/"
      (pre ++ utf8 (inclusionText "b.p") ++ broken)).run .initial).1 = .error (.malformed 36) := by
    decide +kernel
  have hmoved : ((fromBytes files "d/" (pre ++ body ++ broken)).run .initial).1 =
      .error (.malformed 57) := by decide +kernel
  -- the text behind the inclusion breaks off, at a position that is moved by the included text
  obtain ⟨τ, hone, htwo⟩ : ∃ τ, (fromBytes files "d/"
        (pre ++ utf8 (inclusionText "b.p") ++ broken)).run .initial = (.error (.malformed 36), τ) ∧
      (fromBytes files "d/" (pre ++ body ++ broken)).run .initial =
        (.error (.malformed 57), τ) := by
    have hends : ∀ path, ((fromBytes files "d/" (pre ++ utf8 (inclusionText "b.p") ++
        broken)).run .initial).1 ≠ .error (.circular path) := by
      intro path hpath
      cases hbroken.symm.trans hpath
    rcases fromBytes_include hdirectory hfile hcontent hpre hbody hends with
      h | ⟨n, τ, -, hone, htwo⟩
    · -- the two stop at different positions
      cases hbroken.symm.trans ((congrArg Prod.fst h).trans hmoved)
    · refine ⟨τ, Prod.ext hbroken ?_, Prod.ext hmoved ?_⟩
      · rw [hone]
      · rw [htwo]
  exact ⟨files, pre, body, post, broken, τ, hdirectory, hcontent, hpre, hbody, hposts, hspliced,
    hone, htwo⟩

/-- A file whose name is not in ASCII. Its contents can be read, and so can a text in front,
but an inclusion of the file is no item. -/
theorem fromBytes_include_unprintable :
    let files := (Directory.ofFiles [("é.p", utf8 "cnf(a, axiom, p).")]).toFileSystem
    (∀ c ∈ "é.p".toList, c ≠ '/' ∧ c ≠ '\'' ∧ c ≠ '\\') ∧ directoryOf "" = "" ∧
    files.read ("" ++ "é.p") = .ok (utf8 "cnf(a, axiom, p).") ∧
    (fromBytes files "" []).run .initial = (.ok [], .initial) ∧
    (fromBytes files "" (utf8 (inclusionText "é.p"))).run .initial =
      (.error (.malformed 0), .initial) ∧
    ((fromBytes files "" (utf8 "cnf(a, axiom, p).")).run .initial).1 =
      .ok [⟨[.pos ⟨1, []⟩], .named "a"⟩] := by
  intro files
  refine ⟨by simp, by decide +kernel, by decide +kernel, ?_, ?_, by decide +kernel⟩
  · exact Prod.ext (by decide +kernel) (by decide +kernel)
  · exact Prod.ext (by decide +kernel) (by decide +kernel)

end Problem

end Clausal
