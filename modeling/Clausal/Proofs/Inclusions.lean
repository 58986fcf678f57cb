/-
How a text is read together with the files that it includes. What is read in the end is
a sequence of clause items: those of the text itself, and in the place of every inclusion
those of the file included. `ItemIn` says which items these are.

A fact about reading is proved item by item. If it holds of what does nothing and of what
fails, and is kept when one reading follows another (`Compositional`), then it holds of
reading the whole text as soon as it holds of reading each of its clauses, however deep
that clause is included (`Compositional.fromText`, `Compositional.fromFile`). The induction
on the depth of inclusion is done here, once.
-/
import Clausal.Problem.Reading
import Clausal.Proofs.WellSpelled

set_option autoImplicit false

namespace Clausal.Problem

/-! ## The items of a text -/

/-- The item stands in the document, which lies in the directory, or in a file that is
included from there. -/
inductive ItemIn (files : FileSystem) (i : Item) : String → Document → Prop where
  | here {directory : String} {d : Document} (mem : i ∈ d.items) : ItemIn files i directory d
  | included {directory file : String} {d : Document} {bytes : List UInt8}
    (mem : .inclusion file none ∈ d.items)
    (read_eq : files.read (locate directory file) = .ok bytes)
    (inside : ItemIn files i (directoryOf (locate directory file)) (.ofBytes bytes)) :
    ItemIn files i directory d

theorem ItemIn.wellSpelled {files : FileSystem} {i : Item} {directory : String} {d : Document}
    (h : ItemIn files i directory d) (hd : ∀ j ∈ d.items, j.WellSpelled) : i.WellSpelled := by
  induction h with
  | here mem => exact hd i mem
  | included mem read_eq inside ih => exact ih Document.wellSpelled_of_mem_items

/-! ## Reading item by item -/

/-- The property holds of readings that return no clause or fail, and is kept when
readings follow one another. -/
structure Compositional (P : Reading (List Clause) → Prop) : Prop where
  nil : P (pure [])
  throw : ∀ e : ReadError, P (throw e)
  append : ∀ {m k : Reading (List Clause)}, P m → P k →
    P (do let here ← m; let later ← k; pure (here ++ later))
  /-- What follows may fail whatever has been read. -/
  refuse : ∀ {m : Reading (List Clause)} (e : ReadError), P m → P (m >>= fun _ => MonadExcept.throw e)

namespace Compositional

variable {P : Reading (List Clause) → Prop}

theorem readItems (h : Compositional P) {included : String → Reading (List Clause)}
    {directory : String} {is : List Item} (hitems : ∀ i ∈ is, P (i.read included directory)) :
    P (readItems included directory is) := by
  induction is with
  | nil => exact h.nil
  | cons i is ih =>
    rw [List.forall_mem_cons] at hitems
    exact h.append hitems.1 (ih hitems.2)

/-- A document, given the property of its own clauses and of the files it includes. -/
theorem document (h : Compositional P) {included : String → Reading (List Clause)}
    {directory : String} {d : Document}
    (hclauses : ∀ name ls, .clause name ls ∈ d.items → P (do let c ← readClause name ls; pure [c]))
    (hincluded : ∀ file, .inclusion file none ∈ d.items → P (included (locate directory file))) :
    P (d.read included directory) := by
  have hitems : P (Problem.readItems included directory d.items) := by
    refine h.readItems fun i hi => ?_
    match i, hi with
    | .clause name ls, hi => exact hclauses name ls hi
    | .formula _, _ => exact h.throw _
    | .inclusion _ (some _), _ => exact h.throw _
    | .inclusion file none, hi => exact hincluded file hi
  rw [Document.read]
  rcases d.fault with _ | position
  · show P (Problem.readItems included directory d.items >>= pure)
    rw [bind_pure]
    exact hitems
  · exact h.refuse _ hitems

/-- The depth counts down with every inclusion, and the items further in are items of the
document, too. -/
theorem read (h : Compositional P) {files : FileSystem} (depth : Nat) {directory : String}
    {d : Document}
    (hclauses : ∀ name ls, ItemIn files (.clause name ls) directory d →
      P (do let c ← readClause name ls; pure [c])) :
    P (d.read (readNested files depth) directory) := by
  induction depth generalizing directory d with
  | zero => exact h.document (fun name ls hi => hclauses name ls (.here hi)) fun _ _ => h.throw _
  | succ depth ih =>
    refine h.document (fun name ls hi => hclauses name ls (.here hi)) fun file hfile => ?_
    rw [readNested]
    split
    · exact h.throw _
    · next bytes hbytes =>
      exact ih fun name ls hmem => hclauses name ls (.included hfile hbytes hmem)

/-- **Reading a text**, given the property of each clause in it. -/
theorem fromText (h : Compositional P) (files : FileSystem) (text : String)
    (hclauses : ∀ name ls, (Item.clause name ls).WellSpelled →
      ItemIn files (.clause name ls) "./" (.ofBytes (utf8 text)) →
      P (do let c ← readClause name ls; pure [c])) :
    P (fromText files text) :=
  h.read _ fun name ls hmem =>
    hclauses name ls (hmem.wellSpelled Document.wellSpelled_of_mem_items) hmem

/-- **Reading a file**, given the property of each clause in it. -/
theorem fromFile (h : Compositional P) (files : FileSystem) (path : String)
    (hclauses : ∀ bytes, files.read path = .ok bytes → ∀ name ls,
      (Item.clause name ls).WellSpelled →
      ItemIn files (.clause name ls) (directoryOf path) (.ofBytes bytes) →
      P (do let c ← readClause name ls; pure [c])) :
    P (fromFile files path) := by
  rw [Problem.fromFile]
  rcases files.depth with _ | depth
  · exact h.throw _
  · rw [readNested]
    split
    · exact h.throw _
    · next bytes hbytes =>
      exact h.read _ fun name ls hmem =>
        hclauses bytes hbytes name ls (hmem.wellSpelled Document.wellSpelled_of_mem_items) hmem

end Compositional

end Clausal.Problem
