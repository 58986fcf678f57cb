/-
The numbers of nodes are places in a traversal.

`Term.preorder` lists the nodes of a term depth first and from left to right, and the
number of a node is its place in this list (`Term.node?_eq`). The lookup never builds the
list. It passes over whole arguments by their sizes, and that is right because the size of
a term is the length of its traversal (`Term.length_preorder`).

Counted from the parent, the numbers of an argument begin where those of the argument
before it end, and they begin with 1, the parent itself being 0. `Term.search` is the
lookup with these numbers: it goes through the arguments with a running offset and
subtracts the offset from the number sought once it has found the argument to enter. The
invariant of the pass is that the offset has not overtaken the number, so the subtraction
is always exact (`Term.search_eq`).

A proposition is traversed like a term, and an atom is its own first node, the only one
that is no term.
-/
import Clausal.Position

set_option autoImplicit false

namespace Clausal

namespace Term

/-! ## Traversals -/

mutual

/-- The nodes of a term, depth first and from left to right. -/
def preorder : Term → List Term
  | .var x => [.var x]
  | .app f args => .app f args :: preorderList args

def preorderList : List Term → List Term
  | [] => []
  | t :: ts => t.preorder ++ preorderList ts

end

@[simp] theorem preorder_var (x : Nat) : (var x).preorder = [.var x] := rfl

/-- The list half is a concatenation over the terms. -/
@[simp] theorem preorderList_eq (ts : List Term) : preorderList ts = ts.flatMap preorder := by
  induction ts with
  | nil => rfl
  | cons t ts ih => rw [preorderList, ih, List.flatMap_cons]

@[simp] theorem preorder_app (f : Nat) (args : List Term) :
    (app f args).preorder = .app f args :: args.flatMap preorder := by
  rw [preorder, preorderList_eq]

/-- The case of argument lists, under the induction hypothesis for their members. -/
private theorem length_flatMap_of_forall_mem {ts : List Term}
    (h : ∀ t ∈ ts, t.preorder.length = t.size) : (ts.flatMap preorder).length = sizeList ts := by
  induction ts with
  | nil => rfl
  | cons t ts ih =>
    rw [List.forall_mem_cons] at h
    rw [List.flatMap_cons, List.length_append, h.1, ih h.2, sizeList_cons]

/-- The size of a term is the length of its traversal. -/
theorem length_preorder (t : Term) : t.preorder.length = t.size := by
  induction t with
  | var x => rfl
  | app f args ih =>
    rw [preorder_app, List.length_cons, length_flatMap_of_forall_mem ih, size_app, Nat.add_comm]

/-- The size of a list of terms is the length of its traversal. -/
theorem length_flatMap_preorder (ts : List Term) :
    (ts.flatMap preorder).length = sizeList ts :=
  length_flatMap_of_forall_mem fun t _ => t.length_preorder

/-- A node uses no variable that the term does not use. -/
theorem vars_subset_of_mem_preorder {s t : Term} (h : s ∈ t.preorder) : s.vars ⊆ t.vars := by
  induction t with
  | var x => rw [List.mem_singleton.1 h]; exact List.Subset.refl _
  | app f args ih =>
    rw [preorder_app] at h
    rcases List.mem_cons.1 h with rfl | h
    · exact List.Subset.refl _
    · obtain ⟨t, ht, hs⟩ := List.mem_flatMap.1 h
      rw [vars_app]
      exact fun x hx => List.mem_flatMap.2 ⟨t, ht, ih t ht hs hx⟩

/-! ## Looking nodes up -/

/-- The case of argument lists, under the induction hypothesis for their members. An argument is
passed over by its size, which is the length of its part of the traversal. -/
private theorem nodeList?_eq_of_forall_mem {ts : List Term}
    (h : ∀ t ∈ ts, ∀ i, t.node? i = t.preorder[i]?) (i : Nat) :
    nodeList? ts i = (ts.flatMap preorder)[i]? := by
  induction ts generalizing i with
  | nil => rfl
  | cons t ts ih =>
    rw [List.forall_mem_cons] at h
    rw [nodeList?, List.flatMap_cons, List.getElem?_append, length_preorder, h.1, ih h.2]

/-- **The number of a node is its place in the traversal.** -/
theorem node?_eq (t : Term) (i : Nat) : t.node? i = t.preorder[i]? := by
  induction t generalizing i with
  | var x => cases i <;> rfl
  | app f args ih =>
    rw [preorder_app]
    cases i with
    | zero => rfl
    | succ i => exact nodeList?_eq_of_forall_mem ih i

/-- The number of a node in a list of terms is its place in the traversal. -/
theorem nodeList?_eq (ts : List Term) (i : Nat) : nodeList? ts i = (ts.flatMap preorder)[i]? :=
  nodeList?_eq_of_forall_mem (fun t _ => t.node?_eq) i

/-- What is looked up in a list of terms is a node of one of them. -/
theorem exists_mem_preorder_of_nodeList? {ts : List Term} {i : Nat} {s : Term}
    (h : nodeList? ts i = some s) : ∃ t ∈ ts, s ∈ t.preorder := by
  rw [nodeList?_eq] at h
  exact List.mem_flatMap.1 (List.mem_of_getElem? h)

/-! ## The search with offsets -/

/-- What a search comes to. -/
inductive Search where
  | found (t : Term)
  | absent
  /-- An offset had to be subtracted from a smaller number. -/
  | underflow
deriving DecidableEq

/-- A node that has been looked up, or not found, as the end of a search. -/
def Search.ofNode? : Option Term → Search
  | some t => .found t
  | none => .absent

mutual

/-- The search for a node by numbers that count from the parent. -/
def search : Term → Nat → Search
  | t, 0 => .found t
  | .var _, _ + 1 => .absent
  | .app _ args, i + 1 => searchList args 1 (i + 1)

/-- Passes over the arguments whose numbers all lie below the one sought. The numbers of
the arguments left begin with the offset. -/
def searchList : List Term → (offset i : Nat) → Search
  | [], _, _ => .absent
  | t :: ts, offset, i =>
    if i < offset + t.size then
      if offset ≤ i then t.search (i - offset) else .underflow
    else searchList ts (offset + t.size) i

end

/-- The case of argument lists, under the induction hypothesis for their members and the
invariant that the offset has not overtaken the number. -/
private theorem searchList_eq_of_forall_mem {ts : List Term}
    (h : ∀ t ∈ ts, ∀ i, t.search i = .ofNode? (t.node? i)) {offset i : Nat} (hi : offset ≤ i) :
    searchList ts offset i = .ofNode? (nodeList? ts (i - offset)) := by
  induction ts generalizing offset with
  | nil => rfl
  | cons t ts ih =>
    rw [List.forall_mem_cons] at h
    rw [searchList, nodeList?]
    by_cases hlt : i < offset + t.size
    · have hlt' : i - offset < t.size := by omega
      rw [if_pos hlt, if_pos hi, if_pos hlt', h.1]
    · -- the argument is passed over, and the offset still has not overtaken the number
      have hlt' : ¬i - offset < t.size := by omega
      have hnext : offset + t.size ≤ i := by omega
      rw [if_neg hlt, if_neg hlt', ih h.2 hnext, Nat.sub_add_eq]

/-- The search with offsets finds what the lookup finds, and never has to subtract an
offset from a smaller number. -/
theorem search_eq (t : Term) (i : Nat) : t.search i = .ofNode? (t.node? i) := by
  induction t generalizing i with
  | var x => cases i <;> rfl
  | app f args ih =>
    cases i with
    | zero => rfl
    | succ i => exact searchList_eq_of_forall_mem ih (Nat.succ_le_succ (Nat.zero_le i))

/-- The search through a list of terms, from any offset that has not overtaken the number. -/
theorem searchList_eq (ts : List Term) {offset i : Nat} (hi : offset ≤ i) :
    searchList ts offset i = .ofNode? (nodeList? ts (i - offset)) :=
  searchList_eq_of_forall_mem (fun t _ => t.search_eq) hi

theorem Search.ofNode?_ne_underflow (node : Option Term) : ofNode? node ≠ .underflow := by
  cases node <;> exact Search.noConfusion

theorem Search.ofNode?_eq_found_iff {node : Option Term} {s : Term} :
    ofNode? node = .found s ↔ node = some s := by
  cases node <;> simp [ofNode?]

/-! ## Subterms of terms -/

/-- A number below the size leads to the node at that place. -/
theorem subtermAt_of_lt {t : Term} {i : Nat} (h : i < t.preorder.length) :
    t.subtermAt i = .ok t.preorder[i] := by
  rw [subtermAt, node?_eq, List.getElem?_eq_getElem h]

/-- Any other number is reported together with the size. -/
theorem subtermAt_of_le {t : Term} {i : Nat} (h : t.size ≤ i) :
    t.subtermAt i = .error (.indexOutOfRange i t.size) := by
  have hnone : t.preorder[i]? = none := List.getElem?_eq_none (by rwa [length_preorder])
  rw [subtermAt, node?_eq, hnone]

theorem subtermAt_eq_ok_iff {t s : Term} {i : Nat} :
    t.subtermAt i = .ok s ↔ t.node? i = some s := by
  rw [subtermAt]
  cases t.node? i <;> simp

end Term

/-! ## Subterms of atoms and propositions -/

namespace Atom

/-- The nodes of an atom: the atom itself, and then those of its arguments. -/
def preorder (a : Atom) : List Proposition :=
  .atom a :: (a.args.flatMap Term.preorder).map .term

/-- The search for a node of an atom other than the atom itself. -/
def search (a : Atom) (i : Nat) : Term.Search := Term.searchList a.args 1 i

/-- The size of an atom is the length of its traversal. -/
theorem length_preorder (a : Atom) : a.preorder.length = a.size := by
  rw [preorder, List.length_cons, List.length_map, Term.length_flatMap_preorder, size, Nat.add_comm]

/-- A number below the size other than 0 leads to the term at that place. -/
theorem subtermAt_of_lt {a : Atom} {i : Nat} (hi : 1 ≤ i) (h : i < a.preorder.length) :
    ∃ s, a.preorder[i] = .term s ∧ a.subtermAt i = .ok s := by
  obtain ⟨i, rfl⟩ := Nat.exists_eq_add_of_le' hi
  have hargs : i < (a.args.flatMap Term.preorder).length := by
    rw [preorder, List.length_cons, List.length_map] at h
    omega
  refine ⟨(a.args.flatMap Term.preorder)[i], List.getElem_map _, ?_⟩
  rw [subtermAt, Term.nodeList?_eq, List.getElem?_eq_getElem hargs]

/-- A number that is too large is reported together with the size. -/
theorem subtermAt_of_le {a : Atom} {i : Nat} (h : a.size ≤ i) :
    a.subtermAt i = .error (.indexOutOfRange i a.size) := by
  rw [← length_preorder, preorder, List.length_cons, List.length_map] at h
  obtain ⟨i, rfl⟩ := Nat.exists_eq_add_of_le' (Nat.one_le_of_lt h)
  have hnone : (a.args.flatMap Term.preorder)[i]? = none := List.getElem?_eq_none (by omega)
  rw [subtermAt, Term.nodeList?_eq, hnone]

/-- The search with offsets finds the same in an atom. -/
theorem search_eq_found_iff {a : Atom} {i : Nat} (hi : 1 ≤ i) {s : Term} :
    a.search i = .found s ↔ a.subtermAt i = .ok s := by
  obtain ⟨i, rfl⟩ := Nat.exists_eq_add_of_le' hi
  rw [search, Term.searchList_eq a.args hi, Term.Search.ofNode?_eq_found_iff, subtermAt,
    Nat.add_sub_cancel]
  cases Term.nodeList? a.args i <;> simp

/-- The search in an atom starts with the offset 1, which no number but 0 is below. -/
theorem search_ne_underflow {a : Atom} {i : Nat} (hi : 1 ≤ i) : a.search i ≠ .underflow := by
  rw [search, Term.searchList_eq a.args hi]
  exact Term.Search.ofNode?_ne_underflow _

end Atom

namespace Proposition

/-- The nodes of a proposition, depth first and from left to right. -/
def preorder : Proposition → List Proposition
  | .term t => t.preorder.map .term
  | .atom a => a.preorder

/-- The size of a proposition is the length of its traversal. -/
theorem length_preorder (p : Proposition) : p.preorder.length = p.size := by
  cases p with
  | term t => rw [preorder, List.length_map, t.length_preorder, size]
  | atom a => exact a.length_preorder

/-- What is found at a number is the node there, if it is a term. -/
theorem subtermAt_eq (p : Proposition) (i : Nat) :
    p.subtermAt i = match p.preorder[i]? with
      | some (.term s) => .ok s
      | some (.atom _) => .error (.invalidPosition i)
      | none => .error (.indexOutOfRange i p.size) := by
  cases p with
  | term t =>
    rw [subtermAt, Term.subtermAt, Term.node?_eq, preorder, List.getElem?_map]
    cases t.preorder[i]? <;> rfl
  | atom a =>
    cases i with
    | zero => rfl
    | succ i =>
      rw [subtermAt, Atom.subtermAt, Term.nodeList?_eq, preorder, Atom.preorder,
        List.getElem?_cons_succ, List.getElem?_map]
      cases (a.args.flatMap Term.preorder)[i]? <;> rfl

end Proposition

/-- **Addressing is exact.** For terms, atoms and propositions alike, the size is the length
of the traversal, a number below the size leads to the node at this place of the traversal,
and a larger number is reported together with the size. Number 0 of an atom is the atom
itself, and is refused. No search ever subtracts an offset from a smaller number, and it
finds the same. -/
theorem subtermAt_exact :
    (∀ t : Term, t.preorder.length = t.size ∧ ∀ i : Nat,
      (∀ h : i < t.preorder.length, t.subtermAt i = .ok t.preorder[i]) ∧
      (t.size ≤ i → t.subtermAt i = .error (.indexOutOfRange i t.size)) ∧
      t.search i ≠ .underflow ∧ ∀ s, t.search i = .found s ↔ t.subtermAt i = .ok s) ∧
    (∀ a : Atom, a.preorder.length = a.size ∧ a.subtermAt 0 = .error (.invalidPosition 0) ∧
      ∀ i : Nat, 1 ≤ i →
        (∀ h : i < a.preorder.length, ∃ s, a.preorder[i] = .term s ∧ a.subtermAt i = .ok s) ∧
        (a.size ≤ i → a.subtermAt i = .error (.indexOutOfRange i a.size)) ∧
        a.search i ≠ .underflow ∧ ∀ s, a.search i = .found s ↔ a.subtermAt i = .ok s) ∧
    ∀ p : Proposition, p.preorder.length = p.size ∧ ∀ i : Nat,
      p.subtermAt i = match p.preorder[i]? with
        | some (.term s) => .ok s
        | some (.atom _) => .error (.invalidPosition i)
        | none => .error (.indexOutOfRange i p.size) := by
  refine ⟨fun t => ⟨t.length_preorder, fun i => ⟨Term.subtermAt_of_lt, Term.subtermAt_of_le, ?_⟩⟩,
    fun a => ⟨a.length_preorder, rfl, fun i hi => ?_⟩, fun p => ⟨p.length_preorder, p.subtermAt_eq⟩⟩
  · rw [t.search_eq]
    refine ⟨Term.Search.ofNode?_ne_underflow _, fun s => ?_⟩
    rw [Term.Search.ofNode?_eq_found_iff, Term.subtermAt_eq_ok_iff]
  · exact ⟨Atom.subtermAt_of_lt hi, Atom.subtermAt_of_le, Atom.search_ne_underflow hi,
      fun s => Atom.search_eq_found_iff hi⟩

/-- The nodes 1 to 4 of `p1(f0(X0,f1),X2)` are `f0(X0,f1)`, `X0`, `f1` and `X2`. Number 3
is that of `f1`, found inside the first argument under the number 2, and there is no node
with the number 5. -/
theorem subtermAt_exact_nested :
    (1 ≤ 3 ∧ 3 < (Atom.mk 1 [.app 0 [.var 0, .app 1 []], .var 2]).preorder.length ∧
      (Atom.mk 1 [.app 0 [.var 0, .app 1 []], .var 2]).subtermAt 3 = .ok (.app 1 []) ∧
      (Atom.mk 1 [.app 0 [.var 0, .app 1 []], .var 2]).search 3 = .found (.app 1 [])) ∧
    (Atom.mk 1 [.app 0 [.var 0, .app 1 []], .var 2]).size ≤ 5 ∧
    (Atom.mk 1 [.app 0 [.var 0, .app 1 []], .var 2]).subtermAt 5 =
      .error (.indexOutOfRange 5 5) := by
  obtain ⟨-, hatom, -⟩ := subtermAt_exact
  obtain ⟨-, -, hindex⟩ := hatom ⟨1, [.app 0 [.var 0, .app 1 []], .var 2]⟩
  obtain ⟨hfound, -, -, hsearch⟩ := hindex 3 (by decide)
  obtain ⟨s, hs, hok⟩ := hfound (by decide)
  obtain rfl : .app 1 [] = s := Proposition.term.inj hs
  exact ⟨⟨by decide, by decide, hok, (hsearch _).2 hok⟩, by decide,
    (hindex 5 (by decide)).2.1 (by decide)⟩

end Clausal
