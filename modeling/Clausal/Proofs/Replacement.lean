/-
Replacing one occurrence of a subterm.

A subterm with its number is the same thing as a term with a hole: `Term.Context.fill` puts
a subterm into the hole, and the number of the subterm is the number of the hole
(`Term.node?_eq_some_iff`). Replacing the subterm is filling the hole with something else
(`Term.Context.replaceNode_fill`). So what a replacement does to the other nodes is seen
from the context alone. What lies before the hole keeps its number, what lies behind it is
shifted by the difference of the sizes, and a node around the hole is itself a smaller
context (`Term.Context.node?_fill_before`, `node?_fill_behind`, `node?_fill_around`).

`Term.put` is the replacement in one pass, with numbers that count from the parent. It
meets its failures inside some argument, where the number is a different one, so that the
number asked for has to be restored at the end. It comes to the same as looking the
subterm up first and replacing it afterwards (`Term.replaceAt_eq_exchange`).

An atom is addressed like the application of a symbol to its arguments, apart from the
number 0, so all that is known of terms is known of atoms (`Atom.toTerm`).
-/
import Clausal.Proofs.Enumeration
import Clausal.Proofs.Preorder

set_option autoImplicit false

namespace Clausal

namespace Term

/-! ## Lists of arguments -/

/-- Sizes of lists add up. -/
theorem sizeList_append (ts us : List Term) :
    sizeList (ts ++ us) = sizeList ts + sizeList us := by
  rw [← length_flatMap_preorder, ← length_flatMap_preorder, ← length_flatMap_preorder,
    List.flatMap_append, List.length_append]

/-- The nodes of the second list are numbered behind those of the first. -/
theorem nodeList?_append (ts us : List Term) (i : Nat) :
    nodeList? (ts ++ us) i =
      if i < sizeList ts then nodeList? ts i else nodeList? us (i - sizeList ts) := by
  rw [nodeList?_eq, nodeList?_eq, nodeList?_eq, List.flatMap_append, List.getElem?_append,
    length_flatMap_preorder]

section

variable (before after : List Term) (t : Term)

/-- A node of an argument before the middle one. -/
theorem nodeList?_before {i : Nat} (hi : i < sizeList before) :
    nodeList? (before ++ t :: after) i = nodeList? before i := by
  rw [nodeList?_append, if_pos hi]

/-- The numbers of an argument begin where those of the arguments before it end. -/
theorem nodeList?_middle {i : Nat} (hi : i < t.size) :
    nodeList? (before ++ t :: after) (sizeList before + i) = t.node? i := by
  rw [nodeList?_append, if_neg (by omega), Nat.add_sub_cancel_left, nodeList?, if_pos hi]

/-- A node of an argument behind the middle one, which is passed over by its size. -/
theorem nodeList?_after (i : Nat) :
    nodeList? (before ++ t :: after) (sizeList before + (t.size + i)) = nodeList? after i := by
  rw [nodeList?_append, if_neg (by omega), Nat.add_sub_cancel_left, nodeList?,
    if_neg (by omega), Nat.add_sub_cancel_left]

/-- A replacement inside the middle argument leaves the others as they are. -/
theorem replaceNodeList_middle (r : Term) {i : Nat} (hi : i < t.size) :
    replaceNodeList r (before ++ t :: after) (sizeList before + i) =
      before ++ replaceNode r t i :: after := by
  induction before with
  | nil => rw [sizeList_nil, Nat.zero_add, List.nil_append, replaceNodeList, if_pos hi]; rfl
  | cons u before ih =>
    have hskip : u.size + sizeList before + i - u.size = sizeList before + i := by omega
    rw [List.cons_append, replaceNodeList, sizeList_cons, if_neg (by omega), hskip, ih]
    rfl

end

/-- A node of an argument list is a node of one of the arguments. -/
theorem exists_argument_of_nodeList? {ts : List Term} {i : Nat} {s : Term}
    (h : nodeList? ts i = some s) :
    ∃ before t after k, ts = before ++ t :: after ∧ i = sizeList before + k ∧
      t.node? k = some s := by
  induction ts generalizing i with
  | nil => cases h
  | cons t ts ih =>
    rw [nodeList?] at h
    by_cases hi : i < t.size
    · rw [if_pos hi] at h
      exact ⟨[], t, ts, i, rfl, by rw [sizeList_nil, Nat.zero_add], h⟩
    · rw [if_neg hi] at h
      obtain ⟨before, u, after, k, rfl, hk, hu⟩ := ih h
      refine ⟨t :: before, u, after, k, rfl, ?_, hu⟩
      rw [sizeList_cons]
      omega

/-! ## Contexts -/

/-- A term with one hole in it. -/
inductive Context where
  | hole
  | argument (f : Nat) (before : List Term) (inner : Context) (after : List Term)

namespace Context

/-- Puts a term into the hole. -/
def fill : Context → Term → Term
  | hole, s => s
  | argument f before inner after, s => .app f (before ++ inner.fill s :: after)

/-- The number of the hole. -/
def place : Context → Nat
  | hole => 0
  | argument _ before inner _ => sizeList before + inner.place + 1

/-- The number of nodes around the hole. -/
def size : Context → Nat
  | hole => 0
  | argument _ before inner after => 1 + sizeList before + inner.size + sizeList after

/-- A filled context has the nodes of the context and those of the term. -/
theorem size_fill (c : Context) (s : Term) : (c.fill s).size = c.size + s.size := by
  induction c with
  | hole => exact (Nat.zero_add _).symm
  | argument f before inner after ih =>
    rw [fill, size_app, sizeList_append, sizeList_cons, ih, size]
    omega

theorem place_le_size (c : Context) : c.place ≤ c.size := by
  induction c with
  | hole => exact Nat.le_refl _
  | argument f before inner after ih =>
    rw [place, size]
    omega

/-- The place is a number of the filled context. -/
theorem place_lt_size_fill (c : Context) (s : Term) : c.place < (c.fill s).size := by
  have hle := c.place_le_size
  have hpos := s.size_pos
  rw [c.size_fill]
  omega

/-- What fills the hole is the node with the number of the hole. -/
theorem node?_fill (c : Context) (s : Term) : (c.fill s).node? c.place = some s := by
  induction c with
  | hole => rw [place, node?]; rfl
  | argument f before inner after ih =>
    rw [fill, place, node?, nodeList?_middle before after _ (inner.place_lt_size_fill s), ih]

/-- Replacing what fills the hole is filling the hole with something else. -/
theorem replaceNode_fill (c : Context) (r s : Term) :
    replaceNode r (c.fill s) c.place = c.fill r := by
  induction c with
  | hole => rw [place, replaceNode]; rfl
  | argument f before inner after ih =>
    rw [fill, place, replaceNode, replaceNodeList_middle before after _ r
      (inner.place_lt_size_fill s), ih, fill]

end Context

/-! ## Nodes and contexts -/

/-- **A node is what fills the hole of a context**, and its number is that of the hole. -/
theorem node?_eq_some_iff {t s : Term} {i : Nat} :
    t.node? i = some s ↔ ∃ c : Context, c.place = i ∧ c.fill s = t := by
  constructor
  · intro h
    -- along the term; the node is the whole, or it is inside one argument
    induction t generalizing i with
    | var x =>
      cases i with
      | zero => exact ⟨.hole, rfl, (Option.some.inj h).symm⟩
      | succ i => cases h
    | app f args ih =>
      cases i with
      | zero => exact ⟨.hole, rfl, by rw [node?] at h; exact (Option.some.inj h).symm⟩
      | succ i =>
        obtain ⟨before, t, after, k, rfl, rfl, hk⟩ := exists_argument_of_nodeList? h
        obtain ⟨c, rfl, rfl⟩ := ih t (by simp) hk
        exact ⟨.argument f before c after, rfl, rfl⟩
  · rintro ⟨c, rfl, rfl⟩
    exact c.node?_fill s

/-- The nodes of a subterm are among those of the term. -/
theorem add_size_le_of_node? {t s : Term} {i : Nat} (h : t.node? i = some s) :
    i + s.size ≤ t.size := by
  obtain ⟨c, rfl, rfl⟩ := node?_eq_some_iff.1 h
  have hle := c.place_le_size
  rw [c.size_fill]
  omega

/-- The nodes of a subterm are numbered in one run, which ends inside the list. -/
theorem add_size_le_of_nodeList? {ts : List Term} {s : Term} {i : Nat}
    (h : nodeList? ts i = some s) : i + s.size ≤ sizeList ts := by
  obtain ⟨before, t, after, k, rfl, rfl, hk⟩ := exists_argument_of_nodeList? h
  have hle := add_size_le_of_node? hk
  rw [sizeList_append, sizeList_cons]
  omega

/-! ## The other nodes -/

namespace Context

/-- A node that ends before the hole does not depend on what fills the hole. -/
theorem node?_fill_before (c : Context) {s u : Term} {j : Nat}
    (hu : (c.fill s).node? j = some u) (hend : j + u.size ≤ c.place) (r : Term) :
    (c.fill r).node? j = some u := by
  induction c generalizing j with
  | hole =>
    have hpos := u.size_pos
    rw [place] at hend
    omega
  | argument f before inner after ih =>
    rw [place] at hend
    cases j with
    | zero =>
      -- the whole term does not end before the hole
      obtain rfl := Option.some.inj hu
      have hlt := (argument f before inner after).place_lt_size_fill s
      rw [place] at hlt
      omega
    | succ j =>
      rw [fill, node?] at hu ⊢
      by_cases hj : j < sizeList before
      · rw [nodeList?_before before after _ hj] at hu ⊢
        exact hu
      · obtain ⟨k, rfl⟩ := Nat.exists_eq_add_of_le (Nat.le_of_not_lt hj)
        have hle := inner.place_le_size
        have hpos := u.size_pos
        rw [nodeList?_middle before after _ (by rw [inner.size_fill]; omega)] at hu ⊢
        exact ih hu (by omega)

/-- A node that begins behind the hole is shifted. -/
theorem node?_fill_behind (c : Context) (r s : Term) {j : Nat} (hj : c.place + s.size ≤ j) :
    (c.fill r).node? (j - s.size + r.size) = (c.fill s).node? j := by
  induction c generalizing j with
  | hole =>
    -- nothing is behind the hole here
    rw [place, Nat.zero_add] at hj
    rw [fill, fill, node?_eq, node?_eq, List.getElem?_eq_none, List.getElem?_eq_none] <;>
      rw [length_preorder] <;> omega
  | argument f before inner after ih =>
    rw [place] at hj
    obtain ⟨k, rfl⟩ := Nat.exists_eq_add_of_le hj
    have hfrom : sizeList before + inner.place + 1 + s.size + k =
        sizeList before + (inner.place + s.size + k) + 1 := by
      omega
    have hto : sizeList before + inner.place + 1 + s.size + k - s.size + r.size =
        sizeList before + (inner.place + r.size + k) + 1 := by
      omega
    rw [hto, hfrom, fill, fill, node?, node?]
    by_cases hk : inner.place + k < inner.size
    · rw [nodeList?_middle before after _ (by rw [inner.size_fill]; omega),
        nodeList?_middle before after _ (by rw [inner.size_fill]; omega)]
      have hinner := ih (j := inner.place + s.size + k) (by omega)
      rwa [show inner.place + s.size + k - s.size + r.size = inner.place + r.size + k by omega]
        at hinner
    · -- behind the argument that has the hole
      obtain ⟨m, hm⟩ := Nat.exists_eq_add_of_le (Nat.le_of_not_lt hk)
      have hr : inner.place + r.size + k = (inner.fill r).size + m := by
        rw [inner.size_fill]
        omega
      have hs : inner.place + s.size + k = (inner.fill s).size + m := by
        rw [inner.size_fill]
        omega
      rw [hr, hs, nodeList?_after, nodeList?_after]

/-- A node around the hole is a context for it. -/
theorem node?_fill_around (c : Context) {s u : Term} {j : Nat}
    (hu : (c.fill s).node? j = some u) (hj : j ≤ c.place) (hend : c.place < j + u.size) :
    ∃ d : Context, d.place = c.place - j ∧ d.fill s = u ∧
      ∀ r, (c.fill r).node? j = some (d.fill r) := by
  induction c generalizing j with
  | hole =>
    rw [place] at hj
    obtain rfl := Nat.le_zero.1 hj
    rw [node?] at hu
    refine ⟨hole, rfl, Option.some.inj hu, fun r => ?_⟩
    rw [node?]
  | argument f before inner after ih =>
    cases j with
    | zero =>
      rw [node?] at hu
      exact ⟨_, rfl, Option.some.inj hu, fun r => by rw [node?]⟩
    | succ j =>
      rw [place] at hj hend
      rw [fill, node?] at hu
      by_cases hbefore : j < sizeList before
      · -- the node would lie in the arguments before the hole, and end there
        rw [nodeList?_before before after _ hbefore] at hu
        have hle := add_size_le_of_nodeList? hu
        omega
      · obtain ⟨k, rfl⟩ := Nat.exists_eq_add_of_le (Nat.le_of_not_lt hbefore)
        have hlt : k < (inner.fill s).size := by
          have hle := inner.place_lt_size_fill s
          omega
        rw [nodeList?_middle before after _ hlt] at hu
        obtain ⟨d, hplace, hfill, hnode⟩ := ih hu (by omega) (by omega)
        refine ⟨d, ?_, hfill, fun r => ?_⟩
        · rw [hplace, place]
          omega
        · have hlt := inner.place_lt_size_fill r
          rw [fill, node?, nodeList?_middle before after _ (by omega), hnode]

end Context

/-! ## Replacing in one pass -/

mutual

/-- The replacement by numbers that count from the parent. What fails is reported by the
number that it has in the subterm where it fails. -/
def put (r : Term) : Term → Nat → Except InferenceError Term
  | t, 0 => if t = r then .error (.degenerateReplacement 0) else .ok r
  | .var _, i + 1 => .error (.indexOutOfRange (i + 1) 1)
  | .app f args, i + 1 => .app f <$> putList r args 1 (i + 1)

/-- Passes over the arguments whose numbers all lie below the one sought. The numbers of
the arguments left begin with the offset. -/
def putList (r : Term) : List Term → (offset i : Nat) → Except InferenceError (List Term)
  | [], offset, i => .error (.indexOutOfRange i offset)
  | t :: ts, offset, i =>
    if i < offset + t.size then (· :: ts) <$> put r t (i - offset)
    else (t :: ·) <$> putList r ts (offset + t.size) i

end

/-- The pass with offsets enters the middle argument with the offset that its nodes begin
with. -/
theorem putList_middle (r : Term) (before after : List Term) (t : Term) (offset : Nat) {i : Nat}
    (hi : i < t.size) :
    putList r (before ++ t :: after) offset (offset + (sizeList before + i)) =
      (before ++ · :: after) <$> put r t i := by
  induction before generalizing offset with
  | nil =>
    rw [sizeList_nil, Nat.zero_add, List.nil_append, putList, if_pos (by omega),
      Nat.add_sub_cancel_left]
    rfl
  | cons u before ih =>
    have hnext : offset + (sizeList (u :: before) + i) =
        offset + u.size + (sizeList before + i) := by
      rw [sizeList_cons]
      omega
    rw [List.cons_append, putList, hnext, if_neg (by omega), ih, ← comp_map]
    rfl

/-- In one pass, a subterm is compared with the replacement, and replaced if it differs. -/
theorem Context.put_fill (c : Context) (r s : Term) :
    put r (c.fill s) c.place =
      if s = r then .error (.degenerateReplacement 0) else .ok (c.fill r) := by
  induction c with
  | hole => rw [place, put]; rfl
  | argument f before inner after ih =>
    have hplace : sizeList before + inner.place + 1 = 1 + (sizeList before + inner.place) := by
      omega
    rw [fill, place, put, hplace, putList_middle r before after _ 1 (inner.place_lt_size_fill s),
      ih]
    by_cases hsr : s = r
    · rw [if_pos hsr, if_pos hsr]
      rfl
    · rw [if_neg hsr, if_neg hsr]
      rfl

end Term

/-- The failure of a replacement, by the number that was asked for. -/
def InferenceError.relocate (i : Nat) : InferenceError → InferenceError
  | .degenerateReplacement _ => .degenerateReplacement i
  | e => e

namespace Term

/-- The replacement in one pass, with the number asked for in every failure. -/
def exchange (t : Term) (i : Nat) (r : Term) : Except InferenceError Term :=
  if t.size ≤ i then .error (.indexOutOfRange i t.size)
  else (put r t i).mapError (.relocate i)

/-- Where there is a node, it is replaced, unless this would change nothing. -/
theorem replaceAt_of_node? {t s : Term} {i : Nat} (h : t.node? i = some s) (r : Term) :
    t.replaceAt i r =
      if s = r then .error (.degenerateReplacement i) else .ok (replaceNode r t i) := by
  rw [replaceAt, subtermAt_eq_ok_iff.2 h]
  rfl

/-- **Replacing in one pass** is looking the subterm up first and replacing it
afterwards. -/
theorem replaceAt_eq_exchange (t : Term) (i : Nat) (r : Term) :
    t.replaceAt i r = t.exchange i r := by
  rw [exchange]
  by_cases hi : t.size ≤ i
  · rw [if_pos hi, replaceAt, subtermAt_of_le hi]
    rfl
  · obtain ⟨s, hs⟩ : ∃ s, t.node? i = some s := by
      rw [node?_eq, ← Option.isSome_iff_exists, isSome_getElem?, length_preorder]
      omega
    rw [if_neg hi, replaceAt_of_node? hs]
    -- the pass comes to the hole of a context, and both ways fill it
    obtain ⟨c, rfl, rfl⟩ := node?_eq_some_iff.1 hs
    rw [c.put_fill, c.replaceNode_fill]
    by_cases hsr : s = r
    · rw [if_pos hsr, if_pos hsr]
      rfl
    · rw [if_neg hsr, if_neg hsr]
      rfl

end Term

/-! ## What a replacement does -/

/-- Things whose nodes are numbered, so that subterms are looked up and replaced by
number. -/
class Addressed (α : Type) where
  size : α → Nat
  subtermAt : α → Nat → Except InferenceError Term
  replaceAt : α → Nat → Term → Except InferenceError α

instance : Addressed Term := ⟨Term.size, Term.subtermAt, Term.replaceAt⟩

instance : Addressed Atom := ⟨Atom.size, Atom.subtermAt, Atom.replaceAt⟩

instance : Addressed Proposition := ⟨Proposition.size, Proposition.subtermAt, Proposition.replaceAt⟩

section

open Addressed

variable {α : Type} [Addressed α]

/-- `q` is `p` with the subterm `s`, which has the number `i`, replaced by `r`, and with no
other change. -/
structure Replaced (p : α) (i : Nat) (s r : Term) (q : α) : Prop where
  /-- The replacement is found where the subterm was. -/
  found : subtermAt q i = .ok r
  size_le : s.size ≤ size p
  size_eq : size q = size p - s.size + r.size
  /-- A node whose subtree ends before the subterm stays where it is. -/
  before : ∀ {j u}, subtermAt p j = .ok u → j + u.size ≤ i → subtermAt q j = .ok u
  /-- A node behind the subterm is shifted by the difference of the sizes. -/
  behind : ∀ {j u}, subtermAt p j = .ok u → i + s.size ≤ j →
    subtermAt q (j - s.size + r.size) = .ok u
  /-- In a node whose subtree contains the subterm, the subterm is replaced. -/
  around : ∀ {j u}, subtermAt p j = .ok u → j ≤ i → i < j + u.size →
    ∃ v, u.replaceAt (i - j) r = .ok v ∧ subtermAt q j = .ok v
  /-- Putting the subterm back undoes the replacement. -/
  restored : replaceAt q i s = .ok p

/-- Replacing in `p` fails where looking up fails and in the same way, it refuses to replace
a subterm by itself, and in all other cases it replaces this subterm and nothing else. -/
structure ReplacesExactly (p : α) : Prop where
  fails : ∀ (i : Nat) (r : Term) (e : InferenceError),
    subtermAt p i = .error e → replaceAt p i r = .error e
  refuses : ∀ (i : Nat) (r : Term),
    replaceAt p i r = .error (.degenerateReplacement i) ↔ subtermAt p i = .ok r
  replaces : ∀ (i : Nat) (r s : Term), subtermAt p i = .ok s → s ≠ r →
    ∃ q, replaceAt p i r = .ok q ∧ Replaced p i s r q

end

/-- A subterm that has been found is refused if it is the replacement, and only then. -/
theorem refuses_iff {α : Type} {x : Except InferenceError Term} {i : Nat}
    (hx : x ≠ .error (.degenerateReplacement i)) (r : Term) (q : α) :
    (x >>= fun s => if s = r then throw (.degenerateReplacement i) else pure q) =
      .error (.degenerateReplacement i) ↔ x = .ok r := by
  rcases x with e | s
  · refine iff_of_false (fun h => hx ?_) fun h => nomatch h
    exact congrArg Except.error (Except.error.inj h)
  · rw [Except.ok.injEq]
    by_cases hsr : s = r
    · refine iff_of_true ?_ hsr
      exact if_pos hsr
    · refine iff_of_false (fun h => ?_) hsr
      have hok : (Except.ok q : Except InferenceError α) = .error (.degenerateReplacement i) :=
        (if_neg hsr).symm.trans h
      exact nomatch hok

namespace Term

/-- A subterm is not found only where it has no number. -/
theorem subtermAt_ne_degenerateReplacement (t : Term) (i j : Nat) :
    t.subtermAt i ≠ .error (.degenerateReplacement j) := by
  rw [subtermAt]
  intro h
  cases hnode : t.node? i <;> rw [hnode] at h <;> cases h

/-- What fills a context is replaced at its place, and only this. -/
theorem Context.replaceAt_fill (c : Context) {r s : Term} (hsr : s ≠ r) :
    (c.fill s).replaceAt c.place r = .ok (c.fill r) := by
  rw [replaceAt_of_node? (c.node?_fill s), if_neg hsr, c.replaceNode_fill]

/-- Filling a hole differently is a replacement. -/
theorem Context.replaced_fill (c : Context) {r s : Term} (hsr : s ≠ r) :
    Replaced (c.fill s) c.place s r (c.fill r) where
  found := subtermAt_eq_ok_iff.2 (c.node?_fill r)
  size_le := by
    show s.size ≤ (c.fill s).size
    rw [c.size_fill]
    exact Nat.le_add_left _ _
  size_eq := by
    show (c.fill r).size = (c.fill s).size - s.size + r.size
    rw [c.size_fill, c.size_fill, Nat.add_sub_cancel]
  before hu hend := subtermAt_eq_ok_iff.2 (c.node?_fill_before (subtermAt_eq_ok_iff.1 hu) hend r)
  behind hu hj :=
    subtermAt_eq_ok_iff.2 ((c.node?_fill_behind r s hj).trans (subtermAt_eq_ok_iff.1 hu))
  around {j u} hu hj hend := by
    obtain ⟨d, hplace, rfl, hnode⟩ := c.node?_fill_around (subtermAt_eq_ok_iff.1 hu) hj hend
    exact ⟨d.fill r, hplace ▸ d.replaceAt_fill hsr, subtermAt_eq_ok_iff.2 (hnode r)⟩
  restored := c.replaceAt_fill (Ne.symm hsr)

/-- **Replacement in terms is exact.** -/
theorem replacesExactly (t : Term) : ReplacesExactly t where
  fails i r e he := by
    have herror : t.subtermAt i = .error e := he
    show t.replaceAt i r = .error e
    rw [replaceAt, herror]
    rfl
  refuses i r := refuses_iff (t.subtermAt_ne_degenerateReplacement i i) r _
  replaces i r s hs hsr := by
    obtain ⟨c, rfl, rfl⟩ := node?_eq_some_iff.1 (subtermAt_eq_ok_iff.1 hs)
    exact ⟨c.fill r, c.replaceAt_fill hsr, c.replaced_fill hsr⟩

end Term

/-! ### Atoms -/

namespace Atom

/-- The term that has the predicate symbol for its function symbol. Its nodes have the
numbers of those of the atom. -/
def toTerm (a : Atom) : Term := .app a.pred a.args

/-- An atom is told by its term. -/
theorem toTerm_injective {a b : Atom} (h : a.toTerm = b.toTerm) : a = b := by
  obtain ⟨hpred, hargs⟩ := Term.app.inj h
  cases a
  cases b
  rw [mk.injEq]
  exact ⟨hpred, hargs⟩

/-- An atom and its term have as many nodes. -/
theorem size_toTerm (a : Atom) : a.toTerm.size = a.size := rfl

/-- At a number other than 0, the term of an atom has the same subterm, or reports the same
error. -/
theorem subtermAt_toTerm (a : Atom) {i : Nat} (hi : 1 ≤ i) :
    a.toTerm.subtermAt i = a.subtermAt i := by
  obtain ⟨i, rfl⟩ := Nat.exists_eq_add_of_le' hi
  rfl

/-- The atom itself is not a subterm. -/
theorem one_le_of_subtermAt {a : Atom} {i : Nat} {s : Term} (h : a.subtermAt i = .ok s) :
    1 ≤ i := by
  cases i with
  | zero => cases h
  | succ i => exact Nat.succ_le_succ (Nat.zero_le i)

theorem subtermAt_toTerm_of_eq_ok {a : Atom} {i : Nat} {s : Term} (h : a.subtermAt i = .ok s) :
    a.toTerm.subtermAt i = .ok s := by
  rw [a.subtermAt_toTerm (one_le_of_subtermAt h), h]

/-- At a number other than 0, replacing in the term of an atom is replacing in the atom. -/
theorem replaceAt_toTerm (a : Atom) {i : Nat} (hi : 1 ≤ i) (r : Term) :
    a.toTerm.replaceAt i r = toTerm <$> a.replaceAt i r := by
  rw [Term.replaceAt, replaceAt, a.subtermAt_toTerm hi]
  obtain ⟨i, rfl⟩ := Nat.exists_eq_add_of_le' hi
  rcases a.subtermAt (i + 1) with e | s
  · rfl
  · by_cases hsr : s = r
    · simp only [bind, Except.bind, if_pos hsr]
      rfl
    · simp only [bind, Except.bind, if_neg hsr]
      rfl

/-- The replacement in one pass, with the number asked for in every failure. -/
def exchange (a : Atom) (i : Nat) (r : Term) : Except InferenceError Atom :=
  if i = 0 then .error (.invalidPosition 0)
  else if a.size ≤ i then .error (.indexOutOfRange i a.size)
  else ((⟨a.pred, ·⟩) <$> Term.putList r a.args 1 i).mapError (.relocate i)

/-- Outcomes are told by those with terms in the place of atoms. -/
theorem map_toTerm_injective {x y : Except InferenceError Atom} (h : toTerm <$> x = toTerm <$> y) :
    x = y := by
  rcases x with e | a <;> rcases y with e' | b
  · exact congrArg Except.error (Except.error.inj h)
  · exact nomatch h
  · exact nomatch h
  · exact congrArg Except.ok (toTerm_injective (Except.ok.inj h))

/-- At a number other than 0, the one pass through the term of an atom is the pass through the
atom. -/
theorem exchange_toTerm (a : Atom) {i : Nat} (hi : 1 ≤ i) (r : Term) :
    a.toTerm.exchange i r = toTerm <$> a.exchange i r := by
  obtain ⟨i, rfl⟩ := Nat.exists_eq_add_of_le' hi
  rw [Term.exchange, exchange, if_neg (Nat.succ_ne_zero i), size_toTerm, toTerm, Term.put]
  by_cases hle : a.size ≤ i + 1
  · rw [if_pos hle, if_pos hle]
    rfl
  · rw [if_neg hle, if_neg hle]
    rcases Term.putList r a.args 1 (i + 1) with e | args <;> rfl

theorem replaceAt_eq_exchange (a : Atom) (i : Nat) (r : Term) :
    a.replaceAt i r = a.exchange i r := by
  cases i with
  | zero => rfl
  | succ i =>
    have hi : 1 ≤ i + 1 := Nat.le_add_left 1 i
    apply map_toTerm_injective
    rw [← a.replaceAt_toTerm hi, a.toTerm.replaceAt_eq_exchange, a.exchange_toTerm hi]

/-- Looking up never complains about a replacement. -/
theorem subtermAt_ne_degenerateReplacement (a : Atom) (i j : Nat) :
    a.subtermAt i ≠ .error (.degenerateReplacement j) := by
  cases i with
  | zero => exact fun h => nomatch h
  | succ i =>
    rw [← a.subtermAt_toTerm (Nat.le_add_left 1 i)]
    exact a.toTerm.subtermAt_ne_degenerateReplacement (i + 1) j

/-- A replacement in the term is one in the atom. -/
theorem replaced_of_toTerm {a b : Atom} {i : Nat} {s r : Term} (hi : 1 ≤ i)
    (h : Replaced a.toTerm i s r b.toTerm) : Replaced a i s r b where
  found := by
    show b.subtermAt i = .ok r
    rw [← b.subtermAt_toTerm hi]
    exact h.found
  size_le := h.size_le
  size_eq := h.size_eq
  before {j u} hu hend := by
    show b.subtermAt j = .ok u
    rw [← b.subtermAt_toTerm (one_le_of_subtermAt hu)]
    exact h.before (subtermAt_toTerm_of_eq_ok hu) hend
  behind {j u} hu hj := by
    show b.subtermAt (j - s.size + r.size) = .ok u
    rw [← b.subtermAt_toTerm (by omega)]
    exact h.behind (subtermAt_toTerm_of_eq_ok hu) hj
  around {j u} hu hj hend := by
    obtain ⟨v, hv, hfound⟩ := h.around (subtermAt_toTerm_of_eq_ok hu) hj hend
    exact ⟨v, hv, (b.subtermAt_toTerm (one_le_of_subtermAt hu)).symm.trans hfound⟩
  restored := by
    have hterm : b.toTerm.replaceAt i s = .ok a.toTerm := h.restored
    rw [b.replaceAt_toTerm hi] at hterm
    obtain ⟨a', ha', heq⟩ := map_eq_ok_iff.1 hterm
    rwa [toTerm_injective heq] at ha'

/-- **Replacement in atoms is exact.** What holds of terms is carried over, since an atom is
traversed like a term. -/
theorem replacesExactly (a : Atom) : ReplacesExactly a where
  fails i r e he := by
    have herror : a.subtermAt i = .error e := he
    show a.replaceAt i r = .error e
    rw [replaceAt, herror]
    rfl
  refuses i r := refuses_iff (a.subtermAt_ne_degenerateReplacement i i) r _
  replaces i r s hs hsr := by
    have hi := one_le_of_subtermAt hs
    obtain ⟨t, ht, hreplaced⟩ :=
      a.toTerm.replacesExactly.replaces i r s (subtermAt_toTerm_of_eq_ok hs) hsr
    have hterm : a.toTerm.replaceAt i r = .ok t := ht
    rw [a.replaceAt_toTerm hi] at hterm
    obtain ⟨b, hb, rfl⟩ := map_eq_ok_iff.1 hterm
    exact ⟨b, hb, replaced_of_toTerm hi hreplaced⟩

end Atom

/-! ### Propositions -/

section

open Addressed

variable {α β : Type} [Addressed α] [Addressed β] {f : α → β} (hsize : ∀ a, size (f a) = size a)
  (hsubterm : ∀ a i, subtermAt (f a) i = subtermAt a i)
  (hreplace : ∀ a i r, replaceAt (f a) i r = f <$> replaceAt a i r)
include hsize hsubterm hreplace

/-- What has the numbers of something else has its replacements as well. -/
theorem Replaced.map {p q : α} {i : Nat} {s r : Term} (h : Replaced p i s r q) :
    Replaced (f p) i s r (f q) where
  found := by rw [hsubterm, h.found]
  size_le := by
    rw [hsize]
    exact h.size_le
  size_eq := by rw [hsize, hsize, h.size_eq]
  before {j u} hu hend := by
    rw [hsubterm] at hu ⊢
    exact h.before hu hend
  behind {j u} hu hj := by
    rw [hsubterm] at hu ⊢
    exact h.behind hu hj
  around {j u} hu hj hend := by
    rw [hsubterm] at hu
    simpa only [hsubterm] using h.around hu hj hend
  restored := by
    rw [hreplace, h.restored]
    rfl

/-- Exactness is kept by an embedding that respects all that it speaks of. -/
theorem ReplacesExactly.map {p : α} (h : ReplacesExactly p) : ReplacesExactly (f p) where
  fails i r e he := by
    rw [hsubterm] at he
    rw [hreplace, h.fails i r e he]
    rfl
  refuses i r := by
    rw [hsubterm, ← h.refuses, hreplace]
    rcases replaceAt p i r with e | q
    · exact ⟨fun h => congrArg Except.error (Except.error.inj h),
        fun h => congrArg Except.error (Except.error.inj h)⟩
    · exact iff_of_false (fun h => nomatch h) fun h => nomatch h
  replaces i r s hs hsr := by
    rw [hsubterm] at hs
    obtain ⟨q, hq, hreplaced⟩ := h.replaces i r s hs hsr
    refine ⟨f q, ?_, hreplaced.map hsize hsubterm hreplace⟩
    rw [hreplace, hq]
    rfl

end

/-- **Replacement in propositions is exact.** -/
theorem Proposition.replacesExactly (p : Proposition) : ReplacesExactly p := by
  cases p with
  | term t =>
    exact t.replacesExactly.map (f := Proposition.term) (fun _ => rfl) (fun _ _ => rfl)
      fun _ _ _ => rfl
  | atom a =>
    exact a.replacesExactly.map (f := Proposition.atom) (fun _ => rfl) (fun _ _ => rfl)
      fun _ _ _ => rfl

/-- **Replacement is exact.** In terms, atoms and propositions alike, replacing fails just
where looking up fails or where nothing would change, and otherwise changes this one
occurrence of the subterm and nothing else, so that putting the subterm back restores what
was there. Replacing in one pass comes to the same, failures included. -/
theorem replaceAt_exact :
    (∀ t : Term, ReplacesExactly t ∧ ∀ i r, t.replaceAt i r = t.exchange i r) ∧
    (∀ a : Atom, ReplacesExactly a ∧ ∀ i r, a.replaceAt i r = a.exchange i r) ∧
    ∀ p : Proposition, ReplacesExactly p :=
  ⟨fun t => ⟨t.replacesExactly, t.replaceAt_eq_exchange⟩,
    fun a => ⟨a.replacesExactly, a.replaceAt_eq_exchange⟩, Proposition.replacesExactly⟩

/-- In `p1(f0(X0,f1),X2)` the subterm `f1` with the number 3 is replaced by the larger
`f2(X0,X3)`. The node 2 before it stays, the node 4 behind it becomes node 6, and the node
1 around it is `f0(X0,f2(X0,X3))` now. -/
theorem replaceAt_exact_nested :
    ∃ a b : Atom, a = ⟨1, [.app 0 [.var 0, .app 1 []], .var 2]⟩ ∧
      b = ⟨1, [.app 0 [.var 0, .app 2 [.var 0, .var 3]], .var 2]⟩ ∧
      a.replaceAt 3 (.app 2 [.var 0, .var 3]) = .ok b ∧
      b.subtermAt 3 = .ok (.app 2 [.var 0, .var 3]) ∧ b.size = a.size - 1 + 3 ∧
      b.subtermAt 2 = .ok (.var 0) ∧ b.subtermAt 6 = .ok (.var 2) ∧
      b.subtermAt 1 = .ok (.app 0 [.var 0, .app 2 [.var 0, .var 3]]) ∧
      b.replaceAt 3 (.app 1 []) = .ok a := by
  let a : Atom := ⟨1, [.app 0 [.var 0, .app 1 []], .var 2]⟩
  let b : Atom := ⟨1, [.app 0 [.var 0, .app 2 [.var 0, .var 3]], .var 2]⟩
  obtain ⟨-, hatom, -⟩ := replaceAt_exact
  obtain ⟨hexact, -⟩ := hatom a
  obtain ⟨b', hb', h⟩ := hexact.replaces 3 (.app 2 [.var 0, .var 3]) (.app 1 []) rfl (by decide)
  obtain rfl : b = b' := Except.ok.inj hb'
  obtain ⟨v, hv, haround⟩ := h.around (j := 1) (u := .app 0 [.var 0, .app 1 []]) rfl (by decide)
    (by decide)
  obtain rfl : .app 0 [.var 0, .app 2 [.var 0, .var 3]] = v := Except.ok.inj hv
  exact ⟨a, b, rfl, rfl, hb', h.found, h.size_eq, h.before (j := 2) rfl (by decide),
    h.behind (j := 4) rfl (by decide), haround, h.restored⟩

end Clausal
