/-
Keeping first occurrences. Unification removes repeated propositions after every
binding, and a clause removes repeated literals after every substitution, so both
apply a map and `List.eraseDups` in turn many times over. The facts here say what
is left of such a list in the end.

`eraseDups_map_eraseDups` is the one that carries weight: repetitions removed
before a map is applied make no difference once they are removed after it. So
mapping and removing in turn is mapping all the way and removing once, and the
list a long run has arrived at is known from the list it began with.
`isLeast_of_eraseDups_eq_cons_cons` then locates the second entry of what is left:
it stands where the original list first departs from its first entry.
-/
import Clausal.Distinct
import Mathlib.Data.List.Nodup
import Mathlib.Order.Bounds.Defs

set_option autoImplicit false

namespace Clausal

variable {α β : Type}

/-- Induction for `List.eraseDups`, whose recursive call is on a filtered tail:
the hypothesis is offered for the tail under every filter. -/
@[elab_as_elim]
theorem filter_induction {motive : List α → Prop} (nil : motive [])
    (cons : ∀ a l, (∀ p : α → Bool, motive (l.filter p)) → motive (a :: l)) (l : List α) :
    motive l := by
  induction hn : l.length using Nat.strongRecOn generalizing l with
  | _ n ih =>
    match l, hn with
    | [], _ => exact nil
    | a :: l, hn =>
      refine cons a l fun p => ih (l.filter p).length ?_ _ rfl
      have := List.length_filter_le p l
      rw [List.length_cons] at hn
      omega

/-- Of two filters, the stricter one decides. -/
private theorem filter_filter_of_imp {p q : α → Bool} (h : ∀ a, p a = true → q a = true)
    (l : List α) : (l.filter q).filter p = l.filter p := by
  rw [List.filter_filter]
  refine List.filter_congr fun a _ => ?_
  by_cases hp : p a = true
  · rw [hp, h a hp, Bool.and_self]
  · rw [Bool.not_eq_true] at hp
    rw [hp, Bool.false_and]

/-- What is found first is at the least place where the condition holds. -/
private theorem isLeast_of_find? {p : α → Bool} {l : List α} {a : α} (h : l.find? p = some a) :
    ∃ j : Nat, l[j]? = some a ∧ IsLeast {k : Nat | ∃ b, l[k]? = some b ∧ p b = true} j := by
  obtain ⟨hp, l₁, l₂, rfl, hl₁⟩ := List.find?_eq_some_iff_append.1 h
  refine ⟨l₁.length, by simp, ⟨a, by simp, hp⟩, ?_⟩
  rintro k ⟨b, hb, hpb⟩
  -- nothing before the entry found passes the test
  refine Nat.le_of_not_lt fun hk => ?_
  rw [List.getElem?_append_left hk] at hb
  have := hl₁ b (List.mem_of_getElem? hb)
  rw [hpb] at this
  exact absurd this (by decide)

/-! ## What is left of a mapped list -/

variable [DecidableEq α] [DecidableEq β]

/-- Selecting and removing repetitions may be done in either order. -/
theorem filter_eraseDups (p : α → Bool) (l : List α) :
    l.eraseDups.filter p = (l.filter p).eraseDups := by
  -- the later occurrences of the first member are gone from the rest, which is a shorter list
  induction l using filter_induction with
  | nil => rfl
  | cons a l ih =>
    rw [List.eraseDups_cons]
    by_cases hp : p a = true
    · rw [List.filter_cons_of_pos hp, List.filter_cons_of_pos hp, List.eraseDups_cons, ih,
        List.filter_filter, List.filter_filter]
      simp only [Bool.and_comm]
    · -- `a` goes, so what passes `p` differs from `a` anyway
      rw [List.filter_cons_of_neg hp, List.filter_cons_of_neg hp, ih,
        filter_filter_of_imp]
      intro b hb
      have hne : b ≠ a := fun e => hp (e ▸ hb)
      simpa using hne

/-- Repetitions removed before a map make no difference to what is left after
it. -/
theorem eraseDups_map_eraseDups (f : α → β) (l : List α) :
    (l.eraseDups.map f).eraseDups = (l.map f).eraseDups := by
  induction l using filter_induction with
  | nil => rfl
  | cons a l ih =>
    rw [List.eraseDups_cons, List.map_cons, List.map_cons, List.eraseDups_cons,
      List.eraseDups_cons, List.filter_map, List.filter_map, filter_eraseDups,
      filter_filter_of_imp, ih]
    -- entries with another image than `a` are other entries
    intro b hb
    have hne : f b ≠ f a := by simpa using hb
    have : b ≠ a := fun e => hne (congrArg f e)
    simpa using this

theorem head?_eraseDups (l : List α) : l.eraseDups.head? = l.head? := by
  match l with
  | [] => rfl
  | a :: l => rw [List.eraseDups_cons, List.head?_cons, List.head?_cons]

/-- A list without repetitions loses nothing. -/
theorem eraseDups_of_nodup {l : List α} (h : l.Nodup) : l.eraseDups = l := by
  induction l with
  | nil => rfl
  | cons a l ih =>
    rw [List.nodup_cons] at h
    have hfilter : l.filter (fun b => !b == a) = l := by
      refine List.filter_eq_self.2 fun b hb => ?_
      have hne : b ≠ a := fun heq => h.1 (heq ▸ hb)
      simpa using hne
    rw [List.eraseDups_cons, hfilter, ih h.2]

/-- A map that keeps the entries apart makes nothing equal. -/
theorem eraseDups_map_of_injOn {f : α → β} {l : List α}
    (hf : ∀ a ∈ l, ∀ b ∈ l, f a = f b → a = b) : (l.map f).eraseDups = l.eraseDups.map f := by
  have hnodup : (l.eraseDups.map f).Nodup :=
    List.Nodup.map_on (fun a ha b hb =>
      hf a (List.mem_eraseDups.1 ha) b (List.mem_eraseDups.1 hb)) (nodup_eraseDups l)
  rw [← eraseDups_map_eraseDups, eraseDups_of_nodup hnodup]

/-- An injective map neither makes nor breaks repetitions. -/
theorem eraseDups_map_of_injective {f : α → β} (hf : Function.Injective f) (l : List α) :
    (l.map f).eraseDups = l.eraseDups.map f :=
  eraseDups_map_of_injOn fun _ _ _ _ h => hf h

/-- A further occurrence at the end is dropped. -/
theorem eraseDups_concat_of_mem {l : List α} {a : α} (h : a ∈ l) :
    (l ++ [a]).eraseDups = l.eraseDups := by
  rw [List.eraseDups_append]
  simp [List.removeAll, h]

/-- A new member at the end is kept. -/
theorem eraseDups_concat_of_not_mem {l : List α} {a : α} (h : a ∉ l) :
    (l ++ [a]).eraseDups = l.eraseDups ++ [a] := by
  rw [List.eraseDups_append]
  simp [List.removeAll, h, List.eraseDups_cons]

/-- What an entry contributes is gone once its contribution is removed, so other places of
the entry make no difference. -/
theorem removeAll_flatMap_filter (f : α → List β) (a : α) (l : List α) :
    ((l.filter fun b => !b == a).flatMap f).removeAll (f a) = (l.flatMap f).removeAll (f a) := by
  induction l with
  | nil => rfl
  | cons b l ih =>
    rw [List.flatMap_cons]
    have happend : ∀ k m : List β,
        (k ++ m).removeAll (f a) = k.removeAll (f a) ++ m.removeAll (f a) :=
      fun k m => List.filter_append ..
    by_cases hb : b = a
    · have hself : (f a).removeAll (f a) = [] := by simp [List.removeAll]
      rw [hb, List.filter_cons_of_neg (by simp), ih, happend, hself, List.nil_append]
    · rw [List.filter_cons_of_pos (by simpa using hb), List.flatMap_cons, happend, happend, ih]

/-- Repetitions removed before the entries are expanded make no difference to what is
left after it. -/
theorem eraseDups_flatMap_eraseDups (f : α → List β) (l : List α) :
    (l.eraseDups.flatMap f).eraseDups = (l.flatMap f).eraseDups := by
  induction l using filter_induction with
  | nil => rfl
  | cons a l ih =>
    have hfilter : ∀ m : List β, (m.removeAll (f a)).eraseDups = m.eraseDups.removeAll (f a) :=
      fun m => (filter_eraseDups _ m).symm
    rw [List.eraseDups_cons, List.flatMap_cons, List.flatMap_cons, List.eraseDups_append,
      List.eraseDups_append, hfilter, ih, ← hfilter, removeAll_flatMap_filter]

/-- The second entry left over is the first one that differs from the first
entry. -/
theorem isLeast_of_eraseDups_eq_cons_cons {l : List α} {a b : α} {rest : List α}
    (h : l.eraseDups = a :: b :: rest) :
    ∃ j : Nat, l[j]? = some b ∧ IsLeast {k : Nat | ∃ c, l[k]? = some c ∧ c ≠ a} j := by
  match l with
  | [] => simp at h
  | c :: l =>
    rw [List.eraseDups_cons, List.cons.injEq] at h
    obtain ⟨rfl, h⟩ := h
    -- past the first entry, what is left starts with the first entry that differs from it
    have hfind : l.find? (fun d => !d == c) = some b := by
      rw [← List.head?_filter, ← head?_eraseDups, h, List.head?_cons]
    obtain ⟨j, hj, ⟨d, hd, hdc⟩, hleast⟩ := isLeast_of_find? hfind
    refine ⟨j + 1, by simpa using hj, ⟨d, by simpa using hd, by simpa using hdc⟩, ?_⟩
    rintro k ⟨e, he, hec⟩
    rcases k with _ | k
    · exact absurd (by simpa using he.symm) hec
    · have := hleast ⟨e, by simpa using he, by simpa using hec⟩
      omega

end Clausal
