/-
Counting the distinct entries of a list. `List.eraseDups` keeps the first of
equal entries; what is needed of it here is that nothing is repeated in the
result, and that a list with fewer distinct entries gets a shorter result. The
second fact is what makes unification end.
-/

set_option autoImplicit false

namespace Clausal

variable {α : Type} [DecidableEq α]

/-- No entry is left twice. -/
theorem nodup_eraseDups (l : List α) : l.eraseDups.Nodup := by
  induction hn : l.length using Nat.strongRecOn generalizing l with
  | _ n ih =>
    cases l with
    | nil => simp
    | cons a l =>
      have hlen : (l.filter fun b => !b == a).length < n := by
        have := List.length_filter_le (fun b => !b == a) l
        simp only [List.length_cons] at hn
        omega
      rw [List.eraseDups_cons, List.nodup_cons]
      exact ⟨by simp [List.mem_eraseDups], ih _ hlen _ rfl⟩

/-- A list without repetitions is no longer than one with all its members. -/
theorem length_le_of_nodup_of_subset {l m : List α} (hl : l.Nodup) (h : ∀ a ∈ l, a ∈ m) :
    l.length ≤ m.length := by
  induction l generalizing m with
  | nil => simp
  | cons a l ih =>
    rw [List.nodup_cons] at hl
    have ha : a ∈ m := h a List.mem_cons_self
    -- the first member occurs once, so the others are in the second list without it
    have hrest : ∀ b ∈ l, b ∈ m.erase a := by
      intro b hb
      have hne : b ≠ a := fun e => hl.1 (e ▸ hb)
      exact (List.mem_erase_of_ne hne).2 (h b (List.mem_cons_of_mem a hb))
    have hle := ih hl.2 hrest
    have hm := List.length_pos_of_mem ha
    rw [List.length_erase_of_mem ha] at hle
    simp only [List.length_cons]
    omega

/-- Smaller lists have fewer members, repetitions not counted. -/
theorem length_eraseDups_le_of_subset {l m : List α} (h : ∀ a ∈ l, a ∈ m) :
    l.eraseDups.length ≤ m.eraseDups.length :=
  length_le_of_nodup_of_subset (nodup_eraseDups l) fun a ha =>
    List.mem_eraseDups.2 (h a (List.mem_eraseDups.1 ha))

/-- A list whose entries all occur in another one that has a further entry has
fewer distinct entries. -/
theorem length_eraseDups_lt_of_subset {l m : List α} {a : α} (h : ∀ b ∈ l, b ∈ m) (ha : a ∈ m)
    (hal : a ∉ l) : l.eraseDups.length < m.eraseDups.length := by
  have hnodup : (a :: l.eraseDups).Nodup :=
    List.nodup_cons.2 ⟨fun h' => hal (List.mem_eraseDups.1 h'), nodup_eraseDups l⟩
  refine length_le_of_nodup_of_subset hnodup fun b hb => List.mem_eraseDups.2 ?_
  rcases List.mem_cons.1 hb with rfl | hb
  · exact ha
  · exact h b (List.mem_eraseDups.1 hb)

/-- Removing repetitions makes no list longer. -/
theorem length_eraseDups_le (l : List α) : l.eraseDups.length ≤ l.length :=
  length_le_of_nodup_of_subset (nodup_eraseDups l) fun _ => List.mem_eraseDups.1

end Clausal
