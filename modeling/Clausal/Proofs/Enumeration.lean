/-
What an enumeration of inferences collects.

An enumeration tries a family of choices one after the other, passes over those
without a conclusion and stops at any other failure. Once it has succeeded, the
order in which this happened no longer matters for what its results are: each of
them is the result of one choice, and each result of a choice is among them
(`mem_iff_of_collect_eq_ok`). The choices themselves are selections of literals,
and a selection loses no literal (`mem_iff_of_mem_selections`).
-/
import Clausal.InferenceError
import Clausal.Selection

set_option autoImplicit false

namespace Clausal

variable {α β : Type}

/-- A sequence succeeds if both steps do. -/
theorem bind_eq_ok_iff {ε : Type} {x : Except ε α} {f : α → Except ε β} {b : β} :
    x >>= f = .ok b ↔ ∃ a, x = .ok a ∧ f a = .ok b := by
  rcases x with e | a
  · constructor
    · intro h
      exact absurd h (by simp [bind, Except.bind])
    · rintro ⟨_, h, -⟩
      exact absurd h (by simp)
  · constructor
    · intro h
      exact ⟨a, rfl, h⟩
    · rintro ⟨a', ha, h⟩
      rw [← Except.ok.inj ha] at h
      exact h

/-- It fails at the first step or at the second. -/
theorem bind_eq_error_iff {ε : Type} {x : Except ε α} {f : α → Except ε β} {e : ε} :
    x >>= f = .error e ↔ x = .error e ∨ ∃ a, x = .ok a ∧ f a = .error e := by
  rcases x with e' | a
  · constructor
    · intro h
      exact .inl (congrArg Except.error (Except.error.inj h))
    · rintro (h | ⟨_, h, -⟩)
      · rw [Except.error.inj h]
        rfl
      · exact nomatch h
  · constructor
    · intro h
      exact .inr ⟨a, rfl, h⟩
    · rintro (h | ⟨a', ha, h⟩)
      · exact nomatch h
      · rw [← Except.ok.inj ha] at h
        exact h

theorem map_eq_ok_iff {ε : Type} {x : Except ε α} {f : α → β} {b : β} :
    f <$> x = .ok b ↔ ∃ a, x = .ok a ∧ f a = b := by
  rcases x with e | a
  · constructor
    · intro h
      exact absurd h (by simp [Functor.map, Except.map])
    · rintro ⟨_, h, -⟩
      exact absurd h (by simp)
  · constructor
    · intro h
      exact ⟨a, rfl, Except.ok.inj h⟩
    · rintro ⟨a', ha, rfl⟩
      rw [← Except.ok.inj ha]
      rfl

theorem map_eq_error_iff {ε : Type} {x : Except ε α} {f : α → β} {e : ε} :
    f <$> x = .error e ↔ x = .error e := by
  rcases x with e' | a
  · constructor
    · intro h
      exact congrArg Except.error (Except.error.inj h)
    · intro h
      rw [Except.error.inj h]
      rfl
  · exact iff_of_false (fun h => nomatch h) (fun h => nomatch h)

/-- The results collected are those of the single choices. -/
theorem mem_iff_of_collect_eq_ok {f : α → Except InferenceError (List β)} {as : List α}
    {bs : List β} (h : collect f as = .ok bs) {b : β} :
    b ∈ bs ↔ ∃ a ∈ as, ∃ part, f a = .ok part ∧ b ∈ part := by
  induction as generalizing bs with
  | nil =>
    rw [← Except.ok.inj h]
    simp
  | cons a as ih =>
    obtain ⟨here, hhere, h⟩ := bind_eq_ok_iff.1 h
    obtain ⟨later, hlater, h⟩ := bind_eq_ok_iff.1 h
    -- the results of the first choice stand before those of the others
    rw [← Except.ok.inj h, List.mem_append, ih hlater]
    constructor
    · rintro (hb | ⟨a', ha', part, hpart, hb⟩)
      · exact ⟨a, List.mem_cons_self, here, hhere, hb⟩
      · exact ⟨a', List.mem_cons_of_mem a ha', part, hpart, hb⟩
    · rintro ⟨a', ha', part, hpart, hb⟩
      rcases List.mem_cons.1 ha' with rfl | ha'
      · rw [hhere] at hpart
        exact .inl (Except.ok.inj hpart ▸ hb)
      · exact .inr ⟨a', ha', part, hpart, hb⟩

/-- A choice that the enumeration went through succeeded, and its results are among
those collected. -/
theorem exists_part_of_collect_eq_ok {f : α → Except InferenceError (List β)} {as : List α}
    {bs : List β} (h : collect f as = .ok bs) {a : α} (ha : a ∈ as) :
    ∃ part, f a = .ok part ∧ ∀ b ∈ part, b ∈ bs := by
  have hpart : ∃ part, f a = .ok part := by
    induction as generalizing bs with
    | nil => simp at ha
    | cons a' as ih =>
      obtain ⟨here, hhere, h⟩ := bind_eq_ok_iff.1 h
      obtain ⟨later, hlater, -⟩ := bind_eq_ok_iff.1 h
      rcases List.mem_cons.1 ha with rfl | ha
      · exact ⟨here, hhere⟩
      · exact ih hlater ha
  obtain ⟨part, hpart⟩ := hpart
  exact ⟨part, hpart, fun b hb => (mem_iff_of_collect_eq_ok h).2 ⟨a, ha, part, hpart, hb⟩⟩

/-- Where every choice has at most one result and none of them fails, the enumeration
lists the results in the order of the choices. -/
theorem collect_eq_ok_filterMap {f : α → Except InferenceError (List β)} {g : α → Option β}
    (h : ∀ a, f a = .ok (g a).toList) (as : List α) : collect f as = .ok (as.filterMap g) := by
  induction as with
  | nil => rfl
  | cons a as ih =>
    rw [collect, h a, ih]
    show Except.ok ((g a).toList ++ as.filterMap g) = _
    rcases hg : g a with _ | b
    · rw [List.filterMap_cons_none hg, Option.toList_none, List.nil_append]
    · rw [List.filterMap_cons_some hg, Option.toList_some, List.singleton_append]

/-- An inference contributes its conclusion and nothing else. -/
theorem eq_ok_of_mem_productive {x : Except InferenceError α} {as : List α}
    (h : productive x = .ok as) {a : α} (ha : a ∈ as) : x = .ok a := by
  unfold productive at h
  split at h
  · rw [← Except.ok.inj h, List.mem_singleton] at ha
    rw [ha]
  · -- a failure is either passed over or passed on
    split at h
    · rw [← Except.ok.inj h] at ha
      exact absurd ha (by simp)
    · exact nomatch h

/-- The entry selected and those left over are the entries of the list. -/
theorem mem_iff_of_mem_selections {l : List α} {s : α × List α} (h : s ∈ selections l) {a : α} :
    a ∈ l ↔ a ∈ s.1 :: s.2 := by
  induction l generalizing s with
  | nil => simp [selections] at h
  | cons b l ih =>
    rcases List.mem_cons.1 h with rfl | h
    · rfl
    · obtain ⟨s', hs', rfl⟩ := List.mem_map.1 h
      have := ih hs'
      simp only [List.mem_cons] at this ⊢
      rw [this]
      exact or_left_comm

/-- Every place of a list gives a selection. -/
theorem mem_selections_of_getElem? {l : List α} {i : Nat} {a : α} (h : l[i]? = some a) :
    (a, l.eraseIdx i) ∈ selections l := by
  apply List.mem_of_getElem? (i := i)
  rw [getElem?_selections, h, Option.map_some]

end Clausal
