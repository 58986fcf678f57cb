/-
One text after another. If a text is read without an error, then reading it with a second
text behind it is reading the second text afterwards: the clauses of the second text follow
those of the first, and the signature is the one that the second text leaves. Where the
second text fails, the whole fails in the same way, except that the position of a fault of
the second text itself is counted from the beginning of the first
(`Problem.fromText_append`).

A document without a fault has come to its last item and found nothing but gaps behind it.
So the seam lies in a gap, or right behind a full stop. A gap that is complete stays so
(`afterGap?_extend`), and a statement that is an item is read again in front of more text,
since it ends with a closing parenthesis and a full stop: the words before the parenthesis
are not read past it, and these two marks are not read past themselves
(`statement?_extend`). That an item ends in this way is not a matter of taste. A number
before the full stop could go on in the second text.
-/
import Clausal.Files.Directory
import Clausal.Proofs.Inclusions
import Clausal.Proofs.Lookahead
import Clausal.Proofs.ScopeInvariants
import Clausal.Proofs.Suffixes

set_option autoImplicit false

namespace Clausal.Problem

/-! ## Gaps -/

/-- A comment that is closed in the first text ends at the same place in both together. -/
theorem afterBlock?_extend {cs rest : List Char} (h : afterBlock? cs = some rest)
    (b : List Char) : afterBlock? (cs ++ b) = some (rest ++ b) := by
  fun_induction afterBlock? cs with
  | case1 cs =>
    obtain rfl := Option.some.inj h
    rfl
  | case2 c cs hend ih =>
    rw [List.cons_append, afterBlock?.eq_2, ih h]
    intro ds hc hds
    -- the stroke would have to come from the first text, which does not end here
    match cs, h with
    | d :: cs, _ => exact hend cs hc (by rw [(List.cons.inj hds).1])
  | case3 => cases h

/-- So does a comment to the end of a line. It ends with its line feed, so it matters that it has
one. -/
theorem afterLine?_extend {cs rest : List Char} (h : afterLine? cs = some rest)
    (b : List Char) : afterLine? (cs ++ b) = some (rest ++ b) := by
  fun_induction afterLine? cs with
  | case1 cs =>
    obtain rfl := Option.some.inj h
    rfl
  | case2 cs =>
    obtain rfl := Option.some.inj h
    rfl
  | case3 => cases h
  -- any other character; a return that ends the text would be the one exception
  | case4 c cs hfeed hboth hreturn ih =>
    rw [List.cons_append, afterLine?.eq_4, ih h]
    · exact hfeed
    · intro ds hc
      exact absurd hc hreturn
    · exact hreturn
  | case5 => cases h

/-- A gap that is complete stays so. -/
theorem afterGap?_extend {cs rest : List Char} (h : afterGap? cs = some rest) (b : List Char) :
    afterGap? (cs ++ b) = some (rest ++ b) := by
  unfold afterGap? at h
  split at h
  · exact afterBlock?_extend h b
  · exact afterLine?_extend h b
  · next c cs hblock hline =>
    split at h
    · next hblank =>
      obtain rfl := Option.some.inj h
      -- a blank begins no comment, whatever is put behind it
      rw [List.cons_append, afterGap?.eq_3, if_pos hblank]
      · intro ds hc
        rw [hc] at hblank
        cases hblank
      · exact hline
    · cases h
  · cases h

/-- What is skipped of the first text is skipped. -/
theorem skipGaps_append (cs b : List Char) : skipGaps (cs ++ b) = skipGaps (skipGaps cs ++ b) := by
  fun_induction skipGaps cs with
  | case1 cs rest hrest ih =>
    rw [← ih, skipGaps]
    split
    · next rest' hsome =>
      rw [afterGap?_extend hrest] at hsome
      rw [Option.some.inj hsome]
    · next hnone =>
      rw [afterGap?_extend hrest] at hnone
      cases hnone
  | case2 cs hnone => rfl

theorem suffix_of_afterBlock? {cs rest : List Char} (h : afterBlock? cs = some rest) :
    rest <:+ cs := by
  fun_induction afterBlock? cs with
  | case1 cs =>
    obtain rfl := Option.some.inj h
    exact (List.suffix_cons _ _).trans (List.suffix_cons _ _)
  | case2 c cs _ ih => exact (ih h).trans (List.suffix_cons c cs)
  | case3 => cases h

theorem suffix_of_afterLine? {cs rest : List Char} (h : afterLine? cs = some rest) :
    rest <:+ cs := by
  fun_induction afterLine? cs with
  | case1 cs =>
    obtain rfl := Option.some.inj h
    exact List.suffix_cons _ _
  | case2 cs =>
    obtain rfl := Option.some.inj h
    exact (List.suffix_cons _ _).trans (List.suffix_cons _ _)
  | case3 => cases h
  | case4 c cs _ _ _ ih => exact (ih h).trans (List.suffix_cons c cs)
  | case5 => cases h

/-- What stands behind a gap is the end of the text. -/
theorem suffix_of_afterGap? {cs rest : List Char} (h : afterGap? cs = some rest) :
    rest <:+ cs := by
  unfold afterGap? at h
  split at h
  · exact ((suffix_of_afterBlock? h).trans (List.suffix_cons _ _)).trans (List.suffix_cons _ _)
  · exact (suffix_of_afterLine? h).trans (List.suffix_cons _ _)
  · split at h
    · obtain rfl := Option.some.inj h
      exact List.suffix_cons _ _
    · cases h
  · cases h

/-- Gaps are skipped at the front. -/
theorem skipGaps_suffix (cs : List Char) : skipGaps cs <:+ cs := by
  fun_induction skipGaps cs with
  | case1 cs rest hrest ih => exact ih.trans (suffix_of_afterGap? hrest)
  | case2 cs hnone => exact List.suffix_rfl

/-! ## Statements -/

/-- The characters of the words of a statement stand in the text. -/
theorem mem_of_mem_statement? {cs : List Char} {s : List Token × List Char}
    (h : statement? cs = some s) : ∀ t ∈ s.1, ∀ c ∈ t.text.toList, c ∈ cs := by
  have hword : ∀ {cs rest : List Char} {t : Token}, Token.scan? (skipGaps cs) = some (t, rest) →
      skipGaps cs = t.text.toList ++ rest := fun hscan => (Token.scan?_eq_some hscan).1
  fun_induction statement? cs generalizing s with
  | case1 => cases h
  | case2 cs rest hscan =>
    obtain rfl := Option.some.inj h
    intro t ht c hc
    rw [List.mem_singleton.1 ht] at hc
    refine (skipGaps_suffix cs).subset ?_
    rw [hword hscan]
    exact List.mem_append_left _ hc
  | case3 cs t rest hscan _ ih =>
    obtain ⟨s', h', rfl⟩ := Option.map_eq_some_iff.1 h
    intro u hu c hc
    refine (skipGaps_suffix cs).subset ?_
    rw [hword hscan]
    -- the characters of this word, and then those of the later ones
    rcases List.mem_cons.1 hu with rfl | hu
    · exact List.mem_append_left _ hc
    · exact List.mem_append_right _ (ih h' u hu c hc)

/-- A mark of one character is this character. -/
theorem eq_cons_of_scan?_mark {cs rest : List Char} {m : String} {c : Char}
    (h : Token.scan? cs = some (.mark m, rest)) (hm : m.toList = [c]) : cs = c :: rest := by
  have hfronts : cs = m.toList ++ rest := (Token.scan?_eq_some h).1
  rwa [hm] at hfronts

theorem scan?_close (cs : List Char) : Token.scan? (')' :: cs) = some (.mark ")", cs) := rfl

/-- In a closed statement no word is read past the closing parenthesis. -/
theorem scan?_extend_of_closed {cs rest : List Char} {t : Token} {s : List Token × List Char}
    (hscan : Token.scan? cs = some (t, rest)) (hs : statement? rest = some s)
    (hclosed : Closed (t :: s.1)) (b : List Char) :
    Token.scan? (cs ++ b) = some (t, rest ++ b) := by
  obtain ⟨_ | ⟨u, front⟩, hwords⟩ := hclosed
  · -- the word is the parenthesis
    obtain ⟨rfl, -⟩ := List.cons.inj hwords
    have hcs : cs = ')' :: rest := eq_cons_of_scan?_mark hscan rfl
    rw [hcs, List.cons_append, scan?_close]
  · -- the parenthesis is still to come
    have hmem : Token.mark ")" ∈ s.1 := by
      rw [(List.cons.inj hwords).2]
      simp
    have hclose : ')' ∈ rest := mem_of_mem_statement? hs _ hmem ')' (List.mem_singleton_self _)
    exact Token.scan?_extend hscan hclose b

/-- **A closed statement is read again in front of more text**, and so is the full stop that
is left when the parenthesis has been read. -/
theorem statement?_extend {cs : List Char} {s : List Token × List Char}
    (h : statement? cs = some s) (hclosed : s.1 = [.fullStop] ∨ Closed s.1) (b : List Char) :
    statement? (cs ++ b) = some (extend b s) := by
  -- along the words of the statement; the closing parenthesis is passed only before the full
  -- stop
  fun_induction statement? cs generalizing s with
  | case1 => cases h
  | case2 cs rest hscan =>
    obtain rfl := Option.some.inj h
    have hcs : skipGaps cs = '.' :: rest := eq_cons_of_scan?_mark hscan rfl
    rw [← statement?_skipGaps, skipGaps_append, hcs, statement?_skipGaps, List.cons_append,
      statement?_fullStop]
    rfl
  | case3 cs t rest hscan hne ih =>
    obtain ⟨s', h', rfl⟩ := Option.map_eq_some_iff.1 h
    have hclosed : Closed (t :: s'.1) :=
      hclosed.resolve_left fun heq => hne (List.cons.inj heq).1
    have htail : s'.1 = [.fullStop] ∨ Closed s'.1 := by
      obtain ⟨_ | ⟨u, front⟩, hwords⟩ := hclosed
      · exact .inl (List.cons.inj hwords).2
      · exact .inr ⟨front, (List.cons.inj hwords).2⟩
    have hscan' := scan?_extend_of_closed hscan h' hclosed b
    rw [← statement?_skipGaps, skipGaps_append, statement?_skipGaps,
      statement?_of_scan? hscan' hne, ih h' htail]
    rfl

/-- What stands behind an item makes no difference to it. -/
theorem item?_extend {cs : List Char} {i : Item × List Char} (h : item? cs = some i)
    (b : List Char) : item? (cs ++ b) = some (extend b i) := by
  simp only [item?, Option.bind_eq_bind, Option.bind_eq_some_iff] at h
  obtain ⟨s, hs, j, hj, hpure⟩ := h
  obtain rfl := Option.some.inj hpure
  rw [item?, statement?_extend hs (.inr (Item.closed_of_parse? hj))]
  show (Item.parse? s.1).bind _ = _
  rw [hj]
  rfl

/-! ## Documents -/

namespace Document

variable {start : Nat} {cs b : List Char}

/-- Where there are only gaps, there are no items and there is no fault. -/
theorem ofTextAt_of_nil (h : skipGaps cs = []) : ofTextAt start cs = ⟨[], none⟩ := by
  rw [ofTextAt, if_pos h]

/-- Where no item comes next, the fault is behind the gaps. -/
theorem ofTextAt_of_none (hne : skipGaps cs ≠ []) (h : item? (skipGaps cs) = none) :
    ofTextAt start cs = ⟨[], some (start + (cs.length - (skipGaps cs).length))⟩ := by
  rw [ofTextAt, if_neg hne]
  split
  · rfl
  · next hsome =>
    rw [h] at hsome
    cases hsome

/-- An item is followed by what the rest of the text has. -/
theorem ofTextAt_of_some {i : Item} {rest : List Char} (h : item? (skipGaps cs) = some (i, rest)) :
    ofTextAt start cs = ⟨i :: (ofTextAt (start + (cs.length - rest.length)) rest).items,
      (ofTextAt (start + (cs.length - rest.length)) rest).fault⟩ := by
  -- there is an item, so there is something to read
  have hne : skipGaps cs ≠ [] := by
    intro hnil
    have hlength := length_of_item? h
    rw [hnil] at hlength
    exact absurd hlength (Nat.not_lt_zero _)
  rw [ofTextAt, if_neg hne]
  split
  · next hnone =>
    rw [h] at hnone
    cases hnone
  · next j rest' hsome =>
    rw [h] at hsome
    obtain ⟨rfl, rfl⟩ := Prod.mk.inj (Option.some.inj hsome)
    rfl

/-- The items do not depend on where the text begins, and the fault is counted from
there. -/
theorem ofTextAt_add (n start : Nat) (cs : List Char) :
    ofTextAt (n + start) cs =
      ⟨(ofTextAt start cs).items, (ofTextAt start cs).fault.map (n + ·)⟩ := by
  fun_induction ofTextAt start cs with
  | case1 start cs hnil => rw [ofTextAt_of_nil hnil]; rfl
  | case2 start cs hne hitem =>
    rw [ofTextAt_of_none hne hitem, Nat.add_assoc]
    rfl
  | case3 start cs _ i rest hitem d ih =>
    rw [ofTextAt_of_some hitem, Nat.add_assoc, ih]

/-- Gaps in front of a text move it. -/
theorem ofTextAt_append_of_nil (h : skipGaps cs = []) (start : Nat) (b : List Char) :
    ofTextAt start (cs ++ b) = ofTextAt (start + cs.length) b := by
  have hskip : skipGaps (cs ++ b) = skipGaps b := by rw [skipGaps_append, h, List.nil_append]
  have hlength := length_skipGaps_le b
  by_cases hnil : skipGaps b = []
  · rw [ofTextAt_of_nil hnil, ofTextAt_of_nil (hskip.trans hnil)]
  · rcases hitem : item? (skipGaps b) with _ | ⟨i, rest⟩
    · rw [ofTextAt_of_none hnil hitem, ofTextAt_of_none (by rwa [hskip]) (by rwa [hskip]), hskip,
        List.length_append]
      congr 2
      omega
    -- the rest is the same text, and it is as far from the end
    · have hrest : rest.length < (skipGaps b).length := length_of_item? hitem
      have hstart : start + ((cs ++ b).length - rest.length) =
          start + cs.length + (b.length - rest.length) := by
        rw [List.length_append]
        omega
      rw [ofTextAt_of_some hitem, ofTextAt_of_some (by rwa [hskip]), hstart]

/-- **Documents are read one after the other.** Behind a text without a fault come the items
of the second text, and its fault. -/
theorem ofTextAt_append (h : (ofTextAt start cs).fault = none) (b : List Char) :
    ofTextAt start (cs ++ b) =
      ⟨(ofTextAt start cs).items ++ (ofTextAt (start + cs.length) b).items,
        (ofTextAt (start + cs.length) b).fault⟩ := by
  fun_induction ofTextAt start cs with
  | case1 start cs hnil =>
    rw [ofTextAt_append_of_nil hnil, List.nil_append]
  | case2 start cs _ _ => cases h
  | case3 start cs _ i rest hitem d ih =>
    have hlength : rest.length < (skipGaps cs).length := length_of_item? hitem
    have hle := length_skipGaps_le cs
    have hitem' : item? (skipGaps (cs ++ b)) = some (i, rest ++ b) := by
      rw [skipGaps_append, item?_skipGaps, item?_extend hitem]
      rfl
    have hstart : start + ((cs ++ b).length - (rest ++ b).length) =
        start + (cs.length - rest.length) := by
      rw [List.length_append, List.length_append]
      omega
    -- the rest of the first text ends where the first text does
    have hend : start + (cs.length - rest.length) + rest.length = start + cs.length := by omega
    rw [ofTextAt_of_some hitem', hstart, ih h, hend]
    rfl

/-- The same for bytes, where the second fault is moved by the length of the first text. -/
theorem ofBytes_append {bs : List UInt8} (h : (ofBytes bs).fault = none) (cs : List UInt8) :
    ofBytes (bs ++ cs) = ⟨(ofBytes bs).items ++ (ofBytes cs).items,
      (ofBytes cs).fault.map (bs.length + ·)⟩ := by
  have hshift := ofTextAt_add bs.length 0 (cs.map fun b => Char.ofNat b.toNat)
  rw [ofBytes, ofText, List.map_append, ofTextAt_append h, List.length_map, Nat.zero_add,
    ← Nat.add_zero bs.length, hshift]
  rfl

end Document

theorem utf8_append (a b : String) : utf8 (a ++ b) = utf8 a ++ utf8 b := by
  rw [utf8, String.toList_append, List.flatMap_append]
  rfl

/-- The size of a text in bytes is the length of its encoding. -/
theorem length_utf8 (a : String) : (utf8 a).length = a.utf8ByteSize := by
  have hbytes : (utf8 a).toByteArray = a.toByteArray := String.utf8Encode_toList
  rw [← List.size_toByteArray, hbytes]
  rfl

/-! ## Readings -/

section

variable {included : String → Reading (List Clause)} {directory : String} {σ τ υ : Signature}

/-- Items that follow others are read in the signature that these leave. -/
theorem run_readItems_append {is : List Item} {cs : List Clause}
    (h : (readItems included directory is).run σ = (.ok cs, τ)) (js : List Item) :
    (readItems included directory (is ++ js)).run σ =
      (((readItems included directory js).run τ).1.map (cs ++ ·),
        ((readItems included directory js).run τ).2) := by
  -- along the items of the first list, in the signatures that they leave
  induction is generalizing σ cs with
  | nil =>
    obtain ⟨hcs, rfl⟩ := Prod.mk.inj h
    obtain rfl := Except.ok.inj hcs
    rw [List.nil_append]
    rcases (readItems included directory js).run σ with ⟨e | ds, υ⟩ <;> rfl
  | cons i is ih =>
    rw [readItems, run_bind] at h
    rw [List.cons_append, readItems, run_bind]
    rcases hi : (i.read included directory).run σ with ⟨e | here, σ₁⟩
    · rw [hi] at h
      cases h
    · rw [hi] at h
      simp only at h ⊢
      rw [run_bind] at h ⊢
      rcases his : (readItems included directory is).run σ₁ with ⟨e | later, σ₂⟩
      · rw [his] at h
        cases h
      · rw [his] at h
        obtain ⟨hcs, rfl⟩ := Prod.mk.inj h
        obtain rfl := Except.ok.inj hcs
        rw [ih his]
        rcases (readItems included directory js).run σ₂ with ⟨e | ds, υ⟩
        · rfl
        · show (Except.ok (here ++ (later ++ ds)), υ) = (Except.ok (here ++ later ++ ds), υ)
          rw [List.append_assoc]

/-- Items that follow others are read just if they are read in the signature that these leave. -/
theorem run_readItems_append_eq_ok_iff {is : List Item} {cs ds : List Clause}
    (h : (readItems included directory is).run σ = (.ok cs, τ)) (js : List Item) :
    (readItems included directory (is ++ js)).run σ = (.ok (cs ++ ds), υ) ↔
      (readItems included directory js).run τ = (.ok ds, υ) := by
  rw [run_readItems_append h]
  rcases (readItems included directory js).run τ with ⟨e | ds', τ'⟩
  · constructor <;> intro h <;> cases h
  · constructor
    · intro hwhole
      obtain ⟨hds, rfl⟩ := Prod.mk.inj hwhole
      rw [List.append_cancel_left (Except.ok.inj hds)]
    · intro hlater
      obtain ⟨hds, rfl⟩ := Prod.mk.inj hlater
      rw [Except.ok.inj hds]
      rfl

/-- And they fail just if they fail there. -/
theorem run_readItems_append_eq_error_iff {is : List Item} {cs : List Clause} {e : ReadError}
    (h : (readItems included directory is).run σ = (.ok cs, τ)) (js : List Item) :
    (readItems included directory (is ++ js)).run σ = (.error e, υ) ↔
      (readItems included directory js).run τ = (.error e, υ) := by
  rw [run_readItems_append h]
  rcases (readItems included directory js).run τ with ⟨e' | ds', τ'⟩
  · rfl
  · constructor <;> intro h <;> cases h

/-- A document is read if its items are and it has no fault. -/
theorem Document.run_read_eq_ok_iff {d : Document} {cs : List Clause} :
    (d.read included directory).run σ = (.ok cs, τ) ↔
      d.fault = none ∧ (readItems included directory d.items).run σ = (.ok cs, τ) := by
  rw [Document.read, run_bind]
  rcases (readItems included directory d.items).run σ with ⟨e | ds, σ₁⟩
  · constructor
    · intro h
      cases h
    · rintro ⟨-, h⟩
      cases h
  -- all items are read, and then the fault decides
  · rcases d.fault with _ | n
    · exact ⟨fun h => ⟨rfl, h⟩, fun h => h.2⟩
    · constructor
      · intro h
        cases h
      · rintro ⟨h, -⟩
        cases h

/-- A document fails where one of its items does, or at its fault after all items. -/
theorem Document.run_read_eq_error_iff {d : Document} {e : ReadError} :
    (d.read included directory).run σ = (.error e, τ) ↔
      (readItems included directory d.items).run σ = (.error e, τ) ∨
        ∃ n cs, d.fault = some n ∧
          (readItems included directory d.items).run σ = (.ok cs, τ) ∧ e = .malformed n := by
  rw [Document.read, run_bind]
  rcases (readItems included directory d.items).run σ with ⟨e' | ds, σ₁⟩
  · constructor
    · exact .inl
    · rintro (h | ⟨_, _, -, h, -⟩)
      · exact h
      · cases h
  -- all items are read, so the error is the fault or there is none
  · rcases d.fault with _ | n
    · constructor
      · intro h
        cases h
      · rintro (h | ⟨_, _, h, -, -⟩) <;> cases h
    · constructor
      · intro h
        cases h
        exact .inr ⟨n, ds, rfl, rfl, rfl⟩
      · rintro (h | ⟨n', cs, hn, hcs, rfl⟩)
        · cases h
        · cases hn
          cases hcs
          rfl

end

/-! ## Faults of a text and faults of its files -/

section

variable {α β : Type}

/-- The computation does not complain about a position. -/
def NeverMalformed (m : InClause α) : Prop :=
  ∀ (s : Scope) (n : Nat), (m.run s).1 ≠ .error (.malformed n)

theorem neverMalformed_pure (a : α) : NeverMalformed (pure a : InClause α) :=
  fun _ _ h => nomatch h

theorem neverMalformed_modifyGet (f : Scope → α × Scope) :
    NeverMalformed (modifyGet f : InClause α) := fun _ _ h => nomatch h

/-- Nor does one after the other, if neither does. -/
theorem NeverMalformed.bind {m : InClause α} {f : α → InClause β} (hm : NeverMalformed m)
    (hf : ∀ a, NeverMalformed (f a)) : NeverMalformed (m >>= f) := by
  intro s n h
  rw [run_bind] at h
  rcases hrun : m.run s with ⟨e | a, s'⟩
  · rw [hrun] at h
    exact hm s n (by rw [hrun]; exact congrArg Except.error (Except.error.inj h))
  · rw [hrun] at h
    exact hf a s' n h

theorem NeverMalformed.map {m : InClause α} (hm : NeverMalformed m) (f : α → β) :
    NeverMalformed (f <$> m) := by
  rw [← bind_pure_comp]
  exact hm.bind fun a => neverMalformed_pure (f a)

/-- Nor does reading a list, if reading its entries does not. -/
theorem neverMalformed_readList {es : List Expr} (h : ∀ e ∈ es, NeverMalformed e.read) :
    NeverMalformed (Expr.readList es) := by
  induction es with
  | nil => exact neverMalformed_pure []
  | cons e es ih =>
    rw [List.forall_mem_cons] at h
    exact h.1.bind fun t => (ih h.2).bind fun ts => neverMalformed_pure (t :: ts)

/-- Reading an expression may refuse a name, but it names no position. -/
theorem Expr.WellSpelled.neverMalformed {e : Expr} (h : e.WellSpelled) : NeverMalformed e.read := by
  induction h with
  | var _ => exact neverMalformed_modifyGet _
  | apply _ _ ih => exact (neverMalformed_readList ih).bind fun ts => neverMalformed_modifyGet _
  | constant _ => exact neverMalformed_modifyGet _
  | reserved _ _ _ => exact fun _ _ h => nomatch h

/-- The same for atoms. -/
theorem AtomExpr.WellSpelled.neverMalformed {a : AtomExpr} (h : a.WellSpelled) :
    NeverMalformed a.read := by
  cases h with
  | plain _ args_spelled =>
    exact (neverMalformed_readList fun e he => (args_spelled e he).neverMalformed).bind fun ts =>
      neverMalformed_modifyGet _
  | reserved _ _ => exact fun _ _ h => nomatch h
  | equation left right =>
    exact left.neverMalformed.bind fun t => right.neverMalformed.bind fun u =>
      neverMalformed_pure _

/-- The same for literals. -/
theorem LiteralExpr.WellSpelled.neverMalformed {l : LiteralExpr} (h : l.WellSpelled) :
    NeverMalformed l.read := by
  cases h with
  | positive atom => exact atom.neverMalformed.map _
  | negative atom => exact atom.neverMalformed.map _
  | inequation left right => exact (AtomExpr.WellSpelled.equation left right).neverMalformed.map _

/-- The same for all literals of a clause. -/
theorem neverMalformed_readLiterals {ls : List LiteralExpr} (h : ∀ l ∈ ls, l.WellSpelled) :
    NeverMalformed (readLiterals ls) := by
  induction ls with
  | nil => exact neverMalformed_pure []
  | cons l ls ih =>
    rw [List.forall_mem_cons] at h
    exact h.1.neverMalformed.bind fun m => (ih h.2).bind fun ms => neverMalformed_pure (m :: ms)

end

section

variable {included : String → Reading (List Clause)} {directory : String} {σ τ : Signature}

/-- An item complains about a position only if it includes a file that does so. -/
theorem Item.exists_of_malformed {i : Item} (hi : i.WellSpelled) {n : Nat}
    (h : (i.read included directory).run σ = (.error (.malformed n), τ)) :
    ∃ file, i = .inclusion file none ∧
      (included (locate directory file)).run σ = (.error (.malformed n), τ) := by
  match i, hi, h with
  | .clause name ls, ⟨_, _, hls⟩, h =>
    have hread : ((readClause name ls).run σ).1 =
        ((readLiterals ls).run ⟨σ, []⟩).1.map (Clause.make · (.named name)) := rfl
    rw [Item.read, run_bind] at h
    rcases hrun : (readClause name ls).run σ with ⟨e | c, σ'⟩
    · rw [hrun] at h hread
      rw [Except.error.inj (Prod.mk.inj h).1] at hread
      rcases hm : ((readLiterals ls).run ⟨σ, []⟩).1 with e' | ms
      · rw [hm] at hread
        rw [← Except.error.inj hread] at hm
        -- a clause does not complain about a position
        exact absurd hm (neverMalformed_readLiterals hls _ n)
      · rw [hm] at hread
        cases hread
    · rw [hrun] at h
      cases h
  | .inclusion file none, _, h => exact ⟨file, rfl, h⟩

/-- Items complain about a position only if one of them includes a file that does so. -/
theorem exists_of_malformed {is : List Item} (his : ∀ i ∈ is, i.WellSpelled) {n : Nat}
    (h : (readItems included directory is).run σ = (.error (.malformed n), τ)) :
    ∃ (file : String) (υ : Signature), .inclusion file none ∈ is ∧
      (included (locate directory file)).run υ = (.error (.malformed n), τ) := by
  induction is generalizing σ with
  | nil => cases h
  | cons i is ih =>
    rw [List.forall_mem_cons] at his
    rw [readItems, run_bind] at h
    -- this item fails, or a later one does
    rcases hi : (i.read included directory).run σ with ⟨e | here, σ₁⟩
    · rw [hi] at h
      obtain ⟨he, rfl⟩ := Prod.mk.inj h
      rw [Except.error.inj he] at hi
      obtain ⟨file, rfl, hfile⟩ := Item.exists_of_malformed his.1 hi
      exact ⟨file, σ, List.mem_cons_self, hfile⟩
    · rw [hi] at h
      simp only at h
      rw [run_bind] at h
      rcases hrest : (readItems included directory is).run σ₁ with ⟨e | later, σ₂⟩
      · rw [hrest] at h
        obtain ⟨he, rfl⟩ := Prod.mk.inj h
        rw [Except.error.inj he] at hrest
        obtain ⟨file, υ, hmem, hfile⟩ := ih his.2 hrest
        exact ⟨file, υ, List.mem_cons_of_mem i hmem, hfile⟩
      · rw [hrest] at h
        cases h

end

/-! ## Texts -/

section

variable {files : FileSystem} {a b : String} {σ τ υ : Signature} {cs ds : List Clause}

/-- All items of the text are read, and then the text itself is at fault at position `n`. -/
structure OwnFault (files : FileSystem) (text : String) (σ : Signature) (n : Nat)
    (τ : Signature) : Prop where
  fault_eq : (Document.ofBytes (utf8 text)).fault = some n
  read_items : ∃ cs, (readItems (readNested files files.depth) "./"
    (Document.ofBytes (utf8 text)).items).run σ = (.ok cs, τ)

/-- The document of two texts, the first of which has no fault. -/
theorem ofBytes_append_text (h : (Document.ofBytes (utf8 a)).fault = none) (b : String) :
    Document.ofBytes (utf8 (a ++ b)) =
      ⟨(Document.ofBytes (utf8 a)).items ++ (Document.ofBytes (utf8 b)).items,
        (Document.ofBytes (utf8 b)).fault.map (a.utf8ByteSize + ·)⟩ := by
  rw [utf8_append, Document.ofBytes_append h, length_utf8]

/-- **Reading is compositional.** Where a text is read without an error, a second text behind
it is read in the signature that the first one leaves: the two together are read just if the
second is, and the clauses are those of the first and then those of the second. Where the
second text fails, the two together fail in the same way and leave the same signature. Only
the position of a fault of the second text itself moves, by the size of the first text in
bytes. A position in an included file stays. -/
theorem fromText_append (h : (fromText files a).run σ = (.ok cs, τ)) (b : String) :
    (∀ ds υ, (fromText files (a ++ b)).run σ = (.ok (cs ++ ds), υ) ↔
      (fromText files b).run τ = (.ok ds, υ)) ∧
    ∀ e υ, (fromText files b).run τ = (.error e, υ) →
      (∃ n, OwnFault files b τ n υ ∧ e = .malformed n ∧
        (fromText files (a ++ b)).run σ = (.error (.malformed (a.utf8ByteSize + n)), υ)) ∨
      ((∀ n, ¬OwnFault files b τ n υ) ∧ (fromText files (a ++ b)).run σ = (.error e, υ) ∧
        ∀ n, e = .malformed n → ∃ file υ',
          .inclusion file none ∈ (Document.ofBytes (utf8 b)).items ∧
          (readNested files files.depth (locate "./" file)).run υ' = (.error e, υ)) := by
  obtain ⟨hnone, hitems⟩ := Document.run_read_eq_ok_iff.1 h
  constructor
  · intro ds υ
    rw [fromText, fromText, Document.run_read_eq_ok_iff, Document.run_read_eq_ok_iff,
      ofBytes_append_text hnone, Option.map_eq_none_iff, run_readItems_append_eq_ok_iff hitems]
  · intro e υ he
    rcases Document.run_read_eq_error_iff.1 he with hfails | ⟨n, ds, hfault, hread, rfl⟩
    · -- an item of the second text fails, and no fault is come to
      have hwhole : (fromText files (a ++ b)).run σ = (.error e, υ) := by
        rw [fromText, Document.run_read_eq_error_iff, ofBytes_append_text hnone]
        exact .inl ((run_readItems_append_eq_error_iff hitems _).2 hfails)
      refine .inr ⟨fun n hown => ?_, hwhole, ?_⟩
      · obtain ⟨ds, hread⟩ := hown.read_items
        rw [hread] at hfails
        cases hfails
      · rintro n rfl
        exact exists_of_malformed Document.wellSpelled_of_mem_items hfails
    · -- all items of the second text are read
      refine .inl ⟨n, ⟨hfault, ds, hread⟩, rfl, ?_⟩
      rw [fromText, Document.run_read_eq_error_iff, ofBytes_append_text hnone]
      refine .inr ⟨_, cs ++ ds, ?_, (run_readItems_append_eq_ok_iff hitems _).2 hread, rfl⟩
      rw [hfault]
      rfl

/-- A text that ends in a comment with a character of two bytes, in front of a text that is
read, of one that breaks off at byte 22 and of one that includes a file that breaks off at
byte 1. -/
theorem fromText_append_seam :
    ∃ (files : FileSystem) (a b broken including : String) (σ τ υ υ' : Signature)
      (cs ds : List Clause),
      a.utf8ByteSize = 26 ∧ (fromText files a).run σ = (.ok cs, τ) ∧
      (fromText files b).run τ = (.ok ds, υ) ∧
      (fromText files (a ++ b)).run σ = (.ok (cs ++ ds), υ) ∧
      cs ++ ds = [⟨[.pos ⟨1, [.var 0]⟩], .named "a"⟩, ⟨[.neg ⟨1, [.var 1]⟩], .named "b"⟩] ∧
      (fromText files broken).run τ = (.error (.malformed 22), υ') ∧
      (fromText files (a ++ broken)).run σ = (.error (.malformed 48), υ') ∧
      (fromText files including).run τ = (.error (.malformed 1), τ) ∧
      (fromText files (a ++ including)).run σ = (.error (.malformed 1), τ) := by
  let files := (Directory.ofFiles [("b.p", utf8 " cnf(b.")]).toFileSystem
  let a := "cnf(a, axiom, p(X)). % é\n"
  let b := "cnf(b, axiom, ~p(X))."
  let broken := "cnf(b, axiom, ~p(X)). cnf("
  let including := "include('b.p')."
  let τ := ((fromText files a).run .initial).2
  have ha : (fromText files a).run .initial = (.ok [⟨[.pos ⟨1, [.var 0]⟩], .named "a"⟩], τ) :=
    Prod.ext (by decide +kernel) rfl
  have hb : (fromText files b).run τ =
      (.ok [⟨[.neg ⟨1, [.var 1]⟩], .named "b"⟩], ((fromText files b).run τ).2) :=
    Prod.ext (by decide +kernel) rfl
  have hbroken : (fromText files broken).run τ =
      (.error (.malformed 22), ((fromText files broken).run τ).2) :=
    Prod.ext (by decide +kernel) rfl
  have hitems : ((readItems (readNested files files.depth) "./"
      (Document.ofBytes (utf8 broken)).items).run τ).1 =
      .ok [⟨[.neg ⟨1, [.var 1]⟩], .named "b"⟩] := by decide +kernel
  have hincluding : (fromText files including).run τ = (.error (.malformed 1), τ) :=
    Prod.ext (by decide +kernel) (by decide +kernel)
  have hsize : a.utf8ByteSize = 26 := by decide +kernel
  refine ⟨files, a, b, broken, including, .initial, τ, _, _, _, _, hsize, ha, hb,
    ((fromText_append ha b).1 _ _).2 hb, rfl, hbroken, ?_, hincluding, ?_⟩
  · rcases (fromText_append ha broken).2 _ _ hbroken with ⟨n, -, hn, hwhole⟩ | ⟨hnone, -, -⟩
    · obtain rfl := ReadError.malformed.inj hn
      rwa [hsize] at hwhole
    · -- the text is read up to its own fault
      exact absurd ⟨by decide +kernel, _, Prod.ext hitems (by decide +kernel)⟩ (hnone 22)
  · rcases (fromText_append ha including).2 _ _ hincluding with ⟨n, hown, -, -⟩ | ⟨-, hwhole, -⟩
    · -- the fault is not one of the text
      have hnone : (Document.ofBytes (utf8 including)).fault = none := by decide +kernel
      cases hnone.symm.trans hown.fault_eq
    · exact hwhole

end

end Clausal.Problem
