import Adiak.Typestring.WellFormed

/-!
# The brace that `find_end_brace` returns

The scan counts braces of all kinds with one counter, which also runs below zero, and stops at a brace of
the requested kind.

1. `findEndBrace_pair`: on an opening brace with a nested body it returns the mate, whatever follows.
2. `findEndBrace_balanced`: up to the brace that it returns, as many braces are opened as are closed.
-/

namespace Adiak

section FindEndBrace

variable {ts : CStr} {start typestrEnd : Nat}

theorem step_openBrace {o : Char} (ho : isOpenBrace o = true) :
    Nesting.step isOpenBrace isCloseBrace o = 1 := by
  unfold isOpenBrace at ho
  simp only [Bool.or_eq_true, decide_eq_true_eq] at ho
  rcases ho with ((rfl | rfl) | rfl) | rfl <;> rfl

theorem step_mate {o c : Char} (h : Mates o c) : Nesting.step isOpenBrace isCloseBrace c = -1 := by
  rcases h with ⟨-, rfl⟩ | ⟨-, rfl⟩ | ⟨-, rfl⟩ | ⟨-, rfl⟩ <;> rfl

/-- The characters up to a position inside a region. -/
theorem between_of_append {v u : List Char} {c : Char} (hend : typestrEnd ≤ ts.length)
    (h : between ts start typestrEnd = v ++ c :: u) :
    start + v.length < typestrEnd ∧ ts[start + v.length]? = some c ∧
      between ts start (start + v.length + 1) = v ++ [c] := by
  have hlen := length_between start hend
  rw [h, List.length_append, List.length_cons] at hlen
  have hdrop : ts.drop start = v ++ c :: (u ++ ts.drop typestrEnd) := by
    rw [← between_append_drop ts (by omega : start ≤ typestrEnd), h, List.append_assoc,
      List.cons_append]
  refine ⟨by omega, ?_, ?_⟩
  · rw [← List.getElem?_drop, hdrop, List.getElem?_append_right le_rfl, Nat.sub_self]
    rfl
  · have hsub : start + v.length + 1 - start = v.length + 1 := by omega
    unfold between
    rw [hdrop, hsub, List.take_length_add_append]
    rfl

theorem findEndBrace_pair {o c : Char} {body post : List Char} (hend : typestrEnd ≤ ts.length)
    (ho : isOpenBrace o = true) (hregion : between ts start typestrEnd = o :: (body ++ c :: post))
    (hbody : Nesting.Nested isOpenBrace isCloseBrace Mates body) (hmates : Mates o c) :
    findEndBrace ts c start typestrEnd = .ok (some (start + 1 + body.length)) := by
  obtain ⟨hlt, -, -⟩ := between_of_append (v := []) hend hregion
  rw [findEndBrace_between (by simpa using hlt.le) hend, hregion,
    Nesting.scan_wrap (step_openBrace ho) (step_mate hmates) (by simp) hbody]

theorem findEndBrace_balanced {o endchar : Char} {i : Nat} (hend : typestrEnd ≤ ts.length)
    (hfirst : (between ts start typestrEnd).head? = some o) (ho : isOpenBrace o = true)
    (h : findEndBrace ts endchar start typestrEnd = .ok (some i)) :
    start < i ∧ i < typestrEnd ∧ ts[i]? = some endchar ∧
      (between ts start (i + 1)).countP isOpenBrace =
        (between ts start (i + 1)).countP isCloseBrace := by
  obtain ⟨rest, hrest⟩ : ∃ rest, between ts start typestrEnd = o :: rest := by
    cases hregion : between ts start typestrEnd with
    | nil => simp [hregion] at hfirst
    | cons d rest =>
      rw [hregion] at hfirst
      obtain rfl := Option.some.inj hfirst
      exact ⟨rest, rfl⟩
  obtain ⟨hlt, -, -⟩ := between_of_append (v := []) hend hrest
  rw [findEndBrace_between (by simpa using hlt.le) hend] at h
  obtain ⟨v, a, u, hregion, rfl, ha, hheight, -⟩ := Nesting.scan_eq_some (Except.ok.inj h)
  obtain rfl : a = endchar := of_decide_eq_true ha
  obtain ⟨hbound, hchar, hupto⟩ := between_of_append hend hregion
  refine ⟨?_, hbound, hchar, ?_⟩
  · -- at the opening brace itself the counter is `1`
    cases v with
    | nil =>
      obtain rfl : o = a := (List.cons.inj (hrest.symm.trans hregion)).1
      have hone : 0 + Nesting.height isOpenBrace isCloseBrace [o] = 1 := by
        rw [Nesting.height_cons, step_openBrace ho]
        rfl
      exact absurd (hone.symm.trans hheight) (by decide)
    | cons d v => rw [List.length_cons]; omega
  · rw [hupto]
    rw [zero_add, Nesting.height_eq_count] at hheight
    omega

/-- On an opening brace, `find_end_brace` returns the mate if the body is nested, whatever follows, and
the brace that it returns closes as many braces as are opened. -/
theorem findEndBrace_spec {o : Char} (hend : typestrEnd ≤ ts.length)
    (hfirst : (between ts start typestrEnd).head? = some o) (ho : isOpenBrace o = true) :
    (∀ body c post, between ts start typestrEnd = o :: (body ++ c :: post) →
      Nesting.Nested isOpenBrace isCloseBrace Mates body → Mates o c →
      findEndBrace ts c start typestrEnd = .ok (some (start + 1 + body.length))) ∧
    ∀ endchar i, findEndBrace ts endchar start typestrEnd = .ok (some i) →
      start < i ∧ i < typestrEnd ∧ ts[i]? = some endchar ∧
        (between ts start (i + 1)).countP isOpenBrace =
          (between ts start (i + 1)).countP isCloseBrace :=
  ⟨fun _ _ _ hregion hbody hmates => findEndBrace_pair hend ho hregion hbody hmates,
    fun _ _ h => findEndBrace_balanced hend hfirst ho h⟩

/-- A nested body with more text behind it, and a brace that is found behind one of a wrong kind. -/
theorem findEndBrace_spec_braces :
    findEndBrace ['[', '{', '}', ']', '(', '%'] ']' 0 6 = .ok (some 3) ∧
      findEndBrace ['x', '[', ')', '(', ']', '%'] ']' 1 6 = .ok (some 4) ∧
        (between ['x', '[', ')', '(', ']', '%'] 1 5).countP isOpenBrace =
          (between ['x', '[', ')', '(', ']', '%'] 1 5).countP isCloseBrace := by
  have hnested : Nesting.Nested isOpenBrace isCloseBrace Mates ['{', '}'] :=
    .wrap (v := []) rfl rfl (.inl ⟨rfl, rfl⟩) .nil .nil
  have hfound : findEndBrace ['x', '[', ')', '(', ']', '%'] ']' 1 6 = .ok (some 4) := by decide
  refine ⟨(findEndBrace_spec (by decide) rfl rfl).1 ['{', '}'] ']' ['(', '%'] rfl hnested
    (.inr (.inl ⟨rfl, rfl⟩)), hfound, ?_⟩
  exact ((findEndBrace_spec (by decide) rfl rfl).2 ']' 4 hfound).2.2.2

end FindEndBrace

end Adiak
