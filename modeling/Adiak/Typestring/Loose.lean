import Adiak.Typestring.Denotation
import Adiak.Typestring.WellFormed

/-!
# What the parser takes for a type

The parser reads a type from the front of a typestring and leaves the rest alone. What it takes for
a type is wider than the documented grammar.

1. `Loose` describes it by the text alone: a specifier may carry idle letters `l`, a container may
   hold text behind its element, and what closes it is found by counting brackets of all kinds
   (`Closes`). `Stands` places the components of a tuple. In `Loose true`, what follows a tuple component
   is read from where that tuple starts, as the parser does; in `Loose false` it stands behind.
2. `parse_takes` is the induction over the recursion depth, `parseTypestr_takes` the result.
-/

namespace Adiak

/-! ## Loose types -/

/-- The specifiers whose type does not depend on letters `l` in front of them. -/
def Spec.idle : Spec → Bool
  | .d | .u | .ld | .lu | .lld | .llu => false
  | _ => true

/-- The text between `o` and the first `c` at which the brackets of all kinds even out. -/
def Closes (o c : Char) (inner : List Char) : Prop :=
  Nesting.Misses isOpenBrace isCloseBrace (· = c) 0 (o :: inner) ∧
    Nesting.height isOpenBrace isCloseBrace (o :: (inner ++ [c])) = 0

/-- The components of a tuple, with their texts, in a body. Each stands behind the last one, but what
follows a tuple is read `again` from where that tuple starts. -/
def Stands (again : Bool) : List Char → List (List Char × TypeTree) → Prop
  | _, [] => True
  | body, x :: xs =>
    ∃ rest, body = x.1 ++ rest ∧ Stands again (if again && x.2.isTuple then body else rest) xs

/-- A text that is taken for a type, inside a reference (`ref`) or outside. -/
inductive Loose (again : Bool) : Bool → List Char → TypeTree → Prop
  | spec {ref : Bool} (sep : Sep) (amp : Bool) (n : Nat) (s : Spec) (hn : n ≤ 2)
      (hidle : n ≠ 0 → s.idle = true) :
      Loose again ref (TypeExpr.front sep amp ++ '%' :: (List.replicate n 'l' ++ s.text))
        (s.tree (ref || amp))
  | coll {ref : Bool} (sep : Sep) (amp : Bool) (k : CollKind) (n : Int) {text junk : List Char}
      {elem : TypeTree} (helem : Loose again (ref || amp) text elem)
      (hclose : Closes k.openBrace k.closeBrace (text ++ junk)) :
      Loose again ref (TypeExpr.front sep amp ++ k.openBrace :: (text ++ junk ++ [k.closeBrace]))
        (.coll k (ref || amp) n elem)
  | range {ref : Bool} (sep : Sep) (amp : Bool) {text junk : List Char} {elem : TypeTree}
      (helem : Loose again (ref || amp) text elem) (hclose : Closes '<' '>' (text ++ junk)) :
      Loose again ref (TypeExpr.front sep amp ++ '<' :: (text ++ junk ++ ['>']))
        (.range (ref || amp) elem)
  | tuple {ref : Bool} (sep : Sep) (amp : Bool) {body : List Char}
      {comps : List (List Char × TypeTree)} (hcomps : ∀ x ∈ comps, Loose again (ref || amp) x.1 x.2)
      (hstands : Stands again body comps) (hclose : Closes '(' ')' body) :
      Loose again ref (TypeExpr.front sep amp ++ '(' :: (body ++ [')']))
        (.tuple (ref || amp) (comps.map Prod.snd))

section Positions

variable {ts : CStr}

/-- A character of the string, in front of the text behind it. -/
theorem drop_of_charAt {cur : Nat} {c : Char} (hc : charAt ts cur = .ok c) (hne : c ≠ nul) :
    ts.drop cur = c :: ts.drop (cur + 1) := by
  unfold charAt at hc
  cases hget : ts[cur]? with
  | none =>
    rw [hget] at hc
    dsimp only at hc
    split_ifs at hc
    exact absurd (Except.ok.inj hc).symm hne
  | some d =>
    rw [hget] at hc
    obtain rfl := Except.ok.inj hc
    obtain ⟨hlt, rfl⟩ := List.getElem?_eq_some_iff.mp hget
    exact List.drop_eq_getElem_cons hlt

theorem le_length_of_charAt {cur : Nat} {c : Char} (hc : charAt ts cur = .ok c) :
    cur ≤ ts.length := by
  by_contra hlt
  unfold charAt at hc
  rw [List.getElem?_eq_none (by omega)] at hc
  dsimp only at hc
  rw [if_neg (by omega)] at hc
  cases hc

theorem Region.le_length {typestrEnd : Nat} (h : Region ts typestrEnd) :
    typestrEnd ≤ ts.length := by
  rcases h with hend | ⟨c, hc, -⟩
  · exact le_length_of_charAt hend
  · exact le_length_of_charAt hc

/-- The separators and the `&` that are stepped over. -/
theorem drop_front {start : Nat} {c : Char}
    (hc : charAt ts (skipSeparators (ts.drop start) start) = .ok c) :
    ∃ sep : Sep, ∃ amp : Bool, amp = decide (c = '&') ∧
      (if c = '&' then skipSeparators (ts.drop start) start + 1
        else skipSeparators (ts.drop start) start) = start + (TypeExpr.front sep amp).length ∧
      ts.drop start = TypeExpr.front sep amp ++ ts.drop (start + (TypeExpr.front sep amp).length) := by
  obtain ⟨seps, hseps⟩ : ∃ seps, (ts.drop start).takeWhile isSeparator = seps := ⟨_, rfl⟩
  have hskip : skipSeparators (ts.drop start) start = start + seps.length := by
    rw [skipSeparators_eq, hseps]
  have hdrop : ts.drop start = seps ++ ts.drop (start + seps.length) := by
    rw [← List.drop_drop, ← hseps]
    exact (List.prefix_iff_eq_append.mp (List.takeWhile_prefix _)).symm
  rw [hskip] at hc ⊢
  let sep : Sep := ⟨seps, fun d hd => List.mem_takeWhile_imp (hseps ▸ hd)⟩
  by_cases hamp : c = '&'
  · refine ⟨sep, true, (decide_eq_true hamp).symm, ?_, ?_⟩
    · rw [if_pos hamp, TypeExpr.front, List.length_append]
      rfl
    · have hc' := drop_of_charAt hc (hamp ▸ by decide)
      rw [TypeExpr.front, List.length_append, ← Nat.add_assoc]
      show ts.drop start = seps ++ ['&'] ++ ts.drop (start + seps.length + 1)
      rw [hdrop, hc', hamp, List.append_assoc]
      rfl
  · refine ⟨sep, false, (decide_eq_false hamp).symm, ?_, ?_⟩
    · rw [if_neg hamp, TypeExpr.front, List.length_append]
      rfl
    · rw [TypeExpr.front, if_neg Bool.false_ne_true, List.append_nil]
      exact hdrop

/-- The closing brace that is found, and the text in front of it. -/
theorem closes_of_findEndBrace {o c : Char} {cur typestrEnd i : Nat}
    (hregion : Region ts typestrEnd) (ho : ts.drop cur = o :: ts.drop (cur + 1)) (hne : o ≠ c)
    (h : findEndBrace ts c cur typestrEnd = .ok (some i)) :
    ∃ inner, ts.drop (cur + 1) = inner ++ c :: ts.drop (i + 1) ∧ i = cur + 1 + inner.length ∧
      i < typestrEnd ∧ Closes o c inner := by
  have hle := hregion.le_length
  have hcur : cur < ts.length := by
    by_contra hlt
    rw [List.drop_eq_nil_of_le (by omega)] at ho
    cases ho
  have hlt : cur < typestrEnd := by
    by_contra hge
    unfold findEndBrace at h
    rw [Int.toNat_sub, Nat.sub_eq_zero_of_le (by omega)] at h
    cases h
  rw [findEndBrace_between hlt.le hle] at h
  obtain ⟨v, a, u, hword, rfl, ha, hheight, hmisses⟩ :=
    Nesting.scan_eq_some (Except.ok.inj h)
  obtain rfl : a = c := of_decide_eq_true ha
  have hlen := length_between cur hle
  rw [hword] at hlen
  have hdrop : ts.drop cur = v ++ a :: (u ++ ts.drop typestrEnd) := by
    rw [← between_append_drop ts hlt.le, hword, List.append_assoc, List.cons_append]
  rw [ho] at hdrop
  cases v with
  | nil => exact absurd (List.cons.inj hdrop).1 hne
  | cons b inner =>
    obtain ⟨rfl, hinner⟩ := List.cons.inj hdrop
    change ts.drop (cur + 1) = inner ++ a :: (u ++ ts.drop typestrEnd) at hinner
    rw [List.length_append, List.length_cons, List.length_cons] at hlen
    refine ⟨inner, ?_, by rw [List.length_cons]; omega, by rw [List.length_cons]; omega, hmisses, ?_⟩
    · have hbehind : ts.drop (cur + (o :: inner).length + 1) = u ++ ts.drop typestrEnd := by
        have hsplit : cur + (o :: inner).length + 1 = cur + 1 + (inner.length + 1) := by
          rw [List.length_cons]; omega
        rw [hsplit, ← List.drop_drop, hinner, ← List.drop_drop, List.drop_left]
        rfl
      rw [hbehind]
      exact hinner
    · rwa [zero_add] at hheight

/-! ## Specifiers -/

/-- The size suffixes, with no suffix at all. -/
def suffixes : List (Int × List Char) :=
  [(0, []), (1, ['8']), (2, ['1', '6']), (4, ['3', '2']), (8, ['6', '4'])]

/-- The suffix that `parse_scalar_len_spec` steps over. -/
theorem parseScalarLenSpec_read {pos pos' : Nat} {len : Int}
    (h : parseScalarLenSpec ts pos = .ok (len, pos')) :
    len = -1 ∨ ∃ digits, (len, digits) ∈ suffixes ∧
      ts.drop (pos + 1) = digits ++ ts.drop (pos' + 1) ∧ pos' = pos + digits.length := by
  unfold parseScalarLenSpec at h
  obtain ⟨c, hc, h⟩ := bind_eq_ok.mp h
  replace hc := (charAtInt_eq_ok.mp hc).2
  by_cases h8 : c = '8'
  · obtain rfl := h8
    rw [if_pos rfl] at h
    obtain ⟨rfl, rfl⟩ := Prod.mk.inj (Except.ok.inj h)
    exact .inr ⟨['8'], by simp [suffixes], drop_of_charAt hc (by decide), rfl⟩
  rw [if_neg h8] at h
  -- without a second digit the suffix is empty or unknown
  have hrest : (if '0' ≤ c ∧ c ≤ '9' then Except.ok (-1, pos) else Except.ok (0, pos)) =
      Except.ok (ε := Stop) (len, pos') → len = -1 ∨ ∃ digits, (len, digits) ∈ suffixes ∧
        ts.drop (pos + 1) = digits ++ ts.drop (pos' + 1) ∧ pos' = pos + digits.length := by
    intro hif
    split_ifs at hif
    · obtain ⟨rfl, -⟩ := Prod.mk.inj (Except.ok.inj hif)
      exact .inl rfl
    · obtain ⟨rfl, rfl⟩ := Prod.mk.inj (Except.ok.inj hif)
      exact .inr ⟨[], by simp [suffixes], rfl, rfl⟩
  by_cases hfirst : c = '1' ∨ c = '3' ∨ c = '6'
  · have hdrop := drop_of_charAt hc (by rcases hfirst with rfl | rfl | rfl <;> decide)
    rw [if_pos hfirst] at h
    obtain ⟨d, hd, h⟩ := bind_eq_ok.mp h
    replace hd := (charAtInt_eq_ok.mp hd).2
    have hdrop' : d ≠ nul → ts.drop (pos + 1) = [c, d] ++ ts.drop (pos + 2 + 1) := fun hne => by
      rw [hdrop, drop_of_charAt hd hne]
      rfl
    dsimp only at h
    split_ifs at h with h16 h32 h64 hdigit
    · obtain ⟨rfl, rfl⟩ := Prod.mk.inj (Except.ok.inj h)
      obtain ⟨rfl, rfl⟩ := h16
      exact .inr ⟨['1', '6'], by simp [suffixes], hdrop' (by decide), rfl⟩
    · obtain ⟨rfl, rfl⟩ := Prod.mk.inj (Except.ok.inj h)
      obtain ⟨rfl, rfl⟩ := h32
      exact .inr ⟨['3', '2'], by simp [suffixes], hdrop' (by decide), rfl⟩
    · obtain ⟨rfl, rfl⟩ := Prod.mk.inj (Except.ok.inj h)
      obtain ⟨rfl, rfl⟩ := h64
      exact .inr ⟨['6', '4'], by simp [suffixes], hdrop' (by decide), rfl⟩
    · exact hrest (by rw [if_pos hdigit]; exact h)
    · exact hrest (by rw [if_neg hdigit]; exact h)
  · obtain ⟨h1, h3, h6⟩ : c ≠ '1' ∧ c ≠ '3' ∧ c ≠ '6' := by simpa using hfirst
    simp only [ok_bind, h1, h3, h6, false_and, or_self, if_false] at h
    exact hrest h

/-- The letters in front of a specifier. -/
def longLetters (isLong isLonglong : Bool) : List Char :=
  if isLong then if isLonglong then ['l', 'l'] else ['l'] else []

/-- `rest`, behind the letters at `cur`, goes on with a specifier that ends at `cur'`. -/
def ReadsSpec (ts : CStr) (letters rest : List Char) (ref : Bool) (cur cur' : Nat)
    (t : AdiakDatatype) : Prop :=
  ∃ w n s, n ≤ 2 ∧ (n ≠ 0 → Spec.idle s = true) ∧
    letters ++ w = List.replicate n 'l' ++ s.text ∧ t = (s.tree ref).datatype ∧
    rest = w ++ ts.drop cur' ∧ cur' = cur + w.length

/-- The text of a specifier and its type. -/
theorem scalarType_read {cur cur' : Nat} {isLong isLonglong ref : Bool} {c : Char}
    {t : AdiakDatatype} (h : scalarType ts isLong isLonglong ref cur c = .ok (t, cur')) :
    ReadsSpec ts (longLetters isLong isLonglong) (c :: ts.drop (cur + 1)) ref cur (cur' + 1) t := by
  -- a specifier that the letters do not change
  have hsuffix : ∀ {digits : List Char} {pos : Nat} (s : Spec), s.text = c :: digits →
      s.idle = true → t = (s.tree ref).datatype → ts.drop (cur + 1) = digits ++ ts.drop (pos + 1) →
      pos = cur + digits.length → cur' = pos → ReadsSpec ts (longLetters isLong isLonglong)
        (c :: ts.drop (cur + 1)) ref cur (cur' + 1) t := by
    rintro digits pos s htext hs ht hdrop hpos rfl
    refine ⟨s.text, (longLetters isLong isLonglong).length, s, ?_, fun _ => hs, ?_, ht, ?_, ?_⟩
    · cases isLong <;> cases isLonglong <;> decide
    · cases isLong <;> cases isLonglong <;> rfl
    · rw [htext, hdrop]
      rfl
    · rw [htext, List.length_cons]
      omega
  have hplain : ∀ s : Spec, s.text = [c] → s.idle = true →
      Except.ok ((s.tree ref).datatype, cur) = Except.ok (ε := Stop) (t, cur') →
      ReadsSpec ts (longLetters isLong isLonglong) (c :: ts.drop (cur + 1)) ref cur (cur' + 1) t := by
    intro s htext hs heq
    obtain ⟨rfl, rfl⟩ := Prod.mk.inj (Except.ok.inj heq)
    exact hsuffix s htext hs rfl rfl rfl rfl
  unfold scalarType at h
  split at h
  · obtain ⟨rfl, rfl⟩ := Prod.mk.inj (Except.ok.inj h)
    refine ⟨['d'], 0, if isLong then if isLonglong then .lld else .ld else .d, by decide,
      fun h => absurd rfl h, ?_, ?_, rfl, rfl⟩ <;> cases isLong <;> cases isLonglong <;> rfl
  · -- `u`
    obtain ⟨⟨len, pos⟩, hlen, h⟩ := bind_eq_ok.mp h
    rcases parseScalarLenSpec_read hlen with rfl | ⟨digits, hmem, hdrop, hpos⟩
    · cases h
    · simp only [suffixes, List.mem_cons, Prod.mk.injEq, List.not_mem_nil, or_false] at hmem
      rcases hmem with ⟨rfl, rfl⟩ | ⟨rfl, rfl⟩ | ⟨rfl, rfl⟩ | ⟨rfl, rfl⟩ | ⟨rfl, rfl⟩ <;>
        obtain ⟨rfl, rfl⟩ := Prod.mk.inj (Except.ok.inj h)
      · obtain rfl : pos = cur := hpos
        refine ⟨['u'], 0, if isLong then if isLonglong then .llu else .lu else .u, by decide,
          fun h => absurd rfl h, ?_, ?_, rfl, rfl⟩ <;> cases isLong <;> cases isLonglong <;> rfl
      · exact hsuffix .u8 rfl rfl rfl hdrop hpos rfl
      · exact hsuffix .u16 rfl rfl rfl hdrop hpos rfl
      · exact hsuffix .u32 rfl rfl rfl hdrop hpos rfl
      · exact hsuffix .u64 rfl rfl rfl hdrop hpos rfl
  · -- `i`
    obtain ⟨⟨len, pos⟩, hlen, h⟩ := bind_eq_ok.mp h
    rcases parseScalarLenSpec_read hlen with rfl | ⟨digits, hmem, hdrop, hpos⟩
    · cases h
    · simp only [suffixes, List.mem_cons, Prod.mk.injEq, List.not_mem_nil, or_false] at hmem
      rcases hmem with ⟨rfl, rfl⟩ | ⟨rfl, rfl⟩ | ⟨rfl, rfl⟩ | ⟨rfl, rfl⟩ | ⟨rfl, rfl⟩ <;>
        obtain ⟨rfl, rfl⟩ := Prod.mk.inj (Except.ok.inj h)
      · exact hsuffix .i rfl rfl rfl hdrop hpos rfl
      · exact hsuffix .i8 rfl rfl rfl hdrop hpos rfl
      · exact hsuffix .i16 rfl rfl rfl hdrop hpos rfl
      · exact hsuffix .i32 rfl rfl rfl hdrop hpos rfl
      · exact hsuffix .i64 rfl rfl rfl hdrop hpos rfl
  · -- `f`
    obtain ⟨⟨len, pos⟩, hlen, h⟩ := bind_eq_ok.mp h
    rcases parseScalarLenSpec_read hlen with rfl | ⟨digits, hmem, hdrop, hpos⟩
    · cases h
    · simp only [suffixes, List.mem_cons, Prod.mk.injEq, List.not_mem_nil, or_false] at hmem
      rcases hmem with ⟨rfl, rfl⟩ | ⟨rfl, rfl⟩ | ⟨rfl, rfl⟩ | ⟨rfl, rfl⟩ | ⟨rfl, rfl⟩
      · obtain ⟨rfl, rfl⟩ := Prod.mk.inj (Except.ok.inj h)
        exact hsuffix .f rfl rfl rfl hdrop hpos rfl
      · cases h
      · cases h
      · obtain ⟨rfl, rfl⟩ := Prod.mk.inj (Except.ok.inj h)
        exact hsuffix .f32 rfl rfl rfl hdrop hpos rfl
      · obtain ⟨rfl, rfl⟩ := Prod.mk.inj (Except.ok.inj h)
        exact hsuffix .f64 rfl rfl rfl hdrop hpos rfl
  · exact hplain .date rfl rfl h
  · exact hplain .timeval rfl rfl h
  · exact hplain .version rfl rfl (by rw [← h]; cases ref <;> rfl)
  · exact hplain .string rfl rfl (by rw [← h]; cases ref <;> rfl)
  · exact hplain .catstring rfl rfl (by rw [← h]; cases ref <;> rfl)
  · exact hplain .jsonstring rfl rfl (by rw [← h]; cases ref <;> rfl)
  · exact hplain .path rfl rfl (by rw [← h]; cases ref <;> rfl)
  · cases h

/-- The text behind a `%`. -/
theorem parseScalar_read {cur cur' : Nat} {ref : Bool} {t : AdiakDatatype}
    (h : parseScalar ts ref cur = .ok (t, cur')) :
    ReadsSpec ts [] (ts.drop cur) ref cur cur' t := by
  unfold parseScalar at h
  obtain ⟨c₁, hc₁, h⟩ := bind_eq_ok.mp h
  obtain ⟨c₂, hc₂, h⟩ := bind_eq_ok.mp h
  obtain ⟨c₃, hc₃, h⟩ := bind_eq_ok.mp h
  obtain ⟨⟨u, pos⟩, hu, h⟩ := bind_eq_ok.mp h
  obtain ⟨cur₁, hcur₁, h⟩ := bind_eq_ok.mp h
  obtain ⟨-, rfl⟩ := advance_eq_ok.mp hcur₁
  obtain ⟨rfl, rfl⟩ := Prod.mk.inj (Except.ok.inj h)
  replace hc₁ := (charAtInt_eq_ok.mp hc₁).2
  replace hc₂ := (charAtInt_eq_ok.mp hc₂).2
  replace hc₃ := (charAtInt_eq_ok.mp hc₃).2
  obtain ⟨w, n, s, hn, hidle, htext, rfl, hrest, hcur⟩ := scalarType_read hu
  have hne : c₃ ≠ nul := by
    rintro rfl
    cases hu
  refine ⟨longLetters (decide (c₁ = 'l')) (decide (c₁ = 'l') && decide (c₂ = 'l')) ++ w, n, s, hn,
    hidle, htext, rfl, ?_, ?_⟩
  · rw [List.append_assoc, ← hrest, ← drop_of_charAt hc₃ hne]
    by_cases h₁ : c₁ = 'l'
    · obtain rfl := h₁
      rw [drop_of_charAt hc₁ (by decide)]
      by_cases h₂ : c₂ = 'l'
      · obtain rfl := h₂
        have hdrop := drop_of_charAt hc₂ (by decide)
        simpa [longLetters] using hdrop
      · simp [longLetters, h₂]
    · simp [longLetters, h₁]
  · rw [hcur, List.length_append]
    by_cases h₁ : c₁ = 'l'
    · by_cases h₂ : c₂ = 'l' <;> simp [longLetters, h₁, h₂] <;> omega
    · simp [longLetters, h₁]

/-! ## The induction -/

/-- What a call makes of a type: the text, and the cursor behind it unless the type is a tuple. -/
def TakesType (ts : CStr) (typestrEnd start : Nat) (ref : Bool) (ap : List VArg) (new : Nat) :
    Parsed → Prop
  | (t, ap', new') => ∃ text tree, text <+: ts.drop start ∧ start + text.length ≤ typestrEnd ∧
      Loose true ref text tree ∧ t = tree.datatype ∧ ap = tree.args ++ ap' ∧
      new' = if tree.isTuple then new else start + text.length

/-- What a call makes of the end of the string. -/
def TakesNothing (ts : CStr) (typestrEnd start : Nat) (ap : List VArg) (new : Nat) : Parsed → Prop
  | (t, ap', new') => (∃ sep amp, ts.drop start = TypeExpr.front sep amp) ∧
      charAt ts typestrEnd = .ok nul ∧ t = .node zeroNode [] ∧ ap' = ap ∧ new' = new

/-- A call takes a type, or nothing at the end of the string. -/
def Takes (ts : CStr) (typestrEnd : Nat) (self : SelfCall) : Prop :=
  ∀ start ref ap new r, start ≤ typestrEnd → self start typestrEnd ref ap new = .ok r →
    TakesType ts typestrEnd start ref ap new r ∨ TakesNothing ts typestrEnd start ap new r

variable {typestrEnd : Nat} {self : SelfCall} {ref : Bool} {ap ap' : List VArg} {t : AdiakDatatype}

/-- In front of a closing brace a call takes a type. -/
theorem Takes.type {start new : Nat} {c : Char} {r : Parsed} (h : Takes ts typestrEnd self)
    (hend : charAt ts typestrEnd = .ok c) (hne : c ≠ nul) (hstart : start ≤ typestrEnd)
    (hself : self start typestrEnd ref ap new = .ok r) :
    TakesType ts typestrEnd start ref ap new r := by
  refine (h start ref ap new r hstart hself).resolve_right ?_
  rintro ⟨-, hnul, -⟩
  exact hne (Except.ok.inj (hend.symm.trans hnul))

/-- The loop over the components of a tuple. -/
theorem Takes.components {c : Char} (h : Takes ts typestrEnd self)
    (hend : charAt ts typestrEnd = .ok c) (hne : c ≠ nul) {n cur : Nat}
    {subs : List AdiakDatatype} (hcur : cur ≤ typestrEnd)
    (hsubs : parseComponents self typestrEnd ref n cur ap = .ok (subs, ap')) :
    ∃ comps : List (List Char × TypeTree), (∀ x ∈ comps, Loose true ref x.1 x.2) ∧
      Stands true ((ts.drop cur).take (typestrEnd - cur)) comps ∧ comps.length = n ∧
      subs = (comps.map Prod.snd).map TypeTree.datatype ∧
      ap = (comps.map Prod.snd).flatMap TypeTree.args ++ ap' := by
  induction n generalizing cur ap subs with
  | zero =>
    obtain ⟨rfl, rfl⟩ := Prod.mk.inj (Except.ok.inj hsubs)
    exact ⟨[], by simp, trivial, rfl, rfl, rfl⟩
  | succ n ih =>
    rw [parseComponents] at hsubs
    obtain ⟨⟨sub, ap₁, cur'⟩, hself, hsubs⟩ := bind_eq_ok.mp hsubs
    obtain ⟨⟨rest, ap₂⟩, hrest, hsubs⟩ := bind_eq_ok.mp hsubs
    obtain ⟨rfl, rfl⟩ := Prod.mk.inj (Except.ok.inj hsubs)
    obtain ⟨text, tree, ⟨behind, hbehind⟩, hle, hloose, rfl, rfl, rfl⟩ :=
      h.type hend hne hcur hself
    have hdrop : ts.drop (cur + text.length) = behind := by
      rw [← List.drop_drop, ← hbehind, List.drop_left]
    have hbody : (ts.drop cur).take (typestrEnd - cur) =
        text ++ (ts.drop (cur + text.length)).take (typestrEnd - (cur + text.length)) := by
      rw [hdrop, ← hbehind, List.take_append, List.take_of_length_le (by omega)]
      congr 2
      omega
    obtain ⟨comps, hcomps, hstands, rfl, rfl, rfl⟩ := ih (by split_ifs <;> omega) hrest
    refine ⟨(text, tree) :: comps, List.forall_mem_cons.mpr ⟨hloose, hcomps⟩,
      ⟨_, hbody, ?_⟩, rfl, rfl, by simp⟩
    cases htuple : tree.isTuple
    · rw [htuple] at hstands
      exact hstands
    · rw [htuple] at hstands
      exact hstands

/-- The text of a container, from what stands in front of it to what closes it. -/
theorem container_prefix {start i : Nat} {front inner : List Char} {o c : Char}
    (hfront : ts.drop start = front ++ ts.drop (start + front.length))
    (ho : ts.drop (start + front.length) = o :: ts.drop (start + front.length + 1))
    (hinner : ts.drop (start + front.length + 1) = inner ++ c :: ts.drop (i + 1))
    (hi : i = start + front.length + 1 + inner.length) :
    front ++ o :: (inner ++ [c]) <+: ts.drop start ∧
      start + (front ++ o :: (inner ++ [c])).length = i + 1 := by
  refine ⟨⟨ts.drop (i + 1), ?_⟩, ?_⟩
  · rw [hfront, ho, hinner]
    simp
  · simp only [List.length_append, List.length_cons, List.length_nil]
    omega

/-- A text in front of what closes a container, and the junk behind it. -/
theorem inner_eq {cur i : Nat} {text inner : List Char} {c : Char}
    (hinner : ts.drop cur = inner ++ c :: ts.drop (i + 1)) (hi : i = cur + inner.length)
    (htext : text <+: ts.drop cur) (hle : cur + text.length ≤ i) : ∃ junk, inner = text ++ junk := by
  have hprefix : text <+: inner :=
    List.prefix_of_prefix_length_le htext (hinner ▸ List.prefix_append _ _) (by omega)
  obtain ⟨junk, rfl⟩ := hprefix
  exact ⟨junk, rfl⟩

/-- A branch, given what the recursive calls take. -/
theorem takes_branch {start new : Nat} {sep : Sep} {amp : Bool} {c : Char} {r : Parsed}
    (hself : ∀ endBrace, Region ts endBrace → Takes ts endBrace self)
    (hregion : Region ts typestrEnd) (hnul : nul ∉ ts)
    (hfront : ts.drop start = TypeExpr.front sep amp ++
      ts.drop (start + (TypeExpr.front sep amp).length))
    (hle : start + (TypeExpr.front sep amp).length ≤ typestrEnd)
    (hc : charAt ts (start + (TypeExpr.front sep amp).length) = .ok c)
    (h : parseBranch self ts typestrEnd (ref || amp) ap new
      (start + (TypeExpr.front sep amp).length) c = .ok r) :
    TakesType ts typestrEnd start ref ap new r ∨ TakesNothing ts typestrEnd start ap new r := by
  set cur := start + (TypeExpr.front sep amp).length with hcur
  unfold parseBranch at h
  split_ifs at h with hcoll hrange htuple hscalar hend
  · -- a list or a set
    obtain ⟨k, rfl⟩ : ∃ k : CollKind, k.openBrace = c := by
      rcases hcoll with rfl | rfl
      · exact ⟨.list, rfl⟩
      · exact ⟨.set, rfl⟩
    have hkind : (if decide (k.openBrace = '{') = true then '}' else ']') = k.closeBrace := by
      cases k <;> rfl
    have hdtype : (if decide (k.openBrace = '{') = true then AdiakType.list else .set) = k.dtype := by
      cases k <;> rfl
    unfold parseListOrSet at h
    rw [hkind, hdtype] at h
    obtain ⟨brace, hbrace, h⟩ := bind_eq_ok.mp h
    cases brace with
    | none => cases h
    | some endBrace =>
      obtain ⟨⟨n, ap₁⟩, hn, h⟩ := bind_eq_ok.mp h
      obtain ⟨⟨sub, ap₂, _⟩, hsub, h⟩ := bind_eq_ok.mp h
      obtain rfl := Except.ok.inj h
      have ho := drop_of_charAt hc (by cases k <;> decide)
      obtain ⟨inner, hinner, hi, hlt, hcloses⟩ :=
        closes_of_findEndBrace hregion ho (by cases k <;> decide) hbrace
      obtain ⟨-, -, hclose⟩ := findEndBrace_eq_ok hbrace hc (by cases k <;> decide)
      have hregion' : Region ts endBrace := .inr ⟨_, hclose, by cases k <;> rfl⟩
      obtain ⟨text, tree, hprefix, htext, hloose, rfl, hargs, -⟩ :=
        (hself endBrace hregion').type hclose (by cases k <;> decide) (by omega) hsub
      obtain ⟨junk, rfl⟩ := inner_eq hinner hi hprefix htext
      obtain ⟨hpre, hlen⟩ := container_prefix hfront ho hinner hi
      refine .inl ⟨_, .coll k (ref || amp) n tree, hpre, by omega,
        .coll sep amp k n hloose hcloses, rfl, ?_, ?_⟩
      · rw [TypeTree.args_of_vaArgInt hn, hargs, TypeTree.args_coll, List.cons_append]
      · rw [hlen]
        rfl
  · -- a range
    obtain rfl := hrange
    unfold parseRange at h
    obtain ⟨brace, hbrace, h⟩ := bind_eq_ok.mp h
    cases brace with
    | none => cases h
    | some endBrace =>
      obtain ⟨⟨sub, ap₂, _⟩, hsub, h⟩ := bind_eq_ok.mp h
      obtain rfl := Except.ok.inj h
      have ho := drop_of_charAt hc (by decide)
      obtain ⟨inner, hinner, hi, hlt, hcloses⟩ :=
        closes_of_findEndBrace hregion ho (by decide) hbrace
      obtain ⟨-, -, hclose⟩ := findEndBrace_eq_ok hbrace hc (by decide)
      obtain ⟨text, tree, hprefix, htext, hloose, rfl, hargs, -⟩ :=
        (hself endBrace (.inr ⟨_, hclose, rfl⟩)).type hclose (by decide) (by omega) hsub
      obtain ⟨junk, rfl⟩ := inner_eq hinner hi hprefix htext
      obtain ⟨hpre, hlen⟩ := container_prefix hfront ho hinner hi
      refine .inl ⟨_, .range (ref || amp) tree, hpre, by omega, .range sep amp hloose hcloses, rfl,
        hargs, ?_⟩
      rw [hlen]
      rfl
  · -- a tuple
    obtain rfl := htuple
    unfold parseTuple at h
    obtain ⟨brace, hbrace, h⟩ := bind_eq_ok.mp h
    cases brace with
    | none => cases h
    | some endBrace =>
      obtain ⟨⟨n, ap₁⟩, hn, h⟩ := bind_eq_ok.mp h
      dsimp only at h
      split_ifs at h with hneg
      obtain ⟨⟨subs, ap₂⟩, hsubs, h⟩ := bind_eq_ok.mp h
      obtain rfl := Except.ok.inj h
      have ho := drop_of_charAt hc (by decide)
      obtain ⟨inner, hinner, hi, hlt, hcloses⟩ :=
        closes_of_findEndBrace hregion ho (by decide) hbrace
      obtain ⟨-, -, hclose⟩ := findEndBrace_eq_ok hbrace hc (by decide)
      obtain ⟨comps, hcomps, hstands, hcount, rfl, hargs⟩ :=
        (hself endBrace (.inr ⟨_, hclose, rfl⟩)).components hclose (by decide) (by omega) hsubs
      have hbody : (ts.drop (cur + 1)).take (endBrace - (cur + 1)) = inner := by
        rw [hinner, List.take_append_of_le_length (by omega), List.take_of_length_le (by omega)]
      rw [hbody] at hstands
      obtain ⟨hpre, hlen⟩ := container_prefix hfront ho hinner hi
      have hnum : ((comps.map Prod.snd).length : Int) = n := by
        rw [List.length_map, hcount]
        omega
      refine .inl ⟨_, .tuple (ref || amp) (comps.map Prod.snd), hpre, by omega,
        .tuple sep amp hcomps hstands hcloses, ?_, ?_, rfl⟩
      · rw [TypeTree.datatype, TypeTree.datatypes_eq_map, hnum]
      · rw [TypeTree.args_of_vaArgInt hn, hargs, TypeTree.args_tuple, hnum, List.cons_append]
  · -- a specifier
    obtain rfl := hscalar
    obtain ⟨⟨u, pos⟩, hu, h⟩ := bind_eq_ok.mp h
    obtain rfl := Except.ok.inj h
    have ho := drop_of_charAt hc (by decide)
    have hlt := hregion.lt hle hc (by decide) rfl
    obtain ⟨-, hpos⟩ := parseScalar_wellFormed hregion hlt hu
    obtain ⟨w, n, s, hn, hidle, htext, rfl, hrest, rfl⟩ := parseScalar_read hu
    obtain rfl : w = List.replicate n 'l' ++ s.text := htext
    have hlen : start + (TypeExpr.front sep amp ++ '%' :: (List.replicate n 'l' ++ s.text)).length =
        cur + 1 + (List.replicate n 'l' ++ s.text).length := by
      rw [List.length_append, List.length_cons]
      omega
    have hpre : TypeExpr.front sep amp ++ '%' :: (List.replicate n 'l' ++ s.text) <+:
        ts.drop start := by
      rw [hfront, ho, hrest, List.prefix_append_right_inj, List.cons_prefix_cons]
      exact ⟨rfl, List.prefix_append _ _⟩
    refine .inl ⟨_, s.tree (ref || amp), hpre, ?_, .spec sep amp n s hn hidle, rfl, ?_, ?_⟩
    · rw [hlen]
      exact hpos
    · cases s <;> rfl
    · rw [hlen]
      cases s <;> rfl
  · -- nothing
    obtain rfl := hend
    obtain rfl := Except.ok.inj h
    have hnil : ts.drop cur = [] := by
      refine List.drop_eq_nil_of_le ?_
      by_contra hlt
      rw [charAt, List.getElem?_eq_getElem (by omega)] at hc
      exact hnul (Except.ok.inj hc ▸ List.getElem_mem _)
    refine .inr ⟨⟨sep, amp, ?_⟩, hregion.eq_nul hnul hle hc, rfl, rfl, rfl⟩
    rw [hfront, hnil, List.append_nil]

/-- What a call of the parser takes in a region. -/
theorem parse_takes (hnul : nul ∉ ts) (depth : Nat) (hregion : Region ts typestrEnd) :
    Takes ts typestrEnd (parseTypestrHelper ts depth) := by
  induction depth generalizing typestrEnd with
  | zero =>
    intro start ref ap new r _ h
    cases h
  | succ depth ih =>
    intro start ref ap new r hstart h
    rw [parseTypestrHelper] at h
    split_ifs at h
    obtain ⟨c, hc, h⟩ := bind_eq_ok.mp h
    obtain ⟨d, hd, h⟩ := bind_eq_ok.mp h
    replace hc := (charAtInt_eq_ok.mp hc).2
    replace hd := (charAtInt_eq_ok.mp hd).2
    obtain ⟨sep, amp, hamp, hcur, hfront⟩ := drop_front hc
    have hle : start + (TypeExpr.front sep amp).length ≤ typestrEnd := by
      rw [← hcur]
      split_ifs with hc'
      · exact hregion.lt (hregion.skip_le hstart) hc (hc' ▸ by decide) (hc' ▸ rfl)
      · exact hregion.skip_le hstart
    rw [hcur] at hd h
    rw [← hamp] at h
    exact takes_branch (fun _ => ih) hregion hnul hfront hle hd h

end Positions

/-! ## The whole string -/

/-- A typestring that begins with a type. -/
def Begins (again : Bool) (typestr : List Char) (tree : TypeTree) : Prop :=
  ∃ text rest, cStr typestr = text ++ rest ∧ Loose again false text tree

/-- A typestring of separators, with a `&` or without. -/
def Blank (typestr : List Char) : Prop := ∃ sep amp, cStr typestr = TypeExpr.front sep amp

/-- The parser takes a type from the front of the string, or nothing from a blank one. -/
theorem parseTypestr_takes {typestr : List Char} {ap ap' : List VArg} {t : AdiakDatatype}
    (h : parseTypestr typestr ap = .ok (t, ap')) :
    (∃ tree, Begins true typestr tree ∧ t = tree.datatype ∧ ap = tree.args ++ ap') ∨
      Blank typestr ∧ t = .node zeroNode [] := by
  obtain ⟨new, hparse⟩ := parse_of_parseTypestr h
  have hregion : Region (cStr typestr) (cStr typestr).length := .inl (charAt_length _)
  rcases parse_takes (nul_notMem_cStr typestr) _ hregion _ _ _ _ _ (Nat.zero_le _) hparse with
    ⟨text, tree, ⟨rest, hrest⟩, -, hloose, rfl, rfl, -⟩ | ⟨⟨sep, amp, hfront⟩, -, rfl, -, -⟩
  · exact .inl ⟨tree, ⟨text, rest, hrest.symm, hloose⟩, rfl, rfl⟩
  · exact .inr ⟨⟨sep, amp, hfront⟩, rfl⟩

end Adiak
