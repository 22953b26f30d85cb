import Adiak.Typestring.Reread
import Adiak.Typestring.Toplevel

/-!
# What the parser accepts is well formed

Every datatype the parser returns is the datatype of a type tree, with one exception: a typestring
of separators gives the zeroed node.

1. A `Region` is what the parser is confined to: it ends at the end of the string or at the closing
   brace that was searched for, so the cursor stays inside (`Region.lt`, `Region.skip_le`).
2. `parse_wellFormed` is the induction over the recursion depth.
3. `parseTypestr_wellFormed` is the result for the whole parser.
-/

namespace Adiak

/-! ## Regions -/

/-- A place where the parser stops: the end of the string or a closing brace. -/
def Region (ts : CStr) (typestrEnd : Nat) : Prop :=
  charAt ts typestrEnd = .ok nul ∨ ∃ c, charAt ts typestrEnd = .ok c ∧ isCloseBrace c = true

theorem isSeparator_closeBrace {c : Char} (h : isCloseBrace c = true) : isSeparator c = false := by
  unfold isCloseBrace at h
  simp only [Bool.or_eq_true, decide_eq_true_eq] at h
  rcases h with ((rfl | rfl) | rfl) | rfl <;> rfl

/-- The cursor on any other character is in front of the end. -/
theorem Region.lt {ts : CStr} {typestrEnd cur : Nat} (h : Region ts typestrEnd)
    (hle : cur ≤ typestrEnd) {c : Char} (hc : charAt ts cur = .ok c) (hnul : c ≠ nul)
    (hbrace : isCloseBrace c = false) : cur < typestrEnd := by
  refine lt_of_le_of_ne hle ?_
  rintro rfl
  rcases h with hend | ⟨d, hd, hclose⟩
  · exact hnul (Except.ok.inj (hc.symm.trans hend))
  · obtain rfl := Except.ok.inj (hc.symm.trans hd)
    rw [hclose] at hbrace
    cases hbrace

/-- A terminating NUL inside a region is its end. -/
theorem Region.eq_nul {ts : CStr} {typestrEnd cur : Nat} (h : Region ts typestrEnd)
    (hnul : nul ∉ ts) (hle : cur ≤ typestrEnd) (hc : charAt ts cur = .ok nul) :
    charAt ts typestrEnd = .ok nul := by
  have hlen : ts.length ≤ cur := by
    by_contra hlt
    rw [not_le] at hlt
    rw [charAt, List.getElem?_eq_getElem hlt] at hc
    exact hnul (Except.ok.inj hc ▸ List.getElem_mem hlt)
  rcases h with hend | ⟨d, hd, -⟩
  · exact hend
  · have hge : ts.length ≤ typestrEnd := hlen.trans hle
    rw [charAt, List.getElem?_eq_none hge] at hd
    split_ifs at hd with heq
    rw [heq, charAt_length]

/-- Skipping separators stays in front of the end. -/
theorem Region.skip_le {ts : CStr} {typestrEnd : Nat} (h : Region ts typestrEnd) {cur : Nat}
    (hle : cur ≤ typestrEnd) : skipSeparators (ts.drop cur) cur ≤ typestrEnd := by
  generalize hl : ts.drop cur = l
  induction l generalizing cur with
  | nil => exact hle
  | cons c l ih =>
    have hc : charAt ts cur = .ok c := by
      have hget : ts[cur]? = some c := by
        rw [← Nat.add_zero cur, ← List.getElem?_drop, hl]
        rfl
      unfold charAt
      rw [hget]
    rw [skipSeparators]
    by_cases hsep : isSeparator c = true
    · rw [if_pos hsep]
      refine ih (h.lt hle hc ?_ ?_) ?_
      · rintro rfl
        cases hsep
      · by_contra hbrace
        rw [Bool.not_eq_false] at hbrace
        rw [isSeparator_closeBrace hbrace] at hsep
        cases hsep
      · rw [← List.drop_drop, hl]
        rfl
    · rw [if_neg hsep]
      exact hle

theorem findEndBraceLoop_eq_ok {ts : CStr} {endchar : Char} {n cur i : Nat} {depth : Int}
    (h : findEndBraceLoop ts endchar n cur depth = .ok (some i)) :
    cur ≤ i ∧ i < cur + n ∧ charAt ts i = .ok endchar := by
  induction n generalizing cur depth with
  | zero => cases h
  | succ n ih =>
    rw [findEndBraceLoop_succ] at h
    obtain ⟨c, hc, h⟩ := bind_eq_ok.mp h
    dsimp only at h
    split_ifs at h with hstop
    · obtain rfl := Option.some.inj (Except.ok.inj h)
      obtain rfl := hstop.2
      exact ⟨le_rfl, by omega, hc⟩
    · obtain ⟨hlo, hhi, hend⟩ := ih h
      exact ⟨by omega, by omega, hend⟩

/-- The closing brace that is found lies behind the opening one and inside the region. -/
theorem findEndBrace_eq_ok {ts : CStr} {o c : Char} {start i : Nat} {typestrEnd : Int}
    (h : findEndBrace ts c start typestrEnd = .ok (some i)) (ho : charAt ts start = .ok o)
    (hne : o ≠ c) : start < i ∧ (i : Int) < typestrEnd ∧ charAt ts i = .ok c := by
  obtain ⟨hlo, hhi, hc⟩ := findEndBraceLoop_eq_ok h
  refine ⟨lt_of_le_of_ne hlo ?_, by omega, hc⟩
  rintro rfl
  exact hne (Except.ok.inj (ho.symm.trans hc))

/-! ## Scalars -/

/-- A digit lies in front of the end. -/
theorem Region.digit_lt {ts : CStr} {typestrEnd p : Nat} {d : Char} (h : Region ts typestrEnd)
    (hp : p ≤ typestrEnd) (hd : charAt ts p = .ok d) (hdigit : '0' ≤ d ∧ d ≤ '9') :
    p < typestrEnd := by
  refine h.lt hp hd ?_ ?_
  · rintro rfl
    exact absurd hdigit (by decide)
  · by_contra hbrace
    rw [Bool.not_eq_false] at hbrace
    unfold isCloseBrace at hbrace
    simp only [Bool.or_eq_true, decide_eq_true_eq] at hbrace
    rcases hbrace with ((rfl | rfl) | rfl) | rfl <;> exact absurd hdigit (by decide)

/-- A size suffix stays in front of the end. -/
theorem parseScalarLenSpec_eq_ok {ts : CStr} {typestrEnd pos pos' : Nat} {len : Int}
    (hregion : Region ts typestrEnd) (hlt : pos < typestrEnd)
    (h : parseScalarLenSpec ts pos = .ok (len, pos')) : pos' < typestrEnd := by
  unfold parseScalarLenSpec at h
  obtain ⟨c, hc, h⟩ := bind_eq_ok.mp h
  replace hc := (charAtInt_eq_ok.mp hc).2
  by_cases h8 : c = '8'
  · rw [if_pos h8] at h
    obtain ⟨-, rfl⟩ := Prod.mk.inj (Except.ok.inj h)
    exact hregion.digit_lt hlt hc (h8 ▸ by decide)
  rw [if_neg h8] at h
  by_cases hfirst : c = '1' ∨ c = '3' ∨ c = '6'
  · have hlt₁ := hregion.digit_lt hlt hc (by rcases hfirst with rfl | rfl | rfl <;> decide)
    rw [if_pos hfirst] at h
    obtain ⟨d, hd, h⟩ := bind_eq_ok.mp h
    replace hd := (charAtInt_eq_ok.mp hd).2
    have hsecond : '0' ≤ d ∧ d ≤ '9' → pos + 2 < typestrEnd := hregion.digit_lt hlt₁ hd
    dsimp only at h
    split_ifs at h with h16 h32 h64
    · obtain ⟨-, rfl⟩ := Prod.mk.inj (Except.ok.inj h)
      exact hsecond (h16.2 ▸ by decide)
    · obtain ⟨-, rfl⟩ := Prod.mk.inj (Except.ok.inj h)
      exact hsecond (h32.2 ▸ by decide)
    · obtain ⟨-, rfl⟩ := Prod.mk.inj (Except.ok.inj h)
      exact hsecond (h64.2 ▸ by decide)
    · obtain ⟨-, rfl⟩ := Prod.mk.inj (Except.ok.inj h)
      exact hlt
    · obtain ⟨-, rfl⟩ := Prod.mk.inj (Except.ok.inj h)
      exact hlt
  · obtain ⟨h1, h3, h6⟩ : c ≠ '1' ∧ c ≠ '3' ∧ c ≠ '6' := by simpa using hfirst
    simp only [ok_bind, h1, h3, h6, false_and, or_self, if_false] at h
    split_ifs at h
    · obtain ⟨-, rfl⟩ := Prod.mk.inj (Except.ok.inj h)
      exact hlt
    · obtain ⟨-, rfl⟩ := Prod.mk.inj (Except.ok.inj h)
      exact hlt

/-- The base type of a specifier is one of the grammar's. -/
theorem scalarType_eq_ok {ts : CStr} {typestrEnd cur cur' : Nat} {isLong isLonglong ref : Bool}
    {c : Char} {t : AdiakDatatype} (hregion : Region ts typestrEnd) (hlt : cur < typestrEnd)
    (h : scalarType ts isLong isLonglong ref cur c = .ok (t, cur')) :
    (∃ s : Spec, t = (s.tree ref).datatype) ∧ cur' < typestrEnd := by
  unfold scalarType at h
  split at h
  · obtain ⟨rfl, rfl⟩ := Prod.mk.inj (Except.ok.inj h)
    refine ⟨?_, hlt⟩
    split_ifs
    · exact ⟨.lld, rfl⟩
    · exact ⟨.ld, rfl⟩
    · exact ⟨.d, rfl⟩
  · obtain ⟨⟨len, pos⟩, hlen, h⟩ := bind_eq_ok.mp h
    have hpos := parseScalarLenSpec_eq_ok hregion hlt hlen
    dsimp only at h
    split at h
    · obtain ⟨rfl, rfl⟩ := Prod.mk.inj (Except.ok.inj h)
      refine ⟨?_, hpos⟩
      split_ifs
      · exact ⟨.llu, rfl⟩
      · exact ⟨.lu, rfl⟩
      · exact ⟨.u, rfl⟩
    · obtain ⟨rfl, rfl⟩ := Prod.mk.inj (Except.ok.inj h); exact ⟨⟨.u8, rfl⟩, hpos⟩
    · obtain ⟨rfl, rfl⟩ := Prod.mk.inj (Except.ok.inj h); exact ⟨⟨.u16, rfl⟩, hpos⟩
    · obtain ⟨rfl, rfl⟩ := Prod.mk.inj (Except.ok.inj h); exact ⟨⟨.u32, rfl⟩, hpos⟩
    · obtain ⟨rfl, rfl⟩ := Prod.mk.inj (Except.ok.inj h); exact ⟨⟨.u64, rfl⟩, hpos⟩
    · cases h
  · obtain ⟨⟨len, pos⟩, hlen, h⟩ := bind_eq_ok.mp h
    have hpos := parseScalarLenSpec_eq_ok hregion hlt hlen
    dsimp only at h
    split at h
    · obtain ⟨rfl, rfl⟩ := Prod.mk.inj (Except.ok.inj h); exact ⟨⟨.i, rfl⟩, hpos⟩
    · obtain ⟨rfl, rfl⟩ := Prod.mk.inj (Except.ok.inj h); exact ⟨⟨.i32, rfl⟩, hpos⟩
    · obtain ⟨rfl, rfl⟩ := Prod.mk.inj (Except.ok.inj h); exact ⟨⟨.i8, rfl⟩, hpos⟩
    · obtain ⟨rfl, rfl⟩ := Prod.mk.inj (Except.ok.inj h); exact ⟨⟨.i16, rfl⟩, hpos⟩
    · obtain ⟨rfl, rfl⟩ := Prod.mk.inj (Except.ok.inj h); exact ⟨⟨.i64, rfl⟩, hpos⟩
    · cases h
  · obtain ⟨⟨len, pos⟩, hlen, h⟩ := bind_eq_ok.mp h
    have hpos := parseScalarLenSpec_eq_ok hregion hlt hlen
    dsimp only at h
    split at h
    · obtain ⟨rfl, rfl⟩ := Prod.mk.inj (Except.ok.inj h); exact ⟨⟨.f, rfl⟩, hpos⟩
    · obtain ⟨rfl, rfl⟩ := Prod.mk.inj (Except.ok.inj h); exact ⟨⟨.f64, rfl⟩, hpos⟩
    · obtain ⟨rfl, rfl⟩ := Prod.mk.inj (Except.ok.inj h); exact ⟨⟨.f32, rfl⟩, hpos⟩
    · cases h
  · obtain ⟨rfl, rfl⟩ := Prod.mk.inj (Except.ok.inj h); exact ⟨⟨.date, rfl⟩, hlt⟩
  · obtain ⟨rfl, rfl⟩ := Prod.mk.inj (Except.ok.inj h); exact ⟨⟨.timeval, rfl⟩, hlt⟩
  · obtain ⟨rfl, rfl⟩ := Prod.mk.inj (Except.ok.inj h); exact ⟨⟨.version, rfl⟩, hlt⟩
  · obtain ⟨rfl, rfl⟩ := Prod.mk.inj (Except.ok.inj h); exact ⟨⟨.string, rfl⟩, hlt⟩
  · obtain ⟨rfl, rfl⟩ := Prod.mk.inj (Except.ok.inj h); exact ⟨⟨.catstring, rfl⟩, hlt⟩
  · obtain ⟨rfl, rfl⟩ := Prod.mk.inj (Except.ok.inj h); exact ⟨⟨.jsonstring, rfl⟩, hlt⟩
  · obtain ⟨rfl, rfl⟩ := Prod.mk.inj (Except.ok.inj h); exact ⟨⟨.path, rfl⟩, hlt⟩
  · cases h

/-- Neither the end of the string nor a brace is a specifier. -/
theorem Region.scalar_lt {ts : CStr} {typestrEnd cur : Nat} {isLong isLonglong ref : Bool}
    {c : Char} {r : AdiakDatatype × Nat} (h : Region ts typestrEnd) (hle : cur ≤ typestrEnd)
    (hc : charAt ts cur = .ok c) (hr : scalarType ts isLong isLonglong ref cur c = .ok r) :
    cur < typestrEnd := by
  refine h.lt hle hc ?_ ?_
  · rintro rfl
    cases hr
  · by_contra hbrace
    rw [Bool.not_eq_false] at hbrace
    unfold isCloseBrace at hbrace
    simp only [Bool.or_eq_true, decide_eq_true_eq] at hbrace
    rcases hbrace with ((rfl | rfl) | rfl) | rfl <;> cases hr

/-- The same for the whole branch behind `%`. -/
theorem parseScalar_wellFormed {ts : CStr} {typestrEnd cur cur' : Nat} {ref : Bool}
    {t : AdiakDatatype} (hregion : Region ts typestrEnd) (hle : cur ≤ typestrEnd)
    (h : parseScalar ts ref cur = .ok (t, cur')) :
    (∃ s : Spec, t = (s.tree ref).datatype) ∧ cur' ≤ typestrEnd := by
  -- the prefix is stepped over letter by letter
  have hletter : ∀ {p : Nat} {c : Char} {P : Prop} [Decidable P], p ≤ typestrEnd →
      charAtInt ts p = .ok c → (P → c = 'l') → (if P then p + 1 else p) ≤ typestrEnd := by
    intro p c P _ hp hc hP
    split_ifs with hl
    · obtain rfl := hP hl
      exact hregion.lt hp (charAtInt_eq_ok.mp hc).2 (by decide) rfl
    · exact hp
  unfold parseScalar at h
  obtain ⟨c₁, hc₁, h⟩ := bind_eq_ok.mp h
  obtain ⟨c₂, hc₂, h⟩ := bind_eq_ok.mp h
  obtain ⟨c₃, hc₃, h⟩ := bind_eq_ok.mp h
  obtain ⟨⟨u, pos⟩, hu, h⟩ := bind_eq_ok.mp h
  obtain ⟨cur, hcur, h⟩ := bind_eq_ok.mp h
  obtain ⟨-, rfl⟩ := advance_eq_ok.mp hcur
  obtain ⟨rfl, rfl⟩ := Prod.mk.inj (Except.ok.inj h)
  have hll : (decide (c₁ = 'l') && decide (c₂ = 'l')) = true → c₂ = 'l' := fun hl =>
    of_decide_eq_true (Bool.and_eq_true_iff.mp hl).2
  have hle₂ := hletter (hletter hle hc₁ id) hc₂ hll
  have hlt := hregion.scalar_lt hle₂ (charAtInt_eq_ok.mp hc₃).2 hu
  obtain ⟨hs, hpos⟩ := scalarType_eq_ok hregion hlt hu
  exact ⟨hs, hpos⟩

/-! ## The induction -/

/-- The datatype of a tree. -/
def AdiakDatatype.WellFormed (t : AdiakDatatype) : Prop := ∃ tree : TypeTree, t = tree.datatype

/-- What a call returns: the datatype of a tree, or the zeroed node at the end of the string. -/
def Accepts (ts : CStr) (typestrEnd : Nat) (self : SelfCall) : Prop :=
  ∀ start ref ap new t ap' new', start ≤ typestrEnd → new ≤ typestrEnd →
    self start typestrEnd ref ap new = .ok (t, ap', new') →
      (t.WellFormed ∨ t = .node zeroNode [] ∧ charAt ts typestrEnd = .ok nul) ∧ new' ≤ typestrEnd

/-- In front of a closing brace only trees are accepted. -/
theorem Accepts.wellFormed {ts : CStr} {typestrEnd : Nat} {self : SelfCall} {c : Char}
    (h : Accepts ts typestrEnd self) (hend : charAt ts typestrEnd = .ok c) (hne : c ≠ nul)
    {start : Nat} {ref : Bool} {ap ap' : List VArg} {new new' : Nat} {t : AdiakDatatype}
    (hstart : start ≤ typestrEnd) (hnew : new ≤ typestrEnd)
    (hself : self start typestrEnd ref ap new = .ok (t, ap', new')) :
    t.WellFormed ∧ new' ≤ typestrEnd := by
  obtain ⟨ht, hnew'⟩ := h start ref ap new t ap' new' hstart hnew hself
  refine ⟨ht.resolve_right ?_, hnew'⟩
  rintro ⟨-, hnul⟩
  exact hne (Except.ok.inj (hend.symm.trans hnul))

/-- The loop over the components of a tuple. -/
theorem parseComponents_wellFormed {ts : CStr} {endBrace : Nat} {self : SelfCall} {c : Char}
    (h : Accepts ts endBrace self) (hend : charAt ts endBrace = .ok c) (hne : c ≠ nul) {ref : Bool}
    {n cur : Nat} {ap ap' : List VArg} {subs : List AdiakDatatype} (hcur : cur ≤ endBrace)
    (hsubs : parseComponents self endBrace ref n cur ap = .ok (subs, ap')) :
    ∃ comps : List TypeTree, subs = TypeTree.datatypes comps ∧ comps.length = n := by
  induction n generalizing cur ap subs with
  | zero =>
    obtain ⟨rfl, -⟩ := Prod.mk.inj (Except.ok.inj hsubs)
    exact ⟨[], rfl, rfl⟩
  | succ n ih =>
    rw [parseComponents] at hsubs
    obtain ⟨⟨sub, ap₁, cur'⟩, hself, hsubs⟩ := bind_eq_ok.mp hsubs
    obtain ⟨⟨rest, ap₂⟩, hrest, hsubs⟩ := bind_eq_ok.mp hsubs
    obtain ⟨rfl, rfl⟩ := Prod.mk.inj (Except.ok.inj hsubs)
    obtain ⟨⟨tree, rfl⟩, hcur'⟩ := h.wellFormed hend hne hcur hcur hself
    obtain ⟨comps, rfl, rfl⟩ := ih hcur' hrest
    exact ⟨tree :: comps, rfl, rfl⟩

/-- A branch, given what the recursive calls return. -/
theorem parseBranch_wellFormed {ts : CStr} {typestrEnd cur : Nat} {self : SelfCall} {ref : Bool}
    {ap ap' : List VArg} {new new' : Nat} {c : Char} {t : AdiakDatatype}
    (hself : ∀ endBrace, Region ts endBrace → Accepts ts endBrace self)
    (hregion : Region ts typestrEnd) (hnul : nul ∉ ts) (hle : cur ≤ typestrEnd)
    (hnew : new ≤ typestrEnd) (hc : charAt ts cur = .ok c)
    (h : parseBranch self ts typestrEnd ref ap new cur c = .ok (t, ap', new')) :
    (t.WellFormed ∨ t = .node zeroNode [] ∧ charAt ts typestrEnd = .ok nul) ∧
      new' ≤ typestrEnd := by
  unfold parseBranch at h
  split_ifs at h with hcoll hrange htuple hscalar hend
  · unfold parseListOrSet at h
    obtain ⟨brace, hbrace, h⟩ := bind_eq_ok.mp h
    cases brace with
    | none => cases h
    | some endBrace =>
      obtain ⟨⟨n, ap₁⟩, -, h⟩ := bind_eq_ok.mp h
      obtain ⟨⟨sub, ap₂, _⟩, hsub, h⟩ := bind_eq_ok.mp h
      obtain ⟨rfl, hrest⟩ := Prod.mk.inj (Except.ok.inj h)
      obtain ⟨-, rfl⟩ := Prod.mk.inj hrest
      obtain ⟨hlo, hhi, hclose⟩ := findEndBrace_eq_ok hbrace hc (by
        rcases hcoll with rfl | rfl <;> decide)
      have hregion' : Region ts endBrace := .inr ⟨_, hclose, by split_ifs <;> rfl⟩
      obtain ⟨⟨tree, rfl⟩, -⟩ := (hself endBrace hregion').wellFormed hclose
        (by split_ifs <;> decide) (by omega) (by omega) hsub
      refine ⟨.inl ⟨.coll (if c = '{' then .list else .set) ref n tree, ?_⟩, by omega⟩
      by_cases hl : c = '{' <;> simp only [hl] <;> rfl
  · unfold parseRange at h
    obtain ⟨brace, hbrace, h⟩ := bind_eq_ok.mp h
    cases brace with
    | none => cases h
    | some endBrace =>
      obtain ⟨⟨sub, ap₂, _⟩, hsub, h⟩ := bind_eq_ok.mp h
      obtain ⟨rfl, hrest⟩ := Prod.mk.inj (Except.ok.inj h)
      obtain ⟨-, rfl⟩ := Prod.mk.inj hrest
      obtain ⟨hlo, hhi, hclose⟩ := findEndBrace_eq_ok hbrace hc (hrange ▸ by decide)
      obtain ⟨⟨tree, rfl⟩, -⟩ := (hself endBrace (.inr ⟨_, hclose, rfl⟩)).wellFormed hclose
        (by decide) (by omega) (by omega) hsub
      exact ⟨.inl ⟨.range ref tree, rfl⟩, by omega⟩
  · unfold parseTuple at h
    obtain ⟨brace, hbrace, h⟩ := bind_eq_ok.mp h
    cases brace with
    | none => cases h
    | some endBrace =>
      obtain ⟨⟨n, ap₁⟩, -, h⟩ := bind_eq_ok.mp h
      dsimp only at h
      split_ifs at h with hneg
      obtain ⟨⟨subs, ap₂⟩, hsubs, h⟩ := bind_eq_ok.mp h
      obtain ⟨rfl, hrest⟩ := Prod.mk.inj (Except.ok.inj h)
      obtain ⟨-, rfl⟩ := Prod.mk.inj hrest
      obtain ⟨hlo, hhi, hclose⟩ := findEndBrace_eq_ok hbrace hc (htuple ▸ by decide)
      obtain ⟨comps, rfl, hlen⟩ := parseComponents_wellFormed
        (hself endBrace (.inr ⟨_, hclose, rfl⟩)) hclose (by decide) (by omega) hsubs
      have hcount : n = comps.length := by omega
      exact ⟨.inl ⟨.tuple ref comps, by rw [TypeTree.datatype, hcount]⟩, hnew⟩
  · obtain ⟨⟨u, pos⟩, hu, h⟩ := bind_eq_ok.mp h
    obtain ⟨rfl, hrest⟩ := Prod.mk.inj (Except.ok.inj h)
    obtain ⟨-, rfl⟩ := Prod.mk.inj hrest
    have hlt := hregion.lt hle hc (hscalar ▸ by decide) (hscalar ▸ rfl)
    obtain ⟨⟨s, rfl⟩, hpos⟩ := parseScalar_wellFormed hregion hlt hu
    exact ⟨.inl ⟨s.tree ref, rfl⟩, hpos⟩
  · obtain ⟨rfl, hrest⟩ := Prod.mk.inj (Except.ok.inj h)
    obtain ⟨-, rfl⟩ := Prod.mk.inj hrest
    exact ⟨.inr ⟨rfl, hregion.eq_nul hnul hle (hend ▸ hc)⟩, hnew⟩

/-- What a call of the parser returns in a region. -/
theorem parse_wellFormed {ts : CStr} (hnul : nul ∉ ts) (depth : Nat) {typestrEnd : Nat}
    (hregion : Region ts typestrEnd) : Accepts ts typestrEnd (parseTypestrHelper ts depth) := by
  induction depth generalizing typestrEnd with
  | zero =>
    intro start ref ap new t ap' new' _ _ h
    cases h
  | succ depth ih =>
    intro start ref ap new t ap' new' hstart hnew h
    rw [parseTypestrHelper] at h
    split_ifs at h
    obtain ⟨c, hc, h⟩ := bind_eq_ok.mp h
    obtain ⟨d, hd, h⟩ := bind_eq_ok.mp h
    replace hc := (charAtInt_eq_ok.mp hc).2
    replace hd := (charAtInt_eq_ok.mp hd).2
    have hskip := hregion.skip_le hstart
    have hamp : (if c = '&' then skipSeparators (ts.drop start) start + 1
        else skipSeparators (ts.drop start) start) ≤ typestrEnd := by
      split_ifs with hc'
      · exact hregion.lt hskip hc (hc' ▸ by decide) (hc' ▸ rfl)
      · exact hskip
    exact parseBranch_wellFormed (fun _ => ih) hregion hnul hamp hnew hd h

/-! ## The end bound of a whole string -/

section EndBound

variable {ts : CStr} {endchar : Char} {stop stop' : Int}

theorem findEndBraceLoop_mono {n m cur i : Nat} {depth : Int} (hle : n ≤ m)
    (h : findEndBraceLoop ts endchar n cur depth = .ok (some i)) :
    findEndBraceLoop ts endchar m cur depth = .ok (some i) := by
  induction n generalizing m cur depth with
  | zero => cases h
  | succ n ih =>
    obtain ⟨m, rfl⟩ : ∃ k, m = k + 1 := ⟨m - 1, by omega⟩
    rw [findEndBraceLoop_succ] at h ⊢
    obtain ⟨c, hc, h⟩ := bind_eq_ok.mp h
    rw [hc, ok_bind]
    dsimp only at h ⊢
    split_ifs at h ⊢
    · exact h
    · exact ih (by omega) h

/-- A brace that is found is found under any later bound. -/
theorem findEndBrace_mono {start i : Nat} (hle : stop ≤ stop')
    (h : findEndBrace ts endchar start stop = .ok (some i)) :
    findEndBrace ts endchar start stop' = .ok (some i) :=
  findEndBraceLoop_mono (by omega) h

theorem parseBranch_mono {self : SelfCall} {ref : Bool} {ap : List VArg} {new cur : Nat} {c : Char}
    {r : Parsed} (hle : stop ≤ stop') (h : parseBranch self ts stop ref ap new cur c = .ok r) :
    parseBranch self ts stop' ref ap new cur c = .ok r := by
  have hfind : ∀ {e : Char} {f : Option Nat → Except Stop Parsed},
      (f none = .error .null) → (findEndBrace ts e cur stop >>= f) = .ok r →
        (findEndBrace ts e cur stop' >>= f) = .ok r := by
    intro e f hnone hok
    obtain ⟨brace, hbrace, hok⟩ := bind_eq_ok.mp hok
    cases brace with
    | none =>
      rw [hnone] at hok
      cases hok
    | some endBrace => rwa [findEndBrace_mono hle hbrace]
  unfold parseBranch at h ⊢
  split_ifs at h ⊢
  · exact hfind rfl h
  · exact hfind rfl h
  · exact hfind rfl h
  · exact h
  · exact h

theorem intLength_le (ts : CStr) : intLength ts ≤ ts.length := by
  unfold intLength wrapInt Int.bmod
  dsimp only
  split_ifs <;> omega

/-- What the parser accepts, it accepts under the bound that `strlen` gives before it is narrowed. -/
theorem parse_of_parseTypestr {typestr : List Char} {ap ap' : List VArg} {t : AdiakDatatype}
    (h : parseTypestr typestr ap = .ok (t, ap')) :
    ∃ new, parseTypestrHelper (cStr typestr) ((cStr typestr).length + 1) 0 (cStr typestr).length
      false ap 0 = .ok (t, ap', new) := by
  unfold parseTypestr at h
  obtain ⟨⟨t', ap₁, new⟩, hparse, h⟩ := bind_eq_ok.mp h
  obtain ⟨rfl, rfl⟩ := Prod.mk.inj (Except.ok.inj h)
  refine ⟨new, ?_⟩
  rw [parseTypestrHelper] at hparse ⊢
  split_ifs at hparse with hend
  rw [if_neg ?_]
  · obtain ⟨c, hc, hparse⟩ := bind_eq_ok.mp hparse
    obtain ⟨d, hd, hparse⟩ := bind_eq_ok.mp hparse
    dsimp only
    rw [hc, ok_bind, hd]
    exact parseBranch_mono (intLength_le _) hparse
  · intro hzero
    apply hend
    rw [intLength, ← hzero]
    rfl

end EndBound

/-- Every accepted typestring gives the datatype of a tree or the zeroed node. -/
theorem parseTypestr_wellFormed {typestr : List Char} {ap ap' : List VArg} {t : AdiakDatatype}
    (h : parseTypestr typestr ap = .ok (t, ap')) : t.WellFormed ∨ t = .node zeroNode [] := by
  obtain ⟨new, hparse⟩ := parse_of_parseTypestr h
  have hregion : Region (cStr typestr) (cStr typestr).length := .inl (charAt_length _)
  obtain ⟨ht, -⟩ := parse_wellFormed (nul_notMem_cStr typestr) _ hregion _ _ _ _ _ _ _
    (Nat.zero_le _) (Nat.zero_le _) hparse
  exact ht.imp_right And.left

end Adiak
