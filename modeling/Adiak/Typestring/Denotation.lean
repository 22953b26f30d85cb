import Adiak.Typestring.WellFormed

/-!
# What a typestring denotes

The parser returns the tree an expression denotes, with every count consumed, exactly for the
expressions whose tuples survive being reread (`parseTypestr_denotes_iff`).

`Reads a b` says that a text denoting `a`, read with the counts of `b`, gives `b`. It differs from
equality up to lengths only at tuples: the components behind a tuple component `c` are read from
the text of `c`, so each of them has to be a tree that this text can give.
-/

namespace Adiak

namespace TypeTree

mutual

/-- The text of the first tree, read with the counts of the second, gives the second. -/
def Reads : TypeTree → TypeTree → Prop
  | .scalar s, b => b = .scalar s
  | .str k ref, b => b = .str k ref
  | .coll k ref _ elem, b => ∃ n elem', b = .coll k ref n elem' ∧ Reads elem elem'
  | .range ref elem, b => ∃ elem', b = .range ref elem' ∧ Reads elem elem'
  | .tuple ref comps, b => ∃ comps', b = .tuple ref comps' ∧ ReadsSeq comps comps'

/-- The same for the components of a tuple: a component that is a tuple serves all components
from there on. -/
def ReadsSeq : List TypeTree → List TypeTree → Prop
  | _, [] => True
  | [], _ :: _ => False
  | a :: as, b :: bs =>
    Reads a b ∧ if a.isTuple then ∀ b' ∈ bs, Reads a b' else ReadsSeq as bs

end

/-- Reading gives back the counts it took. -/
theorem args_of_vaArgInt {ap ap' : List VArg} {n : Int} (h : vaArgInt ap = .ok (n, ap')) :
    ap = .int n :: ap' := by
  unfold vaArgInt at h
  split at h
  · obtain ⟨rfl, rfl⟩ : _ = n ∧ _ = ap' := by simpa using h
    rfl
  · cases h

@[simp] theorem args_coll (k : CollKind) (ref : Bool) (n : Int) (elem : TypeTree) :
    (coll k ref n elem).args = .int n :: elem.args := rfl

@[simp] theorem args_range (ref : Bool) (elem : TypeTree) : (range ref elem).args = elem.args := rfl

@[simp] theorem args_tuple (ref : Bool) (comps : List TypeTree) :
    (tuple ref comps).args = .int comps.length :: comps.flatMap args := by
  rw [args, counts, countsList_eq_flatMap, List.map_cons, List.map_flatMap]
  rfl

theorem args_of_readComps {rs : List (Bool × CompReader)}
    (hrs : ∀ r ∈ rs, ∀ ap t ap', r.2 ap = .ok (t, ap') → ap = t.args ++ ap') {n : Nat}
    {ap ap' : List VArg} {ts : List TypeTree} (h : readComps rs n ap = .ok (ts, ap')) :
    ap = ts.flatMap args ++ ap' := by
  induction n generalizing rs ap ts with
  | zero =>
    rw [readComps] at h
    obtain ⟨rfl, rfl⟩ : [] = ts ∧ ap = ap' := by simpa using h
    rfl
  | succ n ih =>
    cases rs with
    | nil => cases h
    | cons r rs =>
      simp only [readComps, bind_eq_ok] at h
      obtain ⟨⟨t, ap₁⟩, hr, ⟨us, ap₂⟩, hus, h⟩ := h
      obtain ⟨rfl, rfl⟩ : t :: us = ts ∧ ap₂ = ap' := by simpa using h
      have hsub : ∀ r' ∈ (if r.1 then r :: rs else rs), r' ∈ r :: rs := by
        intro r' hr'
        split at hr'
        · exact hr'
        · exact List.mem_cons_of_mem r hr'
      rw [List.flatMap_cons, List.append_assoc, ← ih (fun r' hr' => hrs r' (hsub r' hr')) hus]
      exact hrs r List.mem_cons_self ap t ap₁ hr

/-- What reading a tuple takes. -/
theorem reread_tuple {ref : Bool} {comps : List TypeTree} {t : TypeTree} {ap ap' : List VArg}
    (h : (tuple ref comps).reread ap = .ok (t, ap')) :
    ∃ n ap₁ comps', vaArgInt ap = .ok (n, ap₁) ∧ 0 ≤ n ∧
      readComps (readers comps) n.toNat ap₁ = .ok (comps', ap') ∧ t = tuple ref comps' := by
  simp only [reread, bind_eq_ok] at h
  obtain ⟨⟨n, ap₁⟩, hn, h⟩ := h
  split_ifs at h with hneg
  obtain ⟨⟨comps', ap₂⟩, hcomps, h⟩ := bind_eq_ok.mp h
  obtain ⟨rfl, rfl⟩ : tuple ref comps' = t ∧ ap₂ = ap' := by simpa using h
  exact ⟨n, ap₁, comps', hn, not_lt.mp hneg, hcomps, rfl⟩

theorem mem_readers {ts : List TypeTree} {r : Bool × CompReader} (h : r ∈ readers ts) :
    ∃ t ∈ ts, r = (t.isTuple, fun ap => t.reread ap) := by
  induction ts with
  | nil => cases h
  | cons t ts ih =>
    rcases List.mem_cons.mp h with rfl | h
    · exact ⟨t, List.mem_cons_self, rfl⟩
    · obtain ⟨u, hu, rfl⟩ := ih h
      exact ⟨u, List.mem_cons_of_mem t hu, rfl⟩

/-- The counts taken from the arguments are those of the tree that was read. -/
theorem args_of_reread {a t : TypeTree} {ap ap' : List VArg} (h : a.reread ap = .ok (t, ap')) :
    ap = t.args ++ ap' := by
  induction a generalizing t ap ap' with
  | scalar s =>
    rw [reread] at h
    obtain ⟨rfl, rfl⟩ : scalar s = t ∧ ap = ap' := by simpa using h
    rfl
  | str k ref =>
    rw [reread] at h
    obtain ⟨rfl, rfl⟩ : str k ref = t ∧ ap = ap' := by simpa using h
    rfl
  | coll k ref n elem ih =>
    simp only [reread, bind_eq_ok] at h
    obtain ⟨⟨m, ap₁⟩, hm, ⟨elem', ap₂⟩, helem, h⟩ := h
    obtain ⟨rfl, rfl⟩ : coll k ref m elem' = t ∧ ap₂ = ap' := by simpa using h
    rw [args_of_vaArgInt hm, args_coll, List.cons_append, ← ih helem]
  | range ref elem ih =>
    simp only [reread, bind_eq_ok] at h
    obtain ⟨⟨elem', ap₁⟩, helem, h⟩ := h
    obtain ⟨rfl, rfl⟩ : range ref elem' = t ∧ ap₁ = ap' := by simpa using h
    rw [args_range, ← ih helem]
  | tuple ref comps ih =>
    obtain ⟨m, ap₁, comps', hm, hneg, hcomps, rfl⟩ := reread_tuple h
    have hlen : (comps'.length : Int) = m := by rw [length_readComps hcomps]; omega
    have hargs := args_of_readComps (fun r hr ap t ap' hread => by
      obtain ⟨c, hc, rfl⟩ := mem_readers hr
      exact ih c hc hread) hcomps
    rw [args_of_vaArgInt hm, hargs, args_tuple, List.cons_append, hlen]

theorem readsSeq_nil (as : List TypeTree) : ReadsSeq as [] := by
  cases as <;> trivial

/-- A component that is a tuple is read over and over. -/
theorem readsSeq_stuck {a : TypeTree} (ha : a.isTuple = true) (as bs : List TypeTree) :
    ReadsSeq (a :: as) bs ↔ ∀ b ∈ bs, Reads a b := by
  cases bs with
  | nil => simp [readsSeq_nil]
  | cons b bs => rw [ReadsSeq, if_pos ha, List.forall_mem_cons]

theorem readComps_iff {as : List TypeTree}
    (has : ∀ a ∈ as, ∀ b rest, a.reread (b.args ++ rest) = .ok (b, rest) ↔ Reads a b)
    (bs : List TypeTree) (rest : List VArg) :
    readComps (readers as) bs.length (bs.flatMap args ++ rest) = .ok (bs, rest) ↔
      ReadsSeq as bs := by
  induction bs generalizing as with
  | nil => simp [readComps, readsSeq_nil]
  | cons b bs ih =>
    cases as with
    | nil => simp [readers, readComps, ReadsSeq]
    | cons a as =>
      have ha := has a List.mem_cons_self b (bs.flatMap args ++ rest)
      -- the components behind `b` are read from `a` again or from the text behind it
      have htail : readComps (if a.isTuple then readers (a :: as) else readers as) bs.length
          (bs.flatMap args ++ rest) = .ok (bs, rest) ↔
          if a.isTuple then ∀ b' ∈ bs, Reads a b' else ReadsSeq as bs := by
        split_ifs with htuple
        · rw [ih has, readsSeq_stuck htuple]
        · exact ih fun a' ha' => has a' (List.mem_cons_of_mem a ha')
      rw [ReadsSeq, ← htail, ← ha, List.flatMap_cons, List.append_assoc, readers,
        List.length_cons, readComps]
      constructor
      · intro h
        simp only [bind_eq_ok] at h
        obtain ⟨⟨t, ap₁⟩, ht, ⟨us, ap₂⟩, hus, h⟩ := h
        obtain ⟨⟨rfl, rfl⟩, rfl⟩ : (t = b ∧ us = bs) ∧ ap₂ = rest := by simpa using h
        obtain rfl := List.append_cancel_left (args_of_reread ht)
        exact ⟨ht, hus⟩
      · rintro ⟨ht, hus⟩
        simp [ht, hus]

/-- Reading the text of `a` with the counts of `b` gives `b` exactly when `Reads a b`. -/
theorem reread_iff (a b : TypeTree) (rest : List VArg) :
    a.reread (b.args ++ rest) = .ok (b, rest) ↔ Reads a b := by
  induction a generalizing b rest with
  | scalar s =>
    rw [reread, Reads]
    constructor
    · intro h
      obtain ⟨h, -⟩ : scalar s = b ∧ b.args ++ rest = rest := by simpa using h
      exact h.symm
    · rintro rfl; rfl
  | str k ref =>
    rw [reread, Reads]
    constructor
    · intro h
      obtain ⟨h, -⟩ : str k ref = b ∧ b.args ++ rest = rest := by simpa using h
      exact h.symm
    · rintro rfl; rfl
  | coll k ref n elem ih =>
    rw [Reads]
    constructor
    · intro h
      simp only [reread, bind_eq_ok] at h
      obtain ⟨⟨m, ap₁⟩, hm, ⟨elem', ap₂⟩, helem, h⟩ := h
      obtain ⟨rfl, rfl⟩ : coll k ref m elem' = b ∧ ap₂ = rest := by simpa using h
      refine ⟨m, elem', rfl, (ih elem' ap₂).mp ?_⟩
      obtain ⟨-, rfl⟩ : m = m ∧ elem'.args ++ ap₂ = ap₁ := by simpa using args_of_vaArgInt hm
      exact helem
    · rintro ⟨m, elem', rfl, h⟩
      simp [reread, vaArgInt, (ih elem' rest).mpr h]
  | range ref elem ih =>
    rw [Reads]
    constructor
    · intro h
      simp only [reread, bind_eq_ok] at h
      obtain ⟨⟨elem', ap₁⟩, helem, h⟩ := h
      obtain ⟨rfl, rfl⟩ : range ref elem' = b ∧ ap₁ = rest := by simpa using h
      exact ⟨elem', rfl, (ih elem' ap₁).mp helem⟩
    · rintro ⟨elem', rfl, h⟩
      rw [reread, args_range, (ih elem' rest).mpr h]
      rfl
  | tuple ref comps ih =>
    rw [Reads]
    constructor
    · intro h
      obtain ⟨n, ap₁, comps', hn, hneg, hcomps, rfl⟩ := reread_tuple h
      refine ⟨comps', rfl, (readComps_iff ih comps' rest).mp ?_⟩
      have hargs := args_of_vaArgInt hn
      rw [args_tuple, List.cons_append, List.cons.injEq, VArg.int.injEq] at hargs
      obtain ⟨rfl, rfl⟩ := hargs
      simpa using hcomps
    · rintro ⟨comps', rfl, h⟩
      simp [reread, vaArgInt, (readComps_iff ih comps' rest).mpr h]

/-! ## A sufficient condition -/

mutual

/-- No tuple has a component behind a tuple component. -/
def TuplesLast : TypeTree → Prop
  | .scalar _ | .str _ _ => True
  | .coll _ _ _ elem => TuplesLast elem
  | .range _ elem => TuplesLast elem
  | .tuple _ comps => TuplesLastSeq comps

def TuplesLastSeq : List TypeTree → Prop
  | [] => True
  | t :: ts => TuplesLast t ∧ TuplesLastSeq ts ∧ (t.isTuple = true → ts = [])

end

/-- Tuples whose tuple components stand last are read as they are written. -/
theorem reads_self_of_tuplesLast {t : TypeTree} (h : TuplesLast t) : Reads t t := by
  induction t with
  | scalar s => rw [Reads]
  | str k ref => rw [Reads]
  | coll k ref n elem ih => exact ⟨n, elem, rfl, ih h⟩
  | range ref elem ih => exact ⟨elem, rfl, ih h⟩
  | tuple ref comps ih =>
    refine ⟨comps, rfl, ?_⟩
    replace h : TuplesLastSeq comps := h
    induction comps with
    | nil => exact readsSeq_nil []
    | cons t ts ihts =>
      obtain ⟨ht, hts, hlast⟩ := h
      refine ⟨ih t List.mem_cons_self ht, ?_⟩
      split_ifs with htuple
      · rw [hlast htuple]; simp
      · exact ihts (fun u hu => ih u (List.mem_cons_of_mem t hu)) hts

end TypeTree

/-! ## Long typestrings -/

/-- Narrowed to `int`, a longer length is too small. -/
theorem intLength_lt {ts : CStr} (h : 2 ^ 31 ≤ ts.length) : intLength ts + 1 < ts.length := by
  unfold intLength wrapInt Int.bmod
  dsimp only
  split_ifs <;> omega

section Long

variable {sep : Sep} {amp : Bool} {c d : Char} {w body : List Char} {ref : Bool}
  {ap : List VArg} {r : Parsed}

open TypeExpr (front)

/-- The cursor in front of a type has not overflowed. -/
theorem front_fits {depth : Nat} {typestrEnd : Int} {new : Nat} (hsep : isSeparator c = false)
    (h : parseTypestrHelper (front sep amp ++ c :: w) (depth + 1) 0 typestrEnd ref ap new = .ok r) :
    (front sep amp).length < 2 ^ 31 := by
  rw [parseTypestrHelper] at h
  split_ifs at h
  obtain ⟨a, ha, h⟩ := bind_eq_ok.mp h
  obtain ⟨b, hb, -⟩ := bind_eq_ok.mp h
  obtain ⟨-, ha⟩ := charAtInt_eq_ok.mp ha
  obtain ⟨hlt, -⟩ := charAtInt_eq_ok.mp hb
  rw [List.drop_zero] at ha hlt
  cases amp with
  | false =>
    have hfront : front sep false = sep.chars := List.append_nil _
    rw [hfront] at ha hlt ⊢
    rw [skipSeparators_append sep.isSep hsep, Nat.zero_add] at ha hlt
    split_ifs at hlt
    · omega
    · exact hlt
  | true =>
    have hassoc : front sep true ++ c :: w = sep.chars ++ '&' :: c :: w := by simp [front]
    rw [hassoc, skipSeparators_append sep.isSep rfl, Nat.zero_add] at ha hlt
    obtain rfl := Except.ok.inj ((charAt_append _ _ _).symm.trans ha)
    simpa [front] using hlt

/-- What is done behind the front of a type. -/
theorem branch_of_parse {depth : Nat} {typestrEnd : Int} {new : Nat} (hsep : isSeparator c = false)
    (hamp : c ≠ '&')
    (h : parseTypestrHelper (front sep amp ++ c :: w) (depth + 1) 0 typestrEnd ref ap new = .ok r) :
    parseBranch (parseTypestrHelper (front sep amp ++ c :: w) depth) (front sep amp ++ c :: w)
      typestrEnd (ref || amp) ap new (front sep amp).length c = .ok r := by
  have hne : ((0 : Nat) : Int) ≠ typestrEnd := by
    intro hzero
    rw [parseTypestrHelper, if_pos hzero] at h
    cases h
  have hfits : ([] : List Char).length + (front sep amp).length < 2 ^ 31 := by
    simpa using front_fits hsep h
  have hfront := TypeExpr.parse_front [] sep amp hsep hamp hfits hne depth ref ap new (w := w)
  rw [List.nil_append, List.length_nil, Nat.zero_add] at hfront
  exact hfront.symm.trans h

/-- No container closes in front of the narrowed length. -/
theorem container_fits {f : Option Nat → Except Stop Parsed} (hnone : f none = .error .null)
    (hstep : Nesting.step isOpenBrace isCloseBrace c = 1)
    (hstep' : Nesting.step isOpenBrace isCloseBrace d = -1)
    (hbody : Nesting.Nested isOpenBrace isCloseBrace Mates body)
    (h : (findEndBrace (front sep amp ++ c :: (body ++ [d])) d (front sep amp).length
      (intLength (front sep amp ++ c :: (body ++ [d]))) >>= f) = .ok r) :
    (front sep amp ++ c :: (body ++ [d])).length < 2 ^ 31 := by
  by_contra hlong
  have hlt := intLength_lt (not_lt.mp hlong)
  have hlen : (front sep amp ++ c :: (body ++ [d])).length =
      (front sep amp).length + body.length + 2 := by
    simp only [List.length_append, List.length_cons, List.length_nil]
    omega
  obtain ⟨brace, hbrace, h⟩ := bind_eq_ok.mp h
  cases brace with
  | none =>
    rw [hnone] at h
    cases h
  | some k =>
    have hfound := findEndBrace_mono (intLength_le _) hbrace
    rw [findEndBrace_wrap hstep hstep' hbody (by omega) le_rfl] at hfound
    obtain rfl := Option.some.inj (Except.ok.inj hfound)
    obtain ⟨-, hi, -⟩ := findEndBraceLoop_eq_ok hbrace
    omega

/-- A specifier ends in front of `2^31`. -/
theorem spec_fits {s : Spec} {x : AdiakDatatype × Nat}
    (h : parseScalar (front sep amp ++ '%' :: s.text) ref ((front sep amp).length + 1) = .ok x) :
    (front sep amp ++ '%' :: s.text).length < 2 ^ 31 := by
  have hassoc : front sep amp ++ '%' :: s.text = (front sep amp ++ ['%']) ++ s.text := by simp
  have hlen : (front sep amp).length + 1 = (front sep amp ++ ['%']).length := by simp
  rw [hassoc, hlen] at h
  obtain ⟨k, hx, hlt, hk⟩ := parseScalar_shift (p := 0) (q := x.2) (t := x.1) h
  have hempty : NoDigit [] := by
    intro c hc
    cases hc
  have hspec := parseScalar_spec [] s hempty (by cases s <;> decide) ref
  rw [List.nil_append, List.append_nil, List.length_nil, Nat.zero_add] at hspec
  obtain ⟨-, rfl⟩ := Prod.mk.inj (Except.ok.inj (hspec.symm.trans hk))
  rw [hassoc, List.length_append, ← hx]
  exact hlt

/-- The text of an expression that the parser accepts is shorter than `2^31`. -/
theorem text_fits {e : TypeExpr} {t : AdiakDatatype} {ap' : List VArg}
    (h : parseTypestr e.text ap = .ok (t, ap')) : e.text.length < 2 ^ 31 := by
  unfold parseTypestr at h
  rw [e.cStr_text] at h
  obtain ⟨r, h, -⟩ := bind_eq_ok.mp h
  cases e with
  | spec sep amp s =>
    rw [TypeExpr.text] at h ⊢
    obtain ⟨x, hx, -⟩ := bind_eq_ok.mp (branch_of_parse rfl (by decide) h)
    exact spec_fits hx
  | coll sep amp k n elem =>
    rw [TypeExpr.text] at h ⊢
    have hbranch := branch_of_parse (by cases k <;> rfl) (by cases k <;> decide) h
    rw [TypeExpr.parseBranch_coll] at hbranch
    exact container_fits rfl (by cases k <;> rfl) (by cases k <;> rfl) elem.nested_text hbranch
  | range sep amp elem =>
    rw [TypeExpr.text] at h ⊢
    have hbranch := branch_of_parse rfl (by decide) h
    rw [parseBranch, if_neg (by decide), if_pos rfl, parseRange] at hbranch
    exact container_fits rfl rfl rfl elem.nested_text hbranch
  | tuple sep amp comps =>
    rw [TypeExpr.text] at h ⊢
    have hbranch := branch_of_parse rfl (by decide) h
    rw [parseBranch, if_neg (by decide), if_neg (by decide), if_pos rfl, parseTuple] at hbranch
    exact container_fits rfl rfl rfl (TypeExpr.nested_texts comps) hbranch

end Long

/-! ## The parser and the denotation -/

/-- An expression whose tuples survive being reread parses to what it denotes. -/
theorem parseTypestr_of_reads {e : TypeExpr} (h : (e.tree false).Reads (e.tree false))
    (hfits : e.text.length < 2 ^ 31) (rest : List VArg) :
    parseTypestr e.text ((e.tree false).args ++ rest) = .ok ((e.tree false).datatype, rest) := by
  rw [e.parseTypestr_text hfits, (TypeTree.reread_iff _ _ rest).mpr h]
  rfl

theorem reads_of_parse {e : TypeExpr} {rest : List VArg}
    (h : parseTypestr e.text ((e.tree false).args ++ rest) = .ok ((e.tree false).datatype, rest)) :
    (e.tree false).Reads (e.tree false) ∧ e.text.length < 2 ^ 31 := by
  have hfits := text_fits h
  refine ⟨?_, hfits⟩
  rw [e.parseTypestr_text hfits] at h
  obtain ⟨⟨t, ap⟩, hread, h⟩ := bind_eq_ok.mp h
  obtain ⟨ht, rfl⟩ : t.datatype = (e.tree false).datatype ∧ ap = rest := by simpa using h
  rw [← TypeTree.reread_iff _ _ ap, hread, TypeTree.datatype_injective ht]

/-- Given the counts of an expression, in front of any other arguments, the parser returns the
datatype the expression denotes and leaves the other arguments, exactly when each component behind
a tuple component can be read from the text of that component and the typestring is shorter than
`2^31`. -/
theorem parseTypestr_denotes_iff (e : TypeExpr) (rest : List VArg) :
    parseTypestr e.text ((e.tree false).args ++ rest) = .ok ((e.tree false).datatype, rest) ↔
      (e.tree false).Reads (e.tree false) ∧ e.text.length < 2 ^ 31 :=
  ⟨reads_of_parse, fun ⟨h, hfits⟩ => parseTypestr_of_reads h hfits rest⟩

/-- `((%d,%d),%s)`: the string behind the tuple component is read as that tuple once more. -/
theorem parseTypestr_denotes_not_always :
    ¬ ∀ (e : TypeExpr) (rest : List VArg),
      parseTypestr e.text ((e.tree false).args ++ rest) = .ok ((e.tree false).datatype, rest) := by
  intro h
  have h' := h (.tuple .none false [.tuple .none false [.spec .none false .d,
    .spec .comma false .d], .spec .comma false .string]) []
  exact absurd (congrArg Except.isOk h') (by decide +kernel)

end Adiak
