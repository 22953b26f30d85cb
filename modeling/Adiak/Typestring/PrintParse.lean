import Adiak.Cpp.Typestring
import Adiak.Typestring.TwoPasses
import Adiak.Typestring.WellFormed

/-!
# Printing and parsing

What the parser makes of the string `adiak_type_to_string` prints for a datatype, given the counts
of the datatype.

1. `AdiakDatatype.shape` forgets `is_reference` and `num_bytes`. On datatypes of trees it is
   `TypeTree.shape`.
2. `TypeTree.text` is what is printed for a tree. Without ranges it is the text of a type expression
   that denotes the shape (`text_expr`, `tree_expr`).
3. The text of a range lacks its closing brace, so with a range inside the depth of braces never
   returns to zero (`above_text`) and nothing is parsed (`parseTypestr_of_ranges`).
4. `roundtrip_iff` is the result for everything `adiak_new_datatype` and the C++ interface build.
-/

namespace Adiak

open IntPrinter (adiakTypeToString adiakTypeToString_ok)

/-! ## Shapes -/

/-- The number of elements, copied or referenced. -/
def TypeNode.count (info : TypeNode) : Int := info.numElements + info.numRefElements

namespace AdiakDatatype

mutual

/-- The datatype without `is_reference` and `num_bytes`. -/
def shape : AdiakDatatype → AdiakDatatype
  | .null => .null
  | .node info subtype =>
    .node { dtype := info.dtype, numerical := info.numerical, numElements := info.count,
            isReference := false, numRefElements := 0, numBytes := 0 } (shapes subtype)

def shapes : List AdiakDatatype → List AdiakDatatype
  | [] => []
  | t :: ts => shape t :: shapes ts

end

mutual

/-- List and set lengths and tuple arities in preorder, as arguments. -/
def countArgs : AdiakDatatype → List VArg
  | .null => []
  | .node info subtype =>
    (if info.dtype = .list ∨ info.dtype = .set ∨ info.dtype = .tuple then [.int info.count]
      else []) ++ countArgsSeq subtype

def countArgsSeq : List AdiakDatatype → List VArg
  | [] => []
  | t :: ts => countArgs t ++ countArgsSeq ts

end

end AdiakDatatype

namespace TypeTree

/-- The tree with full widths and without references. -/
def shape (t : TypeTree) : TypeTree := t.map ScalarKind.plain fun _ => false

theorem shape_tuple (ref : Bool) (comps : List TypeTree) :
    (tuple ref comps).shape = .tuple false (comps.map shape) := map_tuple ref comps

theorem map_plain_shape (t : TypeTree) : t.shape.map ScalarKind.plain id = t.shape := by
  have hplain : ScalarKind.plain ∘ ScalarKind.plain = ScalarKind.plain := by
    funext s
    cases s <;> rfl
  unfold shape
  rw [map_map, hplain]
  rfl

theorem shape_shape (t : TypeTree) : t.shape.shape = t.shape := by
  have hplain : ScalarKind.plain ∘ ScalarKind.plain = ScalarKind.plain := by
    funext s
    cases s <;> rfl
  unfold shape
  rw [map_map, hplain]
  rfl

/-- The node of a container forgets that it is a reference. -/
theorem shape_containerNode (d : AdiakType) (ref : Bool) (n : Int)
    (subtype : List AdiakDatatype) :
    (AdiakDatatype.node (containerNode d ref n) subtype).shape =
      .node { containerNode d false n with numBytes := 0 } (AdiakDatatype.shapes subtype) := by
  rw [AdiakDatatype.shape, TypeNode.count, containerNode_count]
  rfl

theorem shape_datatype (t : TypeTree) : t.datatype.shape = t.shape.datatype.eraseBytes := by
  induction t with
  | scalar s => cases s <;> rfl
  | str k ref => cases k <;> cases ref <;> rfl
  | coll k ref n elem ih =>
    rw [datatype, shape_containerNode, AdiakDatatype.shapes, AdiakDatatype.shapes, ih]
    rfl
  | range ref elem ih =>
    rw [datatype, shape_containerNode, AdiakDatatype.shapes, AdiakDatatype.shapes, ih]
    rfl
  | tuple ref comps ih =>
    have hcomps : AdiakDatatype.shapes (datatypes comps) =
        AdiakDatatype.eraseBytesSeq (datatypes (comps.map shape)) := by
      induction comps with
      | nil => rfl
      | cons t ts ihts =>
        rw [datatypes, AdiakDatatype.shapes, ih t List.mem_cons_self,
          ihts fun u hu => ih u (List.mem_cons_of_mem t hu)]
        rfl
    rw [datatype, shape_containerNode, hcomps, shape_tuple, datatype, List.length_map]
    rfl

/-- Trees of the same shape. -/
theorem shape_eq_iff {t u : TypeTree} : t.datatype.shape = u.datatype.shape ↔ t.shape = u.shape := by
  rw [shape_datatype, shape_datatype, eraseBytes_eq_iff, map_plain_shape, map_plain_shape]

theorem countArgs_datatype (t : TypeTree) : t.datatype.countArgs = t.args := by
  induction t with
  | scalar s => cases s <;> rfl
  | str k ref => cases k <;> cases ref <;> rfl
  | coll k ref n elem ih =>
    rw [datatype, AdiakDatatype.countArgs, AdiakDatatype.countArgsSeq, AdiakDatatype.countArgsSeq,
      ih, TypeNode.count, containerNode_count, List.append_nil, args_coll]
    cases k <;> rfl
  | range ref elem ih =>
    rw [datatype, AdiakDatatype.countArgs, AdiakDatatype.countArgsSeq, AdiakDatatype.countArgsSeq,
      ih, List.append_nil, args_range]
    rfl
  | tuple ref comps ih =>
    have hcomps : AdiakDatatype.countArgsSeq (datatypes comps) = comps.flatMap args := by
      induction comps with
      | nil => rfl
      | cons t ts ihts =>
        rw [datatypes, AdiakDatatype.countArgsSeq, ih t List.mem_cons_self,
          ihts fun u hu => ih u (List.mem_cons_of_mem t hu), List.flatMap_cons]
    rw [datatype, AdiakDatatype.countArgs, hcomps, TypeNode.count, containerNode_count, args_tuple]
    rfl

end TypeTree

/-! ## The printed text -/

/-- The specifier printed for a scalar: widths are not printed. -/
def ScalarKind.spec : ScalarKind → Spec
  | .long => .ld
  | .ulong => .lu
  | .longlong => .lld
  | .ulonglong => .llu
  | .int | .i8 | .i16 => .d
  | .uint | .u8 | .u16 => .u
  | .double | .float => .f
  | .date => .date
  | .timeval => .timeval

def StringKind.spec : StringKind → Spec
  | .version => .version
  | .string => .string
  | .catstring => .catstring
  | .jsonstring => .jsonstring
  | .path => .path

namespace TypeTree

mutual

/-- What `adiak_type_to_string` prints for a tree. -/
def text : TypeTree → CStr
  | .scalar s => '%' :: s.spec.text
  | .str k _ => '%' :: k.spec.text
  | .coll k _ _ elem => k.openBrace :: (text elem ++ [k.closeBrace])
  | .range _ elem => '<' :: text elem
  | .tuple _ comps => '(' :: (texts comps ++ [')'])

def texts : List TypeTree → CStr
  | [] => []
  | t :: ts => text t ++ ((if ts.isEmpty then [] else Sep.commaSpace.chars) ++ texts ts)

end

mutual

/-- The number of ranges in a tree. -/
def ranges : TypeTree → Nat
  | .scalar _ | .str _ _ => 0
  | .coll _ _ _ elem => ranges elem
  | .range _ elem => ranges elem + 1
  | .tuple _ comps => rangesSeq comps

def rangesSeq : List TypeTree → Nat
  | [] => 0
  | t :: ts => ranges t + rangesSeq ts

end

mutual

/-- The type expression whose text is printed for a tree without ranges. -/
def expr : TypeTree → Sep → TypeExpr
  | .scalar s, sep => .spec sep false s.spec
  | .str k _, sep => .spec sep false k.spec
  | .coll k _ n elem, sep => .coll sep false k n (expr elem .none)
  | .range _ elem, sep => .range sep false (expr elem .none)
  | .tuple _ comps, sep => .tuple sep false (exprs comps .none)

def exprs : List TypeTree → Sep → List TypeExpr
  | [], _ => []
  | t :: ts, sep => expr t sep :: exprs ts .commaSpace

end

/-- The printer writes the text. -/
theorem typeText_datatype (t : TypeTree) : typeText false t.datatype = .ok t.text := by
  induction t with
  | scalar s => cases s <;> rfl
  | str k ref => cases k <;> cases ref <;> rfl
  | coll k ref n elem ih =>
    rw [datatype, typeText, typeTexts, typeTexts, ih]
    cases k <;> simp [containerNode, CollKind.dtype, typeWords, text, CollKind.openBrace,
      CollKind.closeBrace]
  | range ref elem ih =>
    rw [datatype, typeText, typeTexts, typeTexts, ih]
    simp [containerNode, typeWords, text]
  | tuple ref comps ih =>
    have hcomps : typeTexts false (datatypes comps) = .ok (texts comps) := by
      induction comps with
      | nil => rfl
      | cons t ts ihts =>
        have hempty : (datatypes ts).isEmpty = ts.isEmpty := by cases ts <;> rfl
        rw [datatypes, typeTexts, ih t List.mem_cons_self,
          ihts fun u hu => ih u (List.mem_cons_of_mem t hu), hempty]
        rfl
    rw [datatype, typeText, hcomps]
    rfl

/-- The expression denotes the shape. -/
theorem tree_expr (t : TypeTree) (sep : Sep) : (t.expr sep).tree false = t.shape := by
  induction t generalizing sep with
  | scalar s => cases s <;> rfl
  | str k ref => cases k <;> rfl
  | coll k ref n elem ih =>
    rw [expr, TypeExpr.tree, Bool.or_false, ih]
    rfl
  | range ref elem ih =>
    rw [expr, TypeExpr.tree, Bool.or_false, ih]
    rfl
  | tuple ref comps ih =>
    have hcomps : ∀ sep, TypeExpr.trees (exprs comps sep) false = comps.map shape := by
      induction comps with
      | nil => intro sep; rfl
      | cons t ts ihts =>
        intro sep
        rw [exprs, TypeExpr.trees, ih t List.mem_cons_self,
          ihts fun u hu => ih u (List.mem_cons_of_mem t hu), List.map_cons]
    rw [expr, TypeExpr.tree, Bool.or_false, hcomps, shape_tuple]

/-- Without ranges, the printed text is the text of the expression. -/
theorem text_expr {t : TypeTree} (h : t.ranges = 0) (sep : Sep) :
    (t.expr sep).text = sep.chars ++ t.text := by
  induction t generalizing sep with
  | scalar s => simp [expr, TypeExpr.text, TypeExpr.front, text]
  | str k ref => simp [expr, TypeExpr.text, TypeExpr.front, text]
  | coll k ref n elem ih =>
    simp [expr, TypeExpr.text, TypeExpr.front, text, ih h, Sep.none]
  | range ref elem ih => cases h
  | tuple ref comps ih =>
    have hcomps : ∀ sep, rangesSeq comps = 0 → TypeExpr.texts (exprs comps sep) =
        (if comps.isEmpty then [] else sep.chars) ++ texts comps := by
      clear h
      induction comps with
      | nil => intro sep _; rfl
      | cons t ts ihts =>
        intro sep h
        obtain ⟨ht, hts⟩ := Nat.add_eq_zero_iff.mp h
        rw [exprs, TypeExpr.texts, texts, ih t List.mem_cons_self ht,
          ihts (fun u hu => ih u (List.mem_cons_of_mem t hu)) _ hts, List.append_assoc]
        rfl
    have hnone : (if comps.isEmpty then [] else Sep.none.chars) = [] := by split_ifs <;> rfl
    rw [expr, TypeExpr.text, hcomps .none h, hnone, text, TypeExpr.front]
    simp

/-! ## Unbalanced texts -/

section Depth

open Nesting

theorem step_openBrace (k : CollKind) : Nesting.step isOpenBrace isCloseBrace k.openBrace = 1 := by
  cases k <;> rfl

theorem step_closeBrace (k : CollKind) : Nesting.step isOpenBrace isCloseBrace k.closeBrace = -1 := by
  cases k <;> rfl

theorem step_spec (s : Spec) : ∀ c ∈ '%' :: s.text, Nesting.step isOpenBrace isCloseBrace c = 0 := by
  intro c hc
  obtain ⟨ho, hcl⟩ := TypeExpr.letters_spec s c hc
  exact step_eq_zero ho hcl

theorem step_comma (b : Bool) : ∀ c ∈ if b then [] else Sep.commaSpace.chars,
    Nesting.step isOpenBrace isCloseBrace c = 0 := by
  cases b <;> simp [Sep.commaSpace, Nesting.step, isOpenBrace, isCloseBrace]

theorem height_texts {ts : List TypeTree}
    (hts : ∀ t ∈ ts, Nesting.height isOpenBrace isCloseBrace t.text = t.ranges) :
    Nesting.height isOpenBrace isCloseBrace (texts ts) = rangesSeq ts := by
  induction ts with
  | nil => rfl
  | cons t ts ih =>
    rw [texts, rangesSeq, height_append, height_append, height_eq_zero _ _ (step_comma _),
      hts t List.mem_cons_self, ih fun u hu => hts u (List.mem_cons_of_mem t hu)]
    omega

/-- Every range leaves one brace open. -/
theorem height_text (t : TypeTree) :
    Nesting.height isOpenBrace isCloseBrace t.text = t.ranges := by
  induction t with
  | scalar s => exact height_eq_zero _ _ (step_spec s.spec)
  | str k ref => exact height_eq_zero _ _ (step_spec k.spec)
  | coll k ref n elem ih =>
    rw [text, ranges, height_cons, height_append, height_cons, height_nil, ih, step_openBrace,
      step_closeBrace]
    omega
  | range ref elem ih =>
    have hstep : Nesting.step isOpenBrace isCloseBrace '<' = 1 := rfl
    rw [text, ranges, height_cons, ih, hstep]
    omega
  | tuple ref comps ih =>
    have ho : Nesting.step isOpenBrace isCloseBrace '(' = 1 := rfl
    have hc : Nesting.step isOpenBrace isCloseBrace ')' = -1 := rfl
    rw [text, ranges, height_cons, height_append, height_cons, height_nil, height_texts ih, ho,
      hc]
    omega

theorem above_texts {ts : List TypeTree}
    (hts : ∀ t ∈ ts, ∀ d : Int, 0 ≤ d → 0 < d + t.ranges → Above isOpenBrace isCloseBrace d t.text)
    {d : Int} (hd : 0 < d) : Above isOpenBrace isCloseBrace d (texts ts) := by
  induction ts generalizing d with
  | nil => trivial
  | cons t ts ih =>
    have hcomma : Above isOpenBrace isCloseBrace (d + t.ranges)
        (if ts.isEmpty then [] else Sep.commaSpace.chars) :=
      Above.of_step_eq_zero (by omega) (step_comma _)
    rw [texts]
    refine (hts t List.mem_cons_self d (by omega) (by omega)).append ?_
    rw [height_text]
    refine hcomma.append ?_
    rw [height_eq_zero _ _ (step_comma _)]
    exact ih (fun u hu => hts u (List.mem_cons_of_mem t hu)) (by omega)

/-- The counter stays positive along a printed text if it starts at a positive depth or if there is
a range inside. -/
theorem above_text (t : TypeTree) {d : Int} (h0 : 0 ≤ d) (hd : 0 < d + t.ranges) :
    Above isOpenBrace isCloseBrace d t.text := by
  induction t generalizing d with
  | scalar s => exact Above.of_step_eq_zero (by simpa [ranges] using hd) (step_spec s.spec)
  | str k ref => exact Above.of_step_eq_zero (by simpa [ranges] using hd) (step_spec k.spec)
  | coll k ref n elem ih =>
    rw [ranges] at hd
    rw [text, Above, step_openBrace]
    refine ⟨by omega, (ih (by omega) (by omega)).append ?_⟩
    rw [height_text, Above, step_closeBrace]
    exact ⟨by omega, trivial⟩
  | range ref elem ih =>
    have hstep : Nesting.step isOpenBrace isCloseBrace '<' = 1 := rfl
    rw [text, Above, hstep]
    exact ⟨by omega, ih (by omega) (by omega)⟩
  | tuple ref comps ih =>
    have ho : Nesting.step isOpenBrace isCloseBrace '(' = 1 := rfl
    have hc : Nesting.step isOpenBrace isCloseBrace ')' = -1 := rfl
    rw [ranges] at hd
    rw [text, Above, ho]
    refine ⟨by omega, (above_texts (fun t ht d h0 hd => ih t ht h0 hd) (by omega)).append ?_⟩
    rw [height_texts fun t _ => height_text t, Above, hc]
    exact ⟨by omega, trivial⟩

end Depth

theorem nul_notMem_text (t : TypeTree) : nul ∉ t.text :=
  nul_notMem_typeText t.typeText_datatype

/-- The first character of a container's text, which nothing stands in front of. -/
theorem text_of_ranges {t : TypeTree} (h : 0 < t.ranges) :
    ∃ o w, t.text = o :: w ∧ (o = '{' ∨ o = '[' ∨ o = '<' ∨ o = '(') := by
  cases t with
  | scalar s => cases h
  | str k ref => cases h
  | coll k ref n elem => cases k <;> exact ⟨_, _, rfl, by decide⟩
  | range ref elem => exact ⟨_, _, rfl, by decide⟩
  | tuple ref comps => exact ⟨_, _, rfl, by decide⟩

/-- A container without a closing brace is rejected. -/
theorem parseBranch_noBrace {self : SelfCall} {ts : CStr} {typestrEnd : Int} {cur new : Nat} {ref : Bool}
    {ap : List VArg} {o : Char} (ho : o = '{' ∨ o = '[' ∨ o = '<' ∨ o = '(')
    (hbrace : ∀ c, findEndBrace ts c cur typestrEnd = .ok none) :
    parseBranch self ts typestrEnd ref ap new cur o = .error .null := by
  rcases ho with rfl | rfl | rfl | rfl <;>
    simp [parseBranch, parseListOrSet, parseRange, parseTuple, hbrace]

/-- The text of a tree with a range inside is rejected. -/
theorem parseTypestr_of_ranges {t : TypeTree} (h : 0 < t.ranges) (hfits : t.text.length < 2 ^ 31)
    (ap : List VArg) : parseTypestr t.text ap = .error .null := by
  obtain ⟨o, w, htext, ho⟩ := text_of_ranges h
  have hcstr : cStr t.text = t.text := List.takeWhile_eq_self_iff.mpr fun c hc => by
    have hne : c ≠ nul := fun hnul => t.nul_notMem_text (hnul ▸ hc)
    simpa using hne
  have hbrace : ∀ c, findEndBrace (o :: w) c 0 (o :: w).length = .ok none := by
    intro c
    have hscan := findEndBrace_eq [] (o :: w) [] c
    rw [← htext, Nesting.scan_eq_none (above_text t le_rfl (by omega)), htext] at hscan
    simpa using hscan
  have hsep : isSeparator o = false := by rcases ho with rfl | rfl | rfl | rfl <;> rfl
  have hamp : o ≠ '&' := by rcases ho with rfl | rfl | rfl | rfl <;> decide
  have hlen : (([] : List Char).length : Int) ≠ ((o :: w).length : Int) := by
    rw [List.length_nil, List.length_cons]
    omega
  have hfront := TypeExpr.parse_front [] .none false (w := w) hsep hamp (by decide) hlen
    (o :: w).length false ap 0
  simp only [TypeExpr.front, Sep.none, List.nil_append, List.length_nil, Bool.false_eq_true,
    if_false, Bool.or_self, Nat.add_zero] at hfront
  rw [parseTypestr_of_lt (by rwa [hcstr]), hcstr, htext, hfront, parseBranch_noBrace ho hbrace]
  rfl

end TypeTree

/-! ## The round trip -/

/-- Printing `t` in short form and parsing the result with the counts of `t` gives a datatype of the
same shape. -/
def RoundTrips (t : AdiakDatatype) : Prop :=
  ∃ buffer s u, adiakTypeToString t false = .ok buffer ∧ buffer.readCstr = .ok s ∧
    adiakNewDatatype s t.countArgs = .ok u ∧ u.shape = t.shape

/-- The string in between is the text of the datatype. -/
theorem roundTrips_iff_text {t : AdiakDatatype} : RoundTrips t ↔
    ∃ s, typeText false t = .ok s ∧ s.length + 1 < 2 ^ 31 ∧
      ∃ u, adiakNewDatatype s t.countArgs = .ok u ∧ u.shape = t.shape := by
  constructor
  · rintro ⟨buffer, s, u, hbuffer, hs, hu⟩
    obtain ⟨htext, hsize⟩ := adiakTypeToString_ok.mp (bind_eq_ok.mpr ⟨buffer, hbuffer, hs⟩)
    exact ⟨s, htext, hsize, u, hu⟩
  · rintro ⟨s, htext, hsize, u, hu⟩
    obtain ⟨buffer, hbuffer, hs⟩ := bind_eq_ok.mp (adiakTypeToString_ok.mpr ⟨htext, hsize⟩)
    exact ⟨buffer, s, u, hbuffer, hs, hu⟩

theorem adiakNewDatatype_ok {typestr : List Char} {ap : List VArg} {t : AdiakDatatype} :
    adiakNewDatatype typestr ap = .ok t ↔ ∃ rest, parseTypestr typestr ap = .ok (t, rest) := by
  unfold adiakNewDatatype
  rw [bind_eq_ok]
  constructor
  · rintro ⟨⟨u, rest⟩, hparse, h⟩
    obtain rfl := Except.ok.inj h
    exact ⟨rest, hparse⟩
  · rintro ⟨rest, hparse⟩
    exact ⟨(t, rest), hparse, rfl⟩

/-- The text of a tree with a range inside does not come back, whatever datatype printed it. -/
theorem not_roundTrips {t : AdiakDatatype} {tree : TypeTree}
    (htext : typeText false t = .ok tree.text) (h : 0 < tree.ranges) : ¬ RoundTrips t := by
  intro hround
  obtain ⟨s, hs, hsize, u, hu, -⟩ := roundTrips_iff_text.mp hround
  obtain rfl := Except.ok.inj (htext.symm.trans hs)
  obtain ⟨rest, hparse⟩ := adiakNewDatatype_ok.mp hu
  rw [TypeTree.parseTypestr_of_ranges h (Nat.lt_of_succ_lt hsize)] at hparse
  cases hparse

/-- A tree without ranges comes back if and only if its shape survives being reread and there is an
`int` for the size of its text. -/
theorem roundTrips_tree {tree : TypeTree} (h : tree.ranges = 0) :
    RoundTrips tree.datatype ↔ tree.shape.Reads tree.shape ∧ tree.text.length + 1 < 2 ^ 31 := by
  have htext : tree.text = (tree.expr .none).text := by rw [TypeTree.text_expr h]; rfl
  have hargs : tree.datatype.countArgs = tree.shape.args := by
    rw [tree.countArgs_datatype, TypeTree.shape, TypeTree.args_map]
  have hparse := fun hfits => TypeExpr.parseTypestr_text (e := tree.expr .none) hfits
  rw [← htext, tree.tree_expr] at hparse
  have hiff := TypeTree.reread_iff tree.shape tree.shape []
  rw [List.append_nil, ← hargs] at hiff
  rw [← hiff]
  rw [roundTrips_iff_text]
  constructor
  · rintro ⟨s, hs, hsize, u, hu, hshape⟩
    obtain rfl := Except.ok.inj (tree.typeText_datatype.symm.trans hs)
    refine ⟨?_, hsize⟩
    obtain ⟨rest, hu⟩ := adiakNewDatatype_ok.mp hu
    rw [hparse (Nat.lt_of_succ_lt hsize)] at hu
    obtain ⟨⟨w, ap⟩, hw, hu⟩ := bind_eq_ok.mp hu
    obtain ⟨rfl, rfl⟩ := Prod.mk.inj (Except.ok.inj hu)
    rw [TypeTree.shape_eq_iff] at hshape
    -- the tree that was read has no widths and no references either
    have hwshape : w.shape = w := by
      have hmap := TypeTree.reread_map (f := ScalarKind.plain) (g := fun _ => false) tree.shape
        tree.datatype.countArgs
      have hself : tree.shape.map ScalarKind.plain (fun _ => false) = tree.shape :=
        tree.shape_shape
      rw [hself, hw] at hmap
      exact (Prod.mk.inj (Except.ok.inj hmap)).1.symm
    rw [hwshape] at hshape
    subst hshape
    rw [hw]
    have happ := TypeTree.args_of_reread hw
    rw [hargs] at happ
    obtain rfl : ap = [] := by simpa using happ
    rfl
  · rintro ⟨hread, hsize⟩
    refine ⟨tree.text, tree.typeText_datatype, hsize, tree.shape.datatype,
      adiakNewDatatype_ok.mpr ⟨[], ?_⟩, ?_⟩
    · rw [hparse (Nat.lt_of_succ_lt hsize), hread]
      rfl
    · rw [TypeTree.shape_eq_iff, TypeTree.shape_shape]

/-- The zeroed node prints as a word that is no typestring. -/
theorem not_roundTrips_zeroNode : ¬ RoundTrips (.node zeroNode []) := by
  intro hround
  obtain ⟨s, hs, -, u, hu, -⟩ := roundTrips_iff_text.mp hround
  obtain rfl := Except.ok.inj hs
  obtain ⟨rest, hparse⟩ := adiakNewDatatype_ok.mp hu
  rw [parseTypestr_of_lt (by decide)] at hparse
  cases hparse

/-- A C++ datatype that can be printed is the datatype of a tree: it has no `NULL` inside. -/
theorem makeType_of_text {t : CppType} {s : CStr} (h : typeText false (makeType t) = .ok s) :
    (makeType t).WellFormed := by
  induction t generalizing s with
  | scalar k => exact ⟨k.tree, scalar_datatype k⟩
  | other => cases h
  | container c elem ih =>
    rw [makeType] at h ⊢
    cases hmake : makeType elem with
    | null => rw [hmake] at h; cases h
    | node info subtype =>
      rw [hmake] at h ih
      obtain hwords | ⟨lbracket, rbracket, body, -, htexts, -⟩ := typeText_node h
      · cases c <;> cases hwords
      · obtain ⟨a, rest, ha, -, -⟩ := typeTexts_cons htexts
        obtain ⟨tree, htree⟩ := ih ha
        refine ⟨.coll c.kind false 0 tree, ?_⟩
        rw [TypeTree.datatype, ← htree, dtype_kind, cppNode_eq]
  | tuple ts ih =>
    rw [makeType] at h ⊢
    obtain hwords | ⟨lbracket, rbracket, body, -, htexts, -⟩ := typeText_node h
    · cases hwords
    · have hcomps : ∀ body, typeTexts false (makeTypes ts) = .ok body →
          ∃ comps : List TypeTree, makeTypes ts = TypeTree.datatypes comps ∧
            comps.length = ts.length := by
        clear h htexts
        induction ts with
        | nil => exact fun _ _ => ⟨[], rfl, rfl⟩
        | cons t ts ihts =>
          intro body h
          rw [makeTypes] at h ⊢
          obtain ⟨a, rest, ha, hrest, -⟩ := typeTexts_cons h
          obtain ⟨tree, htree⟩ := ih t List.mem_cons_self ha
          obtain ⟨comps, hcomps, hlen⟩ :=
            ihts (fun u hu => ih u (List.mem_cons_of_mem t hu)) rest hrest
          exact ⟨tree :: comps, by rw [htree, hcomps]; rfl, by simp [hlen]⟩
      obtain ⟨comps, hcomps, hlen⟩ := hcomps body htexts
      refine ⟨.tuple false comps, ?_⟩
      rw [TypeTree.datatype, hcomps, hlen]
      rfl

/-- The datatypes of the library: `adiak_new_datatype` and the C++ interface build them. -/
inductive Built : AdiakDatatype → Prop
  | newDatatype {typestr : List Char} {ap : List VArg} {t : AdiakDatatype}
      (h : adiakNewDatatype typestr ap = .ok t) : Built t
  | makeType {t : CppType} {info : TypeNode} {subtype : List AdiakDatatype}
      (h : Adiak.makeType t = .node info subtype) : Built (.node info subtype)
  | makeRangeT {t : CppType} {info : TypeNode} {subtype : List AdiakDatatype}
      (h : Adiak.makeRangeT t = .node info subtype) : Built (.node info subtype)

/-- The datatype of a tree without ranges in which each component behind a tuple component can be
read from the text of that component, and whose text and its NUL have a length that is an `int`. -/
def Printable (t : AdiakDatatype) : Prop :=
  ∃ tree : TypeTree, t = tree.datatype ∧ tree.ranges = 0 ∧ tree.shape.Reads tree.shape ∧
    tree.text.length + 1 < 2 ^ 31

/-- The datatype of a tree. -/
theorem roundTrips_wellFormed {t : AdiakDatatype} (h : t.WellFormed) :
    RoundTrips t ↔ Printable t := by
  obtain ⟨tree, rfl⟩ := h
  rcases Nat.eq_zero_or_pos tree.ranges with hzero | hpos
  · rw [roundTrips_tree hzero]
    refine ⟨fun h => ⟨tree, rfl, hzero, h⟩, ?_⟩
    rintro ⟨tree', heq, -, h⟩
    rwa [TypeTree.datatype_injective heq]
  · refine iff_of_false (not_roundTrips tree.typeText_datatype hpos) ?_
    rintro ⟨tree', heq, hzero, -⟩
    rw [TypeTree.datatype_injective heq] at hpos
    omega

/-- A datatype that is the datatype of a tree as soon as it can be printed. -/
theorem roundTrips_of_text {t : AdiakDatatype}
    (h : ∀ s, typeText false t = .ok s → t.WellFormed) : RoundTrips t ↔ Printable t := by
  by_cases hwell : t.WellFormed
  · exact roundTrips_wellFormed hwell
  · refine iff_of_false ?_ ?_
    · intro hround
      obtain ⟨s, hs, -⟩ := roundTrips_iff_text.mp hround
      exact hwell (h s hs)
    · rintro ⟨tree, rfl, -⟩
      exact hwell ⟨tree, rfl⟩

theorem TypeTree.dtype_ne_unset (t : TypeTree) : t.datatype.dtype ≠ .unset := by
  cases t with
  | scalar s => cases s <;> decide
  | str k ref => cases k <;> cases ref <;> decide
  | coll k ref n elem => cases k <;> exact AdiakType.noConfusion
  | range ref elem => exact AdiakType.noConfusion
  | tuple ref comps => exact AdiakType.noConfusion

/-- For every datatype the library builds, printing and parsing is the identity on its shape if and
only if it is printable. -/
theorem roundtrip_iff {t : AdiakDatatype} (h : Built t) : RoundTrips t ↔ Printable t := by
  cases h with
  | newDatatype h =>
    obtain ⟨rest, hparse⟩ := adiakNewDatatype_ok.mp h
    rcases parseTypestr_wellFormed hparse with hwell | rfl
    · exact roundTrips_wellFormed hwell
    · refine iff_of_false not_roundTrips_zeroNode ?_
      rintro ⟨tree, heq, -⟩
      exact tree.dtype_ne_unset (heq ▸ rfl)
  | makeType h =>
    refine roundTrips_of_text fun s hs => ?_
    rw [← h] at hs ⊢
    exact makeType_of_text hs
  | @makeRangeT t info subtype h =>
    unfold makeRangeT at h
    cases hmake : Adiak.makeType t with
    | null => rw [hmake] at h; cases h
    | node info' subtype' =>
      rw [hmake] at h
      obtain ⟨rfl, rfl⟩ := AdiakDatatype.node.inj h
      refine iff_of_false ?_ ?_
      · intro hround
        obtain ⟨s, hs, -⟩ := roundTrips_iff_text.mp hround
        obtain hwords | ⟨lbracket, rbracket, body, -, htexts, -⟩ := typeText_node hs
        · cases hwords
        obtain ⟨a, rest, ha, -, -⟩ := typeTexts_cons htexts
        rw [← hmake] at ha
        obtain ⟨tree, htree⟩ := makeType_of_text ha
        rw [hmake] at htree
        have htext : typeText false (.node cppRangeNode [tree.datatype]) =
            .ok (TypeTree.range false tree).text := (TypeTree.range false tree).typeText_datatype
        rw [← htree] at htext
        exact not_roundTrips htext (Nat.succ_pos _) hround
      · rintro ⟨tree, heq, -⟩
        have hnumerical := tree.numericalOk_datatype
        rw [← heq] at hnumerical
        exact absurd hnumerical.1 (by decide)

/-- A list of tuples comes back. -/
theorem roundtrip_list : RoundTrips
    (TypeTree.datatype (.coll .list false 3 (.tuple false [.scalar .i16, .str .string true]))) := by
  have hparse : adiakNewDatatype "\x7b(%i16,&%s)\x7d".toList [.int 3, .int 2] = .ok
      (TypeTree.datatype (.coll .list false 3 (.tuple false [.scalar .i16, .str .string true]))) := by
    unfold adiakNewDatatype
    rw [parseTypestr_of_lt (by decide)]
    rfl
  refine (roundtrip_iff (.newDatatype hparse)).mpr
    ⟨_, rfl, rfl, TypeTree.reads_self_of_tuplesLast ?_, by decide⟩
  simp [TypeTree.shape, TypeTree.map, TypeTree.maps, TypeTree.TuplesLast, TypeTree.TuplesLastSeq,
    TypeTree.isTuple]

/-- A range prints without its closing brace. -/
theorem roundtrip_not_always : ¬ ∀ t, Built t → RoundTrips t := by
  intro h
  have hparse : adiakNewDatatype "<%d>".toList [] =
      .ok (TypeTree.datatype (.range false (.scalar .int))) := by
    unfold adiakNewDatatype
    rw [parseTypestr_of_lt (by decide)]
    rfl
  have htext : typeText false (TypeTree.datatype (.range false (.scalar .int))) =
      .ok (TypeTree.text (.range false (.scalar .int))) := TypeTree.typeText_datatype _
  exact not_roundTrips htext Nat.one_pos (h _ (.newDatatype hparse))

end Adiak
