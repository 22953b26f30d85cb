import Adiak.Cpp.Counts
import Adiak.Typestring.Denotation

/-!
# C++ types and typestrings

The datatype `adiak::value` records against the one the typestring parser builds for the typestring
that corresponds to the C++ type.

1. `CppType.expr` is the corresponding type expression, with the lengths `make_value` wrote.
2. `AdiakDatatype.eraseBytes` forgets `num_bytes`, in which the two may differ: `make_type` knows one
   base type for all integers of a kind. On datatypes of trees it is `ScalarKind.plain`.
3. `value_typestring_iff`: the two agree for single objects whose tuples survive being reread, and
   never for the range form, whose node has no `numerical`.
-/

namespace Adiak

/-! ## Forgetting the widths -/

/-- The scalar with the full width of its `dtype`. -/
def ScalarKind.plain : ScalarKind → ScalarKind
  | .i8 | .i16 => .int
  | .u8 | .u16 => .uint
  | .float => .double
  | s => s

mutual

/-- The datatype without its `num_bytes`. -/
def AdiakDatatype.eraseBytes : AdiakDatatype → AdiakDatatype
  | .null => .null
  | .node info subtype => .node { info with numBytes := 0 } (eraseBytesSeq subtype)

def AdiakDatatype.eraseBytesSeq : List AdiakDatatype → List AdiakDatatype
  | [] => []
  | t :: ts => eraseBytes t :: eraseBytesSeq ts

end

mutual

/-- The `numerical` of every node is the one of its `dtype`. -/
def AdiakDatatype.NumericalOk : AdiakDatatype → Prop
  | .null => True
  | .node info subtype =>
    info.numerical = adiakNumericalFromType info.dtype ∧ NumericalOkSeq subtype

def AdiakDatatype.NumericalOkSeq : List AdiakDatatype → Prop
  | [] => True
  | t :: ts => NumericalOk t ∧ NumericalOkSeq ts

end

open AdiakDatatype

namespace TypeTree

theorem eraseBytes_map (t : TypeTree) :
    (t.map ScalarKind.plain id).datatype.eraseBytes = t.datatype.eraseBytes := by
  induction t with
  | scalar s => cases s <;> rfl
  | str k ref => rfl
  | coll k ref n elem ih =>
    rw [map, datatype, datatype, eraseBytes, eraseBytes, eraseBytesSeq, eraseBytesSeq, ih]
    rfl
  | range ref elem ih =>
    rw [map, datatype, datatype, eraseBytes, eraseBytes, eraseBytesSeq, eraseBytesSeq, ih]
    rfl
  | tuple ref comps ih =>
    have hcomps : eraseBytesSeq (datatypes (comps.map (map ScalarKind.plain id))) =
        eraseBytesSeq (datatypes comps) := by
      induction comps with
      | nil => rfl
      | cons t ts ihts =>
        rw [List.map_cons, datatypes, datatypes, eraseBytesSeq, eraseBytesSeq,
          ih t List.mem_cons_self, ihts fun u hu => ih u (List.mem_cons_of_mem t hu)]
    rw [map_tuple, datatype, datatype, eraseBytes, eraseBytes, hcomps, List.length_map]
    rfl

/-- Without the widths, a datatype still tells the tree up to the widths. -/
theorem ofDatatype_eraseBytes (t : TypeTree) :
    ofDatatype t.datatype.eraseBytes = t.map ScalarKind.plain id := by
  induction t with
  | scalar s => cases s <;> rfl
  | str k ref => cases k <;> cases ref <;> rfl
  | coll k ref n elem ih =>
    have hcount := containerNode_count k.dtype ref n
    rw [datatype, eraseBytes, eraseBytesSeq, eraseBytesSeq, ofDatatype, ofDatatypes, ih, map]
    cases k <;> (simp only [hcount]; rfl)
  | range ref elem ih =>
    rw [datatype, eraseBytes, eraseBytesSeq, eraseBytesSeq, ofDatatype, ofDatatypes, ih]
    rfl
  | tuple ref comps ih =>
    have hcomps : ofDatatypes (eraseBytesSeq (datatypes comps)) =
        comps.map (map ScalarKind.plain id) := by
      induction comps with
      | nil => rfl
      | cons t ts ihts =>
        rw [datatypes, eraseBytesSeq, ofDatatypes, List.map_cons, ih t List.mem_cons_self,
          ihts fun u hu => ih u (List.mem_cons_of_mem t hu)]
    rw [datatype, eraseBytes, ofDatatype, hcomps, map_tuple]
    rfl

theorem eraseBytes_eq_iff {t u : TypeTree} :
    t.datatype.eraseBytes = u.datatype.eraseBytes ↔
      t.map ScalarKind.plain id = u.map ScalarKind.plain id := by
  constructor
  · intro h
    rw [← ofDatatype_eraseBytes, h, ofDatatype_eraseBytes]
  · intro h
    rw [← eraseBytes_map, h, eraseBytes_map]

/-- The datatype of a tree has the `numerical`s of its `dtype`s. -/
theorem numericalOk_datatype (t : TypeTree) : t.datatype.NumericalOk := by
  induction t with
  | scalar s => cases s <;> exact ⟨rfl, trivial⟩
  | str k ref => cases k <;> cases ref <;> exact ⟨rfl, trivial⟩
  | coll k ref n elem ih => exact ⟨by cases k <;> rfl, ih, trivial⟩
  | range ref elem ih => exact ⟨rfl, ih, trivial⟩
  | tuple ref comps ih =>
    refine ⟨rfl, ?_⟩
    induction comps with
    | nil => trivial
    | cons t ts ihts =>
      exact ⟨ih t List.mem_cons_self, ihts fun u hu => ih u (List.mem_cons_of_mem t hu)⟩

end TypeTree

/-! ## Corresponding typestrings -/

/-- The specifier of a scalar type, with the size suffix of its C type. -/
def CppScalar.spec : CppScalar → Spec
  | .long => .ld
  | .ulong => .lu
  | .longlong => .lld
  | .ulonglong => .llu
  | .int => .d
  | .uint => .u
  | .short => .i16
  | .ushort => .u16
  | .char => .i8
  | .uchar => .u8
  | .double => .f
  | .float => .f32
  | .charPtr | .string => .string
  | .timevalPtr => .timeval
  | .date => .date
  | .version => .version
  | .path => .path
  | .catstring => .catstring
  | .jsonstring => .jsonstring

namespace CppType

mutual

/-- The type expression of a C++ type, with the lengths that the values `vs` leave behind. -/
def expr : CppType → Sep → List CppValue → TypeExpr
  | .scalar s, sep, _ => .spec sep false s.spec
  | .other, sep, _ => .spec sep false .date
  | .container c elem, sep, vs =>
    .coll sep false c.kind (lastLength vs) (expr elem .none (vs.flatMap CppValue.elements))
  | .tuple ts, sep, vs => .tuple sep false (exprs ts .none (vs.map CppValue.elements))

/-- The components of a tuple, separated by commas. -/
def exprs : List CppType → Sep → List (List CppValue) → List TypeExpr
  | [], _, _ => []
  | t :: ts, sep, rows =>
    expr t sep (rows.filterMap List.head?) :: exprs ts .comma (rows.map List.tail)

end

/-- The expression denotes the type, up to the widths. -/
theorem tree_expr (t : CppType) (sep : Sep) (vs : List CppValue) :
    ((t.expr sep vs).tree false).map ScalarKind.plain id = t.tree vs := by
  induction t generalizing sep vs with
  | scalar s => cases s <;> rfl
  | other => rfl
  | container c elem ih =>
    rw [expr, TypeExpr.tree, TypeTree.map, tree, ← ih .none]
    rfl
  | tuple ts ih =>
    have hcomps : ∀ (sep : Sep) (rows : List (List CppValue)),
        (TypeExpr.trees (exprs ts sep rows) false).map (TypeTree.map ScalarKind.plain id) =
          trees ts rows := by
      induction ts with
      | nil => intro sep rows; rfl
      | cons t ts ihts =>
        intro sep rows
        rw [exprs, TypeExpr.trees, List.map_cons, trees, ih t List.mem_cons_self,
          ihts fun u hu => ih u (List.mem_cons_of_mem t hu)]
    rw [expr, TypeExpr.tree, TypeTree.map_tuple, tree, ← hcomps .none]
    rfl

theorem map_plain_tree (t : CppType) (vs : List CppValue) :
    (t.tree vs).map ScalarKind.plain id = t.tree vs := by
  induction t generalizing vs with
  | scalar s => cases s <;> rfl
  | other => rfl
  | container c elem ih =>
    rw [tree, TypeTree.map, ih]
    rfl
  | tuple ts ih =>
    have hcomps : ∀ rows : List (List CppValue),
        (trees ts rows).map (TypeTree.map ScalarKind.plain id) = trees ts rows := by
      induction ts with
      | nil => intro rows; rfl
      | cons t ts ihts =>
        intro rows
        rw [trees, List.map_cons, ih t List.mem_cons_self,
          ihts fun u hu => ih u (List.mem_cons_of_mem t hu)]
    rw [tree, TypeTree.map_tuple, hcomps]
    rfl

end CppType

/-- The type expression that corresponds to what `adiak::value` is passed. -/
def CppArg.expr (t : CppType) : CppArg → TypeExpr
  | .one v => t.expr .none [v]
  | .range a b => .range .none false (t.expr .none [a, b])

/-! ## The two datatypes -/

/-- The parser gives the datatype of a C++ type up to the widths if the type survives being reread and
its typestring is shorter than `2 ^ 31`. -/
theorem parseTypestr_expr_iff (t : CppType) (vs : List CppValue) :
    (∃ u, parseTypestr (t.expr .none vs).text ((t.expr .none vs).tree false).args = .ok (u, []) ∧
        u.eraseBytes = (t.tree vs).datatype.eraseBytes) ↔
      (t.tree vs).Reads (t.tree vs) ∧ (t.expr .none vs).text.length < 2 ^ 31 := by
  have hargs : ((t.expr .none vs).tree false).args = (t.tree vs).args := by
    rw [← t.tree_expr .none vs, TypeTree.args_map]
  have hreread := TypeTree.reread_map (f := ScalarKind.plain) (g := id)
    ((t.expr .none vs).tree false) (t.tree vs).args
  rw [t.tree_expr] at hreread
  have hiff := TypeTree.reread_iff (t.tree vs) (t.tree vs) []
  rw [List.append_nil, hreread] at hiff
  rw [hargs, ← hiff]
  constructor
  · rintro ⟨u, hparse, hu⟩
    have hfits := text_fits hparse
    refine ⟨?_, hfits⟩
    rw [(t.expr .none vs).parseTypestr_text hfits] at hparse
    obtain ⟨⟨w, ap⟩, hw, h⟩ := bind_eq_ok.mp hparse
    obtain ⟨rfl, rfl⟩ : w.datatype = u ∧ ap = [] := by simpa using h
    rw [TypeTree.eraseBytes_eq_iff, t.map_plain_tree] at hu
    rw [hw, ← hu]
    rfl
  · rintro ⟨h, hfits⟩
    rw [(t.expr .none vs).parseTypestr_text hfits]
    cases hw : ((t.expr .none vs).tree false).reread (t.tree vs).args with
    | error e => rw [hw] at h; cases h
    | ok r =>
      obtain ⟨w, ap⟩ := r
      rw [hw] at h
      obtain ⟨hmap, rfl⟩ := Prod.mk.inj (Except.ok.inj h)
      refine ⟨w.datatype, rfl, ?_⟩
      rw [TypeTree.eraseBytes_eq_iff, t.map_plain_tree]
      exact hmap

/-- What `adiak::value` records and what the parser builds agree, with every `numerical` the one of
its `dtype`, exactly for single objects whose tuples survive being reread and whose typestring is
shorter than `2 ^ 31`. -/
theorem value_typestring_iff {t : CppType} {arg : CppArg} (ht : t.Supported)
    (harg : ∀ v ∈ arg.values, HasType t v) :
    ∃ avalue datatype, valueArgs t arg = .ok (avalue, datatype) ∧
      (((∃ u, parseTypestr (arg.expr t).text ((arg.expr t).tree false).args = .ok (u, []) ∧
            u.eraseBytes = datatype.eraseBytes) ∧ datatype.NumericalOk) ↔
        ∃ v, arg = .one v ∧ (t.tree [v]).Reads (t.tree [v]) ∧
          (t.expr .none [v]).text.length < 2 ^ 31) := by
  cases arg with
  | one v =>
    refine ⟨_, _, valueArgs_one ht (harg v List.mem_cons_self), ?_⟩
    rw [CppArg.expr, parseTypestr_expr_iff]
    constructor
    · rintro ⟨h, -⟩
      exact ⟨v, rfl, h⟩
    · rintro ⟨w, hw, h⟩
      obtain rfl := CppArg.one.inj hw
      exact ⟨h, TypeTree.numericalOk_datatype _⟩
  | range a b =>
    refine ⟨_, _, valueArgs_range ht (harg a List.mem_cons_self)
      (harg b (List.mem_cons_of_mem a List.mem_cons_self)), ?_⟩
    constructor
    · rintro ⟨-, hnumerical, -⟩
      exact absurd hnumerical (by decide)
    · rintro ⟨v, hv, -⟩
      cases hv

/-- A vector of tuples. -/
theorem value_typestring_vector : ∃ avalue datatype u,
    valueArgs (.container .vector (.tuple [.scalar .short, .scalar .string]))
      (.one (.elems [.elems [.integer 1, .str ['a']]])) = .ok (avalue, datatype) ∧
    parseTypestr "\x7b(%i16,%s)\x7d".toList [.int 1, .int 2] = .ok (u, []) ∧
    u.eraseBytes = datatype.eraseBytes := by
  have ht : (CppType.container .vector (.tuple [.scalar .short, .scalar .string])).Supported :=
    .container _ (.tuple (by show (2 : Int) < 2 ^ 31; decide) fun t ht => by
      simp only [List.mem_cons, List.not_mem_nil, or_false] at ht
      rcases ht with rfl | rfl
      · exact .scalar _
      · exact .scalar _)
  have hint : CppScalar.HasValue .short (.integer 1) :=
    ⟨.i16, rfl, by show (-256 ^ 2 : Int) ≤ 2 * 1 ∧ (2 * 1 : Int) < 256 ^ 2; decide⟩
  have harg : ∀ v ∈ (CppArg.one (.elems [.elems [.integer 1, .str ['a']]])).values,
      HasType (.container .vector (.tuple [.scalar .short, .scalar .string])) v := by
    simp only [CppArg.values, List.forall_mem_singleton]
    refine ⟨trivial, ?_⟩
    simp only [List.forall_mem_singleton]
    exact ⟨hint, trivial, trivial⟩
  obtain ⟨avalue, datatype, hvalue, hiff⟩ := value_typestring_iff ht harg
  obtain ⟨⟨u, hparse, hu⟩, -⟩ := hiff.mpr ⟨_, rfl, TypeTree.reads_self_of_tuplesLast (by
    simp [CppType.tree, CppType.trees, CppScalar.tree, TypeTree.TuplesLast, TypeTree.TuplesLastSeq,
      TypeTree.isTuple]), by decide⟩
  exact ⟨avalue, datatype, u, hvalue, hparse, hu⟩

/-- The range of two `double`s has no `numerical`. -/
theorem value_typestring_not_always : ¬ ∀ (t : CppType) (arg : CppArg), t.Supported →
    (∀ v ∈ arg.values, HasType t v) → ∃ avalue datatype, valueArgs t arg = .ok (avalue, datatype) ∧
      (∃ u, parseTypestr (arg.expr t).text ((arg.expr t).tree false).args = .ok (u, []) ∧
        u.eraseBytes = datatype.eraseBytes) ∧ datatype.NumericalOk := by
  intro h
  obtain ⟨avalue, datatype, hvalue, -, hnumerical⟩ := h (.scalar .double)
    (.range (.floating (.f64 0)) (.floating (.f64 1))) (.scalar _) (by
      simp only [CppArg.values, List.forall_mem_cons, List.not_mem_nil]
      exact ⟨trivial, trivial, fun _ h => h.elim⟩)
  have hvalue' : valueArgs (.scalar .double) (.range (.floating (.f64 0)) (.floating (.f64 1))) =
      .ok (.vSubval [.vDouble (.f64 0), .vDouble (.f64 1)], .node cppRangeNode [baseDouble]) := rfl
  obtain ⟨-, rfl⟩ := Prod.mk.inj (Except.ok.inj (hvalue.symm.trans hvalue'))
  exact absurd hnumerical.1 (by decide)

end Adiak
