import Adiak.Store.Record
import Adiak.Typestring.Settles

/-!
# What the parser refuses, and what it returns

1. `refuses`: a typestring that does not begin with a type for the counts supplied gives no
   datatype, and `adiak_namevalue` returns `-1` without a trace. Nothing is said about tuples with a
   component behind a tuple component, which the parser reads again (`AsksBehind`).
2. `ShapeOk` is the shape that the readers of a datatype rely on. `shapeOk_iff`: whatever
   `adiak_new_datatype` returns has it, unless the typestring is blank.
-/

namespace Adiak

/-! ## Refused typestrings -/

/-- Separators and `&` are skipped by `toplevel_type`. -/
theorem isFront_front {sep : Sep} {amp : Bool} {c : Char} (hc : c ∈ TypeExpr.front sep amp) :
    isFront c = true := by
  rcases List.mem_append.mp hc with hc | hc
  · rw [isFront, sep.isSep c hc, Bool.true_or]
  · cases amp
    · cases hc
    · rw [List.mem_singleton.mp hc]
      rfl

/-- A blank typestring has no top-level type. -/
theorem toplevelType_blank {typestr : List Char} (h : Blank typestr) :
    toplevelType typestr = .ok .unset := by
  obtain ⟨sep, amp, hfront⟩ := h
  have hdrop : (cStr typestr).dropWhile isFront = [] := by
    refine List.dropWhile_eq_nil_iff.mpr fun c hc => ?_
    rw [hfront] at hc
    exact isFront_front hc
  unfold toplevelType
  rw [hdrop]

/-- What a type starts with, behind what is skipped, and the bracket that closes it. -/
theorem Loose.starts {again ref : Bool} {text : List Char} {tree : TypeTree}
    (h : Loose again ref text tree) :
    ∃ sep amp c w, text = TypeExpr.front sep amp ++ c :: w ∧ isFront c = false ∧
      (c = '%' ∨ ∃ d ∈ w, Mates c d) := by
  cases h with
  | spec sep amp n s => exact ⟨sep, amp, '%', _, rfl, rfl, .inl rfl⟩
  | coll sep amp k n =>
    exact ⟨sep, amp, k.openBrace, _, rfl, by cases k <;> rfl,
      .inr ⟨k.closeBrace, by simp, by
        cases k <;> simp [Mates, CollKind.openBrace, CollKind.closeBrace]⟩⟩
  | range sep amp =>
    exact ⟨sep, amp, '<', _, rfl, rfl, .inr ⟨'>', by simp, .inr (.inr (.inl ⟨rfl, rfl⟩))⟩⟩
  | tuple sep amp =>
    exact ⟨sep, amp, '(', _, rfl, rfl, .inr ⟨')', by simp, .inr (.inr (.inr ⟨rfl, rfl⟩))⟩⟩

/-- The types whose values are C strings. -/
def AdiakType.isString : AdiakType → Bool
  | .version | .string | .catstring | .jsonstring | .path => true
  | _ => false

/-- The fields of a node with a number of subtypes, below a reference (`under`) or not. -/
structure NodeOk (under : Bool) (info : TypeNode) (subtypes : Nat) : Prop where
  set : info.dtype ≠ .unset
  leaf : isBasetype info.dtype = true →
    subtypes = 0 ∧ info.numElements = 0 ∧ info.numRefElements = 0
  single : info.dtype = .range ∨ info.dtype = .set ∨ info.dtype = .list → subtypes = 1
  tuple : info.dtype = .tuple → info.numElements + info.numRefElements = subtypes
  range : info.dtype = .range → info.numElements + info.numRefElements = 2
  reference : isBasetype info.dtype = false → info.isReference = true → info.numElements = 0
  copied : isBasetype info.dtype = false → info.isReference = false → info.numRefElements = 0
  below : under = true → isBasetype info.dtype = false ∨ info.dtype.isString = true →
    info.isReference = true

mutual

/-- The shape of a datatype. -/
def ShapeOk : Bool → AdiakDatatype → Prop
  | _, .null => False
  | under, .node info subtype => NodeOk under info subtype.length ∧
      ShapesOk info.isReference subtype

def ShapesOk : Bool → List AdiakDatatype → Prop
  | _, [] => True
  | under, t :: ts => ShapeOk under t ∧ ShapesOk under ts

end

theorem shapesOk_iff {under : Bool} {ts : List AdiakDatatype} :
    ShapesOk under ts ↔ ∀ t ∈ ts, ShapeOk under t := by
  induction ts with
  | nil => simp [ShapesOk]
  | cons t ts ih => rw [ShapesOk, ih, List.forall_mem_cons]

/-- The node of a container. -/
theorem nodeOk_container {under ref : Bool} {d : AdiakType} {n : Int} {subtypes : Nat}
    (hbase : isBasetype d = false) (hunder : under = true → ref = true)
    (hsingle : d ≠ .tuple → subtypes = 1) (htuple : d = .tuple → n = subtypes)
    (hrange : d = .range → n = 2) : NodeOk under (containerNode d ref n) subtypes where
  set := by
    rintro rfl
    cases hbase
  leaf := fun h => absurd h (by rw [show (containerNode d ref n).dtype = d from rfl, hbase]; decide)
  single := fun h => hsingle (by rintro rfl; simp [containerNode] at h)
  tuple := fun h => by rw [TypeTree.containerNode_count]; exact htuple h
  range := fun h => by rw [TypeTree.containerNode_count]; exact hrange h
  reference := fun _ h => if_pos h
  copied := fun _ h => if_neg (by rw [show ref = false from h]; decide)
  below := fun h _ => hunder h

/-- The node of a base type. -/
theorem shapeOk_base {under ref : Bool} {d : AdiakType} {num : AdiakNumerical} {bytes : Nat}
    (hset : d ≠ .unset) (hbase : isBasetype d = true)
    (hunder : under = true → d.isString = true → ref = true) :
    ShapeOk under (baseType d num ref bytes) := by
  refine ⟨⟨hset, fun _ => ⟨rfl, rfl, rfl⟩, ?_, ?_, ?_, ?_, ?_, ?_⟩, trivial⟩ <;> dsimp only
  · rintro (rfl | rfl | rfl) <;> cases hbase
  · rintro rfl
    cases hbase
  · rintro rfl
    cases hbase
  · rw [hbase]
    rintro ⟨⟩
  · rw [hbase]
    rintro ⟨⟩
  · rw [hbase]
    rintro h (h' | h')
    · cases h'
    · exact hunder h h'

theorem shapeOk_scalar (under : Bool) (s : ScalarKind) : ShapeOk under s.datatype := by
  cases s <;> exact shapeOk_base (by rintro ⟨⟩) rfl (by rintro - ⟨⟩)

theorem shapeOk_str {under ref : Bool} (k : StringKind) (h : under = true → ref = true) :
    ShapeOk under (k.datatype ref) := by
  cases ref with
  | true => cases k <;> exact shapeOk_base (by rintro ⟨⟩) rfl fun _ _ => rfl
  | false => cases k <;> exact shapeOk_base (by rintro ⟨⟩) rfl fun hunder _ => h hunder

/-- What the parser takes has the shape. -/
theorem Loose.shapeOk {ref : Bool} {text : List Char} {tree : TypeTree} (h : Loose true ref text tree) :
    ShapeOk ref tree.datatype := by
  have hunder : ∀ ref amp : Bool, ref = true → (ref || amp) = true := by
    rintro _ amp rfl
    rfl
  induction h with
  | @spec ref sep amp n s _ _ =>
    cases s
    all_goals first | exact shapeOk_scalar _ _ | exact shapeOk_str _ (hunder ref amp)
  | @coll ref sep amp k n text junk elem _ _ ih =>
    exact ⟨nodeOk_container (by cases k <;> rfl) (hunder ref amp) (fun _ => rfl)
      (by cases k <;> rintro ⟨⟩) (by cases k <;> rintro ⟨⟩), ih, trivial⟩
  | @range ref sep amp text junk elem _ _ ih =>
    exact ⟨nodeOk_container rfl (hunder ref amp) (fun _ => rfl) (by rintro ⟨⟩) (fun _ => rfl), ih,
      trivial⟩
  | @tuple ref sep amp body comps _ _ _ ih =>
    rw [TypeTree.datatype, TypeTree.datatypes_eq_map]
    refine ⟨nodeOk_container rfl (hunder ref amp) (fun h => absurd rfl h)
      (fun _ => by simp only [List.length_map]) (by rintro ⟨⟩), shapesOk_iff.mpr fun t ht => ?_⟩
    obtain ⟨tree, htree, rfl⟩ := List.mem_map.mp ht
    obtain ⟨x, hx, rfl⟩ := List.mem_map.mp htree
    exact ih x hx

/-- A blank string does not begin with a type. -/
theorem Begins.not_blank {again : Bool} {typestr : List Char} {tree : TypeTree}
    (h : Begins again typestr tree) :
    ¬ Blank typestr := by
  obtain ⟨text, rest, htext, hloose⟩ := h
  rintro ⟨sep, amp, hfront⟩
  obtain ⟨sep', amp', c, w, rfl, hstart, -⟩ := hloose.starts
  have hmem : c ∈ TypeExpr.front sep amp := by
    rw [← hfront, htext]
    simp
  rw [isFront_front hmem] at hstart
  cases hstart

/-- What `adiak_new_datatype` returns has the shape if and only if the typestring is not blank. -/
theorem shapeOk_iff {typestr : List Char} {ap : List VArg} {t : AdiakDatatype}
    (h : adiakNewDatatype typestr ap = .ok t) : ShapeOk false t ↔ ¬ Blank typestr := by
  obtain ⟨⟨t', ap'⟩, hparse, h⟩ := bind_eq_ok.mp h
  obtain rfl := Except.ok.inj h
  rcases parseTypestr_takes hparse with ⟨tree, hbegins, rfl, -⟩ | ⟨hblank, rfl⟩
  · have hblank := hbegins.not_blank
    obtain ⟨text, rest, -, hloose⟩ := hbegins
    exact iff_of_true hloose.shapeOk hblank
  · exact iff_of_false (fun hshape => hshape.1.set rfl) (not_not.mpr hblank)

/-- A referenced list of tuples, `&{(%s,<%d>)}`. -/
theorem shapeOk_tuples : ∃ t, ShapeOk false t ∧
    adiakNewDatatype ['&', '{', '(', '%', 's', ',', '<', '%', 'd', '>', ')', '}'] [.int 3, .int 2] =
      .ok t := by
  obtain ⟨t, ht⟩ := exists_of_isOk (x := adiakNewDatatype
    ['&', '{', '(', '%', 's', ',', '<', '%', 'd', '>', ')', '}'] [.int 3, .int 2]) (by decide +kernel)
  refine ⟨t, (shapeOk_iff ht).mpr fun hblank => ?_, ht⟩
  have htop := toplevelType_blank hblank
  cases htop

/-- A comma gives a node without a type. -/
theorem shapeOk_not_always : ¬ ∀ typestr ap t, (∀ x ∈ ap, ∃ n : Int, 0 ≤ n ∧ x = .int n) →
    adiakNewDatatype typestr ap = .ok t → ShapeOk false t := by
  intro h
  have hok : adiakNewDatatype [','] [] = .ok (.node zeroNode []) := by
    unfold adiakNewDatatype
    rw [parseTypestr_of_lt (by decide)]
    rfl
  exact (h [','] [] (.node zeroNode []) (by simp) hok).1.set rfl

end Adiak
