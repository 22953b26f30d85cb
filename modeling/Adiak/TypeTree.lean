import Adiak.Memory

/-!
# Type trees

The well-formed datatypes: `TypeTree` is the shape every datatype of the library is meant to have,
with the fields that follow from the shape left out. `TypeTree.datatype` fills them in.

`TypeTree.counts` lists the list and set lengths and the tuple arities in preorder, which is the
order the typestring parser takes them from its arguments.
-/

namespace Adiak

/-- The base types without a pointer to follow on `&`. -/
inductive ScalarKind where
  | long
  | ulong
  | longlong
  | ulonglong
  | int
  | i8
  | i16
  | u8
  | u16
  | uint
  | double
  | float
  | date
  | timeval
  deriving DecidableEq

/-- The base types whose values are C strings. -/
inductive StringKind where
  | version
  | string
  | catstring
  | jsonstring
  | path
  deriving DecidableEq

/-- The containers that take a length. -/
inductive CollKind where
  | list
  | set
  deriving DecidableEq

/-- The base type of a scalar. -/
def ScalarKind.datatype : ScalarKind → AdiakDatatype
  | .long => baseLong
  | .ulong => baseUlong
  | .longlong => baseLonglong
  | .ulonglong => baseUlonglong
  | .int => baseInt
  | .i8 => baseI8
  | .i16 => baseI16
  | .u8 => baseU8
  | .u16 => baseU16
  | .uint => baseUint
  | .double => baseDouble
  | .float => baseFloat
  | .date => baseDate
  | .timeval => baseTimeval

/-- The base type of a string, copied or by reference. -/
def StringKind.datatype : StringKind → Bool → AdiakDatatype
  | .version, ref => if ref then baseVersionRef else baseVersion
  | .string, ref => if ref then baseStringRef else baseString
  | .catstring, ref => if ref then baseCatstringRef else baseCatstring
  | .jsonstring, ref => if ref then baseJsonstringRef else baseJsonstring
  | .path, ref => if ref then basePathRef else basePath

def CollKind.dtype : CollKind → AdiakType
  | .list => .list
  | .set => .set

/-- A well-formed datatype. `ref` is `is_reference`; a collection carries its length. -/
inductive TypeTree where
  | scalar (s : ScalarKind)
  | str (k : StringKind) (ref : Bool)
  | coll (k : CollKind) (ref : Bool) (n : Int) (elem : TypeTree)
  | range (ref : Bool) (elem : TypeTree)
  | tuple (ref : Bool) (comps : List TypeTree)

namespace TypeTree

@[elab_as_elim, induction_eliminator]
theorem induction {P : TypeTree → Prop} (scalar : ∀ s, P (.scalar s))
    (str : ∀ k ref, P (.str k ref)) (coll : ∀ k ref n elem, P elem → P (.coll k ref n elem))
    (range : ∀ ref elem, P elem → P (.range ref elem))
    (tuple : ∀ ref comps, (∀ t ∈ comps, P t) → P (.tuple ref comps)) : ∀ t, P t :=
  @TypeTree.rec P (fun l => ∀ t ∈ l, P t) scalar str coll range tuple
    (fun _ h => absurd h (List.not_mem_nil)) (fun _ _ hs hl => List.forall_mem_cons.mpr ⟨hs, hl⟩)

/-! ## The datatype of a tree -/

mutual

/-- The `adiak_datatype_t` of a tree. -/
def datatype : TypeTree → AdiakDatatype
  | .scalar s => s.datatype
  | .str k ref => k.datatype ref
  | .coll k ref n elem => .node (containerNode k.dtype ref n) [datatype elem]
  | .range ref elem => .node (containerNode .range ref 2) [datatype elem]
  | .tuple ref comps => .node (containerNode .tuple ref comps.length) (datatypes comps)

def datatypes : List TypeTree → List AdiakDatatype
  | [] => []
  | t :: ts => datatype t :: datatypes ts

end

theorem datatypes_eq_map (ts : List TypeTree) : datatypes ts = ts.map datatype := by
  induction ts with
  | nil => rfl
  | cons t ts ih => rw [datatypes, ih, List.map_cons]

mutual

/-- List and set lengths and tuple arities, outermost first and left to right. -/
def counts : TypeTree → List Int
  | .scalar _ | .str _ _ => []
  | .coll _ _ n elem => n :: counts elem
  | .range _ elem => counts elem
  | .tuple _ comps => comps.length :: countsList comps

def countsList : List TypeTree → List Int
  | [] => []
  | t :: ts => counts t ++ countsList ts

end

theorem countsList_eq_flatMap (ts : List TypeTree) : countsList ts = ts.flatMap counts := by
  induction ts with
  | nil => rfl
  | cons t ts ih => rw [countsList, ih, List.flatMap_cons]

/-- The counts as the variable arguments they are passed in. -/
def args (t : TypeTree) : List VArg := t.counts.map .int

def isTuple : TypeTree → Bool
  | .tuple _ _ => true
  | _ => false

/-! ## Changing leaves and marks -/

mutual

/-- The tree with its scalars and its reference marks changed. -/
def map (f : ScalarKind → ScalarKind) (g : Bool → Bool) : TypeTree → TypeTree
  | .scalar s => .scalar (f s)
  | .str k ref => .str k (g ref)
  | .coll k ref n elem => .coll k (g ref) n (map f g elem)
  | .range ref elem => .range (g ref) (map f g elem)
  | .tuple ref comps => .tuple (g ref) (maps f g comps)

def maps (f : ScalarKind → ScalarKind) (g : Bool → Bool) : List TypeTree → List TypeTree
  | [] => []
  | t :: ts => map f g t :: maps f g ts

end

section Map

variable {f : ScalarKind → ScalarKind} {g : Bool → Bool}

theorem maps_eq_map (ts : List TypeTree) : maps f g ts = ts.map (map f g) := by
  induction ts with
  | nil => rfl
  | cons t ts ih => rw [maps, ih, List.map_cons]

theorem map_tuple (ref : Bool) (comps : List TypeTree) :
    (tuple ref comps).map f g = .tuple (g ref) (comps.map (map f g)) := by
  rw [map, maps_eq_map]

theorem isTuple_map (t : TypeTree) : (t.map f g).isTuple = t.isTuple := by cases t <;> rfl

theorem counts_map (t : TypeTree) : (t.map f g).counts = t.counts := by
  induction t with
  | scalar s => rfl
  | str k ref => rfl
  | coll k ref n elem ih => rw [map, counts, counts, ih]
  | range ref elem ih => rw [map, counts, counts, ih]
  | tuple ref comps ih =>
    rw [map_tuple, counts, counts, countsList_eq_flatMap, countsList_eq_flatMap, List.length_map,
      List.flatMap_map]
    congr 1
    exact List.flatMap_congr ih

theorem args_map (t : TypeTree) : (t.map f g).args = t.args := by
  unfold args
  rw [counts_map]

/-- Changing twice. -/
theorem map_map (f' : ScalarKind → ScalarKind) (g' : Bool → Bool) (t : TypeTree) :
    (t.map f g).map f' g' = t.map (f' ∘ f) (g' ∘ g) := by
  induction t with
  | scalar s => rfl
  | str k ref => rfl
  | coll k ref n elem ih => rw [map, map, map, ih]; rfl
  | range ref elem ih => rw [map, map, map, ih]; rfl
  | tuple ref comps ih =>
    rw [map_tuple, map_tuple, map_tuple, List.map_map]
    exact congrArg _ (List.map_congr_left ih)

end Map

/-! ## Reading a tree back from its datatype -/

/-- The tree of a base type, by its descriptor and its width. -/
def ofBase (info : TypeNode) : TypeTree :=
  match info.dtype with
  | .long => .scalar .long
  | .ulong => .scalar .ulong
  | .longlong => .scalar .longlong
  | .ulonglong => .scalar .ulonglong
  | .int => .scalar (if info.numBytes = 1 then .i8 else if info.numBytes = 2 then .i16 else .int)
  | .uint => .scalar (if info.numBytes = 1 then .u8 else if info.numBytes = 2 then .u16 else .uint)
  | .double => .scalar (if info.numBytes = 4 then .float else .double)
  | .timeval => .scalar .timeval
  | .version => .str .version info.isReference
  | .string => .str .string info.isReference
  | .catstring => .str .catstring info.isReference
  | .jsonstring => .str .jsonstring info.isReference
  | .path => .str .path info.isReference
  | _ => .scalar .date

mutual

/-- The tree whose datatype this is, if there is one. -/
def ofDatatype : AdiakDatatype → TypeTree
  | .null => .scalar .date
  | .node info subtype =>
    match info.dtype, ofDatatypes subtype with
    | .list, elem :: _ => .coll .list info.isReference (info.numElements + info.numRefElements) elem
    | .set, elem :: _ => .coll .set info.isReference (info.numElements + info.numRefElements) elem
    | .range, elem :: _ => .range info.isReference elem
    | .tuple, comps => .tuple info.isReference comps
    | _, _ => ofBase info

def ofDatatypes : List AdiakDatatype → List TypeTree
  | [] => []
  | t :: ts => ofDatatype t :: ofDatatypes ts

end

theorem ofDatatypes_eq_map (ts : List AdiakDatatype) : ofDatatypes ts = ts.map ofDatatype := by
  induction ts with
  | nil => rfl
  | cons t ts ih => rw [ofDatatypes, ih, List.map_cons]

/-- Copied and referenced elements together: one of the two counts is zero. -/
theorem containerNode_count (d : AdiakType) (ref : Bool) (n : Int) :
    (containerNode d ref n).numElements + (containerNode d ref n).numRefElements = n := by
  cases ref <;> simp [containerNode]

theorem ofDatatype_datatype (t : TypeTree) : ofDatatype t.datatype = t := by
  induction t with
  | scalar s => cases s <;> rfl
  | str k ref => cases k <;> cases ref <;> rfl
  | coll k ref n elem ih =>
    rw [datatype, ofDatatype, ofDatatypes, ih, containerNode_count]
    cases k <;> rfl
  | range ref elem ih => rw [datatype, ofDatatype, ofDatatypes, ih]; rfl
  | tuple ref comps ih =>
    have hmap : ofDatatypes (datatypes comps) = comps := by
      rw [datatypes_eq_map, ofDatatypes_eq_map, List.map_map]
      exact (List.map_congr_left ih).trans (List.map_id' comps)
    rw [datatype, ofDatatype, hmap]
    rfl

/-- Distinct trees have distinct datatypes. -/
theorem datatype_injective : Function.Injective datatype :=
  Function.LeftInverse.injective ofDatatype_datatype

end TypeTree

end Adiak
