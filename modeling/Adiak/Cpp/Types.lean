import Adiak.Store.Record
import Adiak.Values.Integers

/-!
# The C++ interface

The templates of `adiak_internal.hpp` and `adiak::value`.

1. `CppType` is a type `parse<T>` is instantiated at, `CppValue` a value of one in iteration order.
2. `makeType` and `makeRangeT` build the datatype, `makeValue` builds the value and writes the number
   of elements into the datatype as it goes.
3. `valueArgs` is what `adiak::value` hands to `adiak_raw_namevalue`.

The datatype is threaded through `makeValue` in place of the pointer the code writes through.
-/

namespace Adiak

/-! ## Types -/

/-- The types of the specialisations of `element_type` that are no containers. -/
inductive CppScalar where
  | long
  | ulong
  | longlong
  | ulonglong
  | int
  | uint
  | short
  | ushort
  | char
  | uchar
  | double
  | float
  | charPtr
  | string
  | timevalPtr
  | date
  | version
  | path
  | catstring
  | jsonstring
  deriving DecidableEq

/-- The STL containers. -/
inductive CppContainer where
  | set
  | unorderedSet
  | multiset
  | vector
  | list
  | array (n : Nat)
  | deque
  deriving DecidableEq

/-- A C++ type. `other` stands for the types `element_type` is not specialised at. -/
inductive CppType where
  | scalar (s : CppScalar)
  | other
  | container (c : CppContainer) (elem : CppType)
  | tuple (ts : List CppType)

/-- `element_type<T>::dtype`. -/
def CppScalar.dtype : CppScalar → AdiakType
  | .long => .long
  | .ulong => .ulong
  | .longlong => .longlong
  | .ulonglong => .ulonglong
  | .int | .short | .char => .int
  | .uint | .ushort | .uchar => .uint
  | .double | .float => .double
  | .charPtr | .string => .string
  | .timevalPtr => .timeval
  | .date => .date
  | .version => .version
  | .path => .path
  | .catstring => .catstring
  | .jsonstring => .jsonstring

/-- `element_type<T>::dtype` of a container. -/
def CppContainer.dtype : CppContainer → AdiakType
  | .set | .unorderedSet | .multiset => .set
  | .vector | .list | .array _ | .deque => .list

/-- The node of a container or a tuple: all other fields are zero. -/
def cppNode (dtype : AdiakType) (n : Int) : TypeNode where
  dtype := dtype
  numerical := adiakNumericalFromType dtype
  numElements := n
  isReference := false
  numRefElements := 0
  numBytes := 0

mutual

/-- `parse<T>::make_type`. The type of a tuple may have `NULL` among its subtypes. -/
def makeType : CppType → AdiakDatatype
  | .scalar s => adiakGetBasetype s.dtype
  | .other => adiakGetBasetype .unset
  | .container c elem =>
    match makeType elem with
    | .null => .null
    | .node info subtype => .node (cppNode c.dtype 0) [.node info subtype]
  | .tuple ts => .node (cppNode .tuple ts.length) (makeTypes ts)

/-- `set_tuple_type<T, I>::settype`. -/
def makeTypes : List CppType → List AdiakDatatype
  | [] => []
  | t :: ts => makeType t :: makeTypes ts

end

/-- The node of a range: its `numerical` is not set. -/
def cppRangeNode : TypeNode where
  dtype := .range
  numerical := .unset
  numElements := 2
  isReference := false
  numRefElements := 0
  numBytes := 0

/-- `make_range_t`. -/
def makeRangeT (t : CppType) : AdiakDatatype :=
  match makeType t with
  | .null => .null
  | .node info subtype => .node cppRangeNode [.node info subtype]

/-! ## Values -/

/-- A C++ value. A container or a tuple is the list of its elements in iteration order, a pointer to
a C string or a `struct timeval` is what it points to. -/
inductive CppValue where
  | integer (x : Int)
  | floating (x : CDouble)
  | str (s : List Char)
  | timeval (tv : Timeval)
  | pointer (p : Addr)
  | elems (vs : List CppValue)

/-- `element_type<T>::set`. -/
def CppScalar.set : CppScalar → CppValue → Except Stop AdiakValue
  | .long, .integer x => .ok (.vLong x)
  | .ulong, .integer x | .date, .integer x => .ok (.vLong (Int.bmod x (2 ^ 64)))
  | .longlong, .integer x => .ok (.vLonglong x)
  | .ulonglong, .integer x => .ok (.vLonglong (Int.bmod x (2 ^ 64)))
  | .int, .integer x | .short, .integer x | .ushort, .integer x | .char, .integer x
  | .uchar, .integer x => .ok (.vInt x)
  | .uint, .integer x => .ok (.vInt (wrapInt x))
  | .double, .floating x | .float, .floating x => .ok (.vDouble x)
  | .charPtr, .str s | .string, .str s | .version, .str s | .path, .str s | .catstring, .str s
  | .jsonstring, .str s => .ok (.vPtr (.strdup (cStr s)))
  | .timevalPtr, .timeval tv => .ok (.vPtr (.timeval tv))
  | _, _ => .error .undefined

/-- The loop of `create_container_type<T>::make_value`: all elements share one subtype. -/
def makeElems (make : CppValue → AdiakDatatype → Except Stop (AdiakValue × AdiakDatatype)) :
    List CppValue → AdiakDatatype → Except Stop (List AdiakValue × AdiakDatatype)
  | [], dtype => .ok ([], dtype)
  | v :: vs, dtype => do
    let (x, dtype) ← make v dtype
    let (xs, dtype) ← makeElems make vs dtype
    .ok (x :: xs, dtype)

mutual

/-- `parse<T>::make_value`: the value, and the datatype after the writes to it. -/
def makeValue : CppType → CppValue → AdiakDatatype → Except Stop (AdiakValue × AdiakDatatype)
  | .scalar s, v, dtype => do
    let x ← s.set v
    .ok (x, dtype)
  | .other, .pointer p, dtype => .ok (.vPtr (.caller p), dtype)
  | .container _ elem, .elems vs, .node info (sub :: subtype) => do
    let (valarray, sub) ← makeElems (fun v d => makeValue elem v d) vs sub
    .ok (.vSubval valarray, .node { info with numElements := wrapInt vs.length } (sub :: subtype))
  | .tuple ts, .elems vs, .node info subtype => do
    let (valarray, subtype) ← makeComps ts vs subtype
    .ok (.vSubval valarray, .node info subtype)
  | _, _, _ => .error .undefined

/-- `set_tuple_type<T, I>::setvalue`. -/
def makeComps : List CppType → List CppValue → List AdiakDatatype →
    Except Stop (List AdiakValue × List AdiakDatatype)
  | [], [], subtype => .ok ([], subtype)
  | t :: ts, v :: vs, sub :: subtype => do
    let (x, sub) ← makeValue t v sub
    let (xs, subtype) ← makeComps ts vs subtype
    .ok (x :: xs, sub :: subtype)
  | _, _, _ => .error .undefined

end

/-- What `adiak::value` is passed: one object, or two that make a range. -/
inductive CppArg where
  | one (v : CppValue)
  | range (a b : CppValue)

/-- The objects `adiak::value` is passed. -/
def CppArg.values : CppArg → List CppValue
  | .one v => [v]
  | .range a b => [a, b]

/-- The value and the datatype `adiak::value` hands to `adiak_raw_namevalue`; `Stop.null` is its
return of `false`. -/
def valueArgs (t : CppType) : CppArg → Except Stop (AdiakValue × AdiakDatatype)
  | .one v =>
    match makeType t with
    | .null => .error .null
    | .node info subtype => makeValue t v (.node info subtype)
  | .range a b =>
    match makeRangeT t with
    | .node info (sub :: subtype) => do
      let (x, sub) ← makeValue t a sub
      let (y, sub) ← makeValue t b sub
      .ok (.vSubval [x, y], .node info (sub :: subtype))
    | _ => .error .null

/-- `adiak::value`: the result and the state. -/
def value (s : AdiakState) (name : List Char) (t : CppType) (arg : CppArg) (category : Int)
    (subcategory : List Char) : Except Stop (Bool × AdiakState) :=
  match valueArgs t arg with
  | .error .null => .ok (false, s)
  | .error e => .error e
  | .ok (avalue, datatype) => do
    let s ← adiakRawNamevalue s {
      name := cStr name
      category := category
      subcategory := some (cStr subcategory)
      value := avalue
      dtype := datatype }
    .ok (true, s)

/-! ## Typed values -/

/-- The C type of an integral scalar. -/
def CppScalar.integral : CppScalar → Option ScalarKind
  | .long => some .long
  | .ulong | .date => some .ulong
  | .longlong => some .longlong
  | .ulonglong => some .ulonglong
  | .int => some .int
  | .uint => some .uint
  | .short => some .i16
  | .ushort => some .u16
  | .char => some .i8
  | .uchar => some .u8
  | _ => none

/-- The values of a scalar type. A C string has no NUL inside. -/
def CppScalar.HasValue (s : CppScalar) (v : CppValue) : Prop :=
  match s, v with
  | s, .integer x => ∃ k, s.integral = some k ∧ k.InRange x
  | .double, .floating (.f64 _) | .float, .floating (.ofFloat _) => True
  | .charPtr, .str s => nul ∉ s
  | .string, .str _ | .version, .str _ | .path, .str _ | .catstring, .str _
  | .jsonstring, .str _ => True
  | .timevalPtr, .timeval _ => True
  | _, _ => False

/-- An array has its length in its type. -/
def CppContainer.HasLength : CppContainer → Nat → Prop
  | .array n, len => len = n
  | _, _ => True

mutual

/-- The values of a type that is supported: no tuple has 2^31 components. -/
def HasType : CppType → CppValue → Prop
  | .scalar s, v => s.HasValue v
  | .container c elem, .elems vs => c.HasLength vs.length ∧ ∀ v ∈ vs, HasType elem v
  | .tuple ts, .elems vs => HasTypes ts vs
  | _, _ => False

def HasTypes : List CppType → List CppValue → Prop
  | [], [] => True
  | t :: ts, v :: vs => HasType t v ∧ HasTypes ts vs
  | _, _ => False

end

/-- Types of supported scalars. The arity of a tuple is an `int`. -/
inductive CppType.Supported : CppType → Prop
  | scalar (s : CppScalar) : Supported (.scalar s)
  | container (c : CppContainer) {elem : CppType} (h : Supported elem) :
      Supported (.container c elem)
  | tuple {ts : List CppType} (hlen : (ts.length : Int) < 2 ^ 31) (h : ∀ t ∈ ts, Supported t) :
      Supported (.tuple ts)

end Adiak
