import Mathlib.Data.List.Basic

/-!
# Datatypes

`adiak_datatype_t` of `adiak.h` and the static base types of `adiak.c`.

1. `AdiakType` and `AdiakNumerical` are the two enumerations of `adiak.h`.
2. `AdiakDatatype` is a pointer to an `adiak_datatype_t`: `NULL`, or a node with its array of
   subtypes. The array carries its own length, so `num_subtypes` is not a separate field.
3. The `base…` definitions are the static objects the parser and `adiak_get_basetype` hand out,
   with the sizes of an LP64 machine.
-/

namespace Adiak

/-- `adiak_type_t`. -/
inductive AdiakType where
  | unset
  | long
  | ulong
  | int
  | uint
  | double
  | date
  | timeval
  | version
  | string
  | catstring
  | path
  | range
  | set
  | list
  | tuple
  | longlong
  | ulonglong
  | jsonstring
  deriving DecidableEq

/-- `adiak_numerical_t`. -/
inductive AdiakNumerical where
  | unset
  | categorical
  | ordinal
  | interval
  | rational
  deriving DecidableEq

/-- The scalar fields of an `adiak_datatype_t`. The code uses `is_reference` as a truth value. -/
structure TypeNode where
  dtype : AdiakType
  numerical : AdiakNumerical
  numElements : Int
  isReference : Bool
  numRefElements : Int
  numBytes : Nat
  deriving DecidableEq

/-- An `adiak_datatype_t *`. -/
inductive AdiakDatatype where
  | null
  | node (info : TypeNode) (subtype : List AdiakDatatype)

/-- Induction over a datatype and its subtypes. -/
@[elab_as_elim, induction_eliminator]
theorem AdiakDatatype.induction {P : AdiakDatatype → Prop} (null : P .null)
    (node : ∀ info subtype, (∀ s ∈ subtype, P s) → P (.node info subtype)) : ∀ t, P t :=
  @AdiakDatatype.rec P (fun l => ∀ s ∈ l, P s) null
    (fun info subtype ih => node info subtype ih) (fun _ h => absurd h (List.not_mem_nil))
    (fun _ _ hs hl => List.forall_mem_cons.mpr ⟨hs, hl⟩)

/-- `t->dtype`. -/
def AdiakDatatype.dtype : AdiakDatatype → AdiakType
  | .null => .unset
  | .node info _ => info.dtype

/-! ## Value categories -/

/-- `adiak_numerical_from_type`. -/
def adiakNumericalFromType : AdiakType → AdiakNumerical
  | .unset => .unset
  | .long | .ulong | .longlong | .ulonglong | .int | .uint | .double => .rational
  | .date | .timeval => .interval
  | .version | .string => .ordinal
  | .catstring | .jsonstring | .path | .range | .set | .list | .tuple => .categorical

/-- `is_basetype`. -/
def isBasetype (t : AdiakType) : Bool :=
  !(t = .range || t = .set || t = .list || t = .tuple)

/-! ## Base types -/

/-- A static base type: no elements, no subtypes. -/
def baseType (dtype : AdiakType) (numerical : AdiakNumerical) (isReference : Bool)
    (numBytes : Nat) : AdiakDatatype :=
  .node { dtype, numerical, numElements := 0, isReference, numRefElements := 0, numBytes } []

def baseLong : AdiakDatatype := baseType .long .rational false 8
def baseUlong : AdiakDatatype := baseType .ulong .rational false 8
def baseLonglong : AdiakDatatype := baseType .longlong .rational false 8
def baseUlonglong : AdiakDatatype := baseType .ulonglong .rational false 8
def baseInt : AdiakDatatype := baseType .int .rational false 4
def baseI8 : AdiakDatatype := baseType .int .rational false 1
def baseI16 : AdiakDatatype := baseType .int .rational false 2
def baseU8 : AdiakDatatype := baseType .uint .rational false 1
def baseU16 : AdiakDatatype := baseType .uint .rational false 2
def baseUint : AdiakDatatype := baseType .uint .rational false 4
def baseDouble : AdiakDatatype := baseType .double .rational false 8
def baseFloat : AdiakDatatype := baseType .double .rational false 4
def baseDate : AdiakDatatype := baseType .date .interval false 8
def baseTimeval : AdiakDatatype := baseType .timeval .interval false 8
def baseVersion : AdiakDatatype := baseType .version .ordinal false 8
def baseString : AdiakDatatype := baseType .string .ordinal false 8
def baseCatstring : AdiakDatatype := baseType .catstring .categorical false 8
def baseJsonstring : AdiakDatatype := baseType .jsonstring .categorical false 8
def basePath : AdiakDatatype := baseType .path .categorical false 8
def baseVersionRef : AdiakDatatype := baseType .version .ordinal true 8
def baseStringRef : AdiakDatatype := baseType .string .ordinal true 8
def baseCatstringRef : AdiakDatatype := baseType .catstring .categorical true 8
def baseJsonstringRef : AdiakDatatype := baseType .jsonstring .categorical true 8
def basePathRef : AdiakDatatype := baseType .path .categorical true 8

/-- `adiak_get_basetype`. -/
def adiakGetBasetype : AdiakType → AdiakDatatype
  | .unset => .null
  | .long => baseLong
  | .ulong => baseUlong
  | .longlong => baseLonglong
  | .ulonglong => baseUlonglong
  | .int => baseInt
  | .uint => baseUint
  | .double => baseDouble
  | .date => baseDate
  | .timeval => baseTimeval
  | .version => baseVersion
  | .string => baseString
  | .catstring => baseCatstring
  | .jsonstring => baseJsonstring
  | .path => basePath
  | .range | .set | .list | .tuple => .null

/-- The node of a container with `n` elements: a reference counts them in `num_ref_elements`. -/
def containerNode (dtype : AdiakType) (isReference : Bool) (n : Int) : TypeNode where
  dtype := dtype
  numerical := .categorical
  numElements := if isReference then 0 else n
  isReference := isReference
  numRefElements := if isReference then n else 0
  numBytes := 0

/-- The zeroed node `malloc` and `memset` leave behind when no branch fills it in. -/
def zeroNode : TypeNode where
  dtype := .unset
  numerical := .unset
  numElements := 0
  isReference := false
  numRefElements := 0
  numBytes := 0

end Adiak
