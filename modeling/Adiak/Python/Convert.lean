import Adiak.Values.References

/-!
# The Python reader

`convert_adiak_value_to_python` of `pyadiak_tool.cpp`.

1. `PyObject` is what the function makes, `PyError` how it ends without one.
2. `Slot` is where the `adiak_value_t *` leads: to a value of the library's, or to eight bytes of the
   caller's memory that are taken for one.
3. `convertAdiakValueToPython` does not call `adiak_get_subval`: it looks for the elements of every
   container at `&(val->v_subval[i])`.
4. `Content.denoted` is the object the table of `adiak_value_t` names for a content.

The `std::chrono` clock counts nanoseconds in 64 bits. `py::cast` makes a `str` of a `std::string` by
decoding UTF-8.
-/

namespace Adiak

/-! ## Objects -/

/-- A Python object. A point in time is in nanoseconds since the epoch, a `str` the bytes that encode it. -/
inductive PyObject where
  | int (x : Int)
  | float (x : CDouble)
  | str (s : CStr)
  | date (ns : Int)
  | timepoint (ns : Int)
  | version (s : CStr)
  | catStr (s : CStr)
  | jsonStr (s : CStr)
  | path (s : CStr)
  | set (elems : List PyObject)
  | list (elems : List PyObject)
  | tuple (elems : List PyObject)

/-- How a conversion ends without an object. -/
inductive PyError where
  /-- `std::runtime_error`. -/
  | runtimeError (what : String)
  /-- An exception raised in Python, when objects are compared or hashed or bytes decoded. -/
  | python
  | undefined

/-- `std::set<py::object>`: which object goes in where, and the Python set that `py::cast` makes of it. -/
structure PySets where
  insert : List PyObject → PyObject → Except PyError (List PyObject)
  cast : List PyObject → Except PyError PyObject

/-- `std::vector<py::object>::push_back`. -/
def pushBack (vals : List PyObject) (x : PyObject) : Except PyError (List PyObject) := .ok (vals ++ [x])

/-- What is undefined for the library is so for Python. -/
def toPy {α : Type} : Except Stop α → Except PyError α
  | .ok a => .ok a
  | .error _ => .error .undefined

/-- Signed 64-bit arithmetic may not overflow. -/
def int64 (x : Int) : Except PyError Int :=
  if -2 ^ 63 ≤ x ∧ x < 2 ^ 63 then .ok x else .error .undefined

/-- A C string whose bytes are UTF-8. -/
def IsUtf8 (s : CStr) : Prop := (s.map Char.toUInt8).toByteArray.IsValidUTF8

instance (s : CStr) : Decidable (IsUtf8 s) := inferInstanceAs (Decidable (ByteArray.IsValidUTF8 _))

/-- The text of a `std::string`: `UnicodeDecodeError` if it is not UTF-8. -/
def decode (s : CStr) : Except PyError CStr :=
  if IsUtf8 s then .ok s else .error .python

theorem decode_of_utf8 {s : CStr} (h : IsUtf8 s) : decode s = .ok s := if_pos h

/-! ## The value -/

/-- Where an `adiak_value_t` lies. -/
inductive Slot where
  | value (v : AdiakValue)
  | memory (p : Addr)

namespace Slot

/-- `val->v_long`. -/
def vLong (m : Memory) : Slot → Except PyError Int
  | .value (.vLong x) => .ok x
  | .value _ => .error .undefined
  | .memory p => toPy (m.loadSigned p 8)

/-- `val->v_int`. -/
def vInt (m : Memory) : Slot → Except PyError Int
  | .value (.vInt x) => .ok x
  | .value _ => .error .undefined
  | .memory p => toPy (m.loadSigned p 4)

/-- `val->v_double`. -/
def vDouble (m : Memory) : Slot → Except PyError CDouble
  | .value (.vDouble x) => .ok x
  | .value _ => .error .undefined
  | .memory p => do
    let bits ← toPy (m.load p 8)
    .ok (.f64 bits)

/-- `val->v_longlong`. -/
def vLonglong (m : Memory) : Slot → Except PyError Int
  | .value (.vLonglong x) => .ok x
  | .value _ => .error .undefined
  | .memory p => toPy (m.loadSigned p 8)

/-- `val->v_ptr`. -/
def vPtr (m : Memory) : Slot → Except PyError Pointer
  | .value (.vPtr p) => .ok p
  | .value _ => .error .undefined
  | .memory p => do
    let a ← toPy (m.loadAddr p)
    .ok (.caller a)

/-- `static_cast<const char*>(val->v_ptr)`, as a `std::string`. -/
def cstr (m : Memory) (val : Slot) : Except PyError CStr := do
  let p ← val.vPtr m
  toPy (p.cstr m)

/-- `&(val->v_subval[i])`: a pointer into the caller's memory is taken for an array of values. -/
def vSubval (m : Memory) (i : Nat) : Slot → Except PyError Slot
  | .value (.vSubval elems) =>
    match elems[i]? with
    | some v => .ok (.value v)
    | none => .error .undefined
  | .value (.vPtr (.caller p)) => .ok (.memory (p + 8 * i))
  | .value _ => .error .undefined
  | .memory q => do
    let p ← toPy (m.loadAddr q)
    .ok (.memory (p + 8 * i))

end Slot

/-! ## The conversion -/

/-- The function at a type. -/
abbrev Converter := Slot → Except PyError PyObject

/-- The element `i`, at the subtype `typeIndex`. -/
def convertElem (m : Memory) (converters : List Converter) (val : Slot) (typeIndex i : Nat) :
    Except PyError PyObject :=
  match converters[typeIndex]? with
  | none => .error .undefined
  | some convert => do
    let v ← val.vSubval m i
    convert v

/-- The next `n` elements, from `i` on; `add` is `insert` or `push_back`. -/
def convertLoop (elem : Nat → Except PyError PyObject)
    (add : List PyObject → PyObject → Except PyError (List PyObject)) :
    Nat → Nat → List PyObject → Except PyError (List PyObject)
  | 0, _, vals => .ok vals
  | n + 1, i, vals => do
    let x ← elem i
    let vals ← add vals x
    convertLoop elem add n (i + 1) vals

/-- `num_elems`. -/
def TypeNode.numElems (info : TypeNode) : Int :=
  if info.isReference then info.numRefElements else info.numElements

mutual

/-- `convert_adiak_value_to_python`. -/
def convertAdiakValueToPython (py : PySets) (m : Memory) : AdiakDatatype → Converter
  | .null, _ => .error .undefined
  | .node info subtype, val =>
    match info.dtype with
    | .long => do
      let x ← val.vLong m
      .ok (.int x)
    | .ulong => do
      let x ← val.vLong m
      .ok (.int (x % 2 ^ 64))
    | .int => do
      let x ← val.vInt m
      .ok (.int x)
    | .uint => do
      let x ← val.vInt m
      .ok (.int (x % 2 ^ 32))
    | .double => do
      let x ← val.vDouble m
      .ok (.float x)
    | .date => do
      let seconds ← val.vLong m
      let ns ← int64 (seconds * 10 ^ 9)
      .ok (.date ns)
    | .timeval => do
      let p ← val.vPtr m
      let tv ← toPy (p.followTimeval m)
      let sec ← int64 (tv.tvSec * 1000000)
      let usec ← int64 (sec + tv.tvUsec)
      let ns ← int64 (usec * 1000)
      .ok (.timepoint ns)
    | .version => do
      let s ← val.cstr m
      .ok (.version s)
    | .string => do
      let s ← val.cstr m
      -- the only string that is decoded here: the classes below and `Version` keep the `std::string`
      let s ← decode s
      .ok (.str s)
    | .catstring => do
      let s ← val.cstr m
      .ok (.catStr s)
    | .jsonstring => do
      let s ← val.cstr m
      .ok (.jsonStr s)
    | .path => do
      let s ← val.cstr m
      .ok (.path s)
    | .range =>
      if subtype.length ≠ 2 then
        .error (.runtimeError "Mismatch in Adiak between 'range' type and number of subtypes")
      else do
        let x ← convertElem m (convertersAt py m subtype) val 0 0
        let y ← convertElem m (convertersAt py m subtype) val 1 1
        .ok (.tuple [x, y])
    | .set =>
      if subtype.length ≠ 1 then
        .error (.runtimeError "Mismatch in Adiak between 'set' type and number of subtypes")
      else do
        let vals ← convertLoop (fun i => convertElem m (convertersAt py m subtype) val 0 i) py.insert
          info.numElems.toNat 0 []
        py.cast vals
    | .list =>
      if subtype.length ≠ 1 then
        .error (.runtimeError "Mismatch in Adiak between 'list' type and number of subtypes")
      else do
        let vals ← convertLoop (fun i => convertElem m (convertersAt py m subtype) val 0 i) pushBack
          info.numElems.toNat 0 []
        .ok (.list vals)
    | .tuple =>
      if (subtype.length : Int) ≠ info.numElems then
        .error (.runtimeError "Mismatch in Adiak between 'tuple' type and number of subtypes")
      else do
        let vals ← convertLoop (fun i => convertElem m (convertersAt py m subtype) val i i) pushBack
          info.numElems.toNat 0 []
        .ok (.tuple vals)
    | .longlong => do
      let x ← val.vLonglong m
      .ok (.int x)
    | .ulonglong => do
      -- no cast to unsigned here, unlike at `adiak_ulong` and `adiak_uint`
      let x ← val.vLonglong m
      .ok (.int x)
    | .unset => .error (.runtimeError "Invalid datatype obtained from Adiak")

def convertersAt (py : PySets) (m : Memory) : List AdiakDatatype → List Converter
  | [] => []
  | t :: ts => (fun val => convertAdiakValueToPython py m t val) :: convertersAt py m ts

end

theorem convertersAt_eq_map (py : PySets) (m : Memory) (ts : List AdiakDatatype) :
    convertersAt py m ts = ts.map (convertAdiakValueToPython py m) := by
  induction ts with
  | nil => rfl
  | cons t ts ih => rw [convertersAt, ih, List.map_cons]

/-! ## What a content denotes -/

/-- Gathering elements one after the other. -/
def gather (add : List PyObject → PyObject → Except PyError (List PyObject))
    (elems : List (Except PyError PyObject)) (vals : List PyObject) :
    Except PyError (List PyObject) :=
  elems.foldlM (fun vals elem => do
    let x ← elem
    add vals x) vals

/-- The object of a container. -/
def PySets.container (py : PySets) (dtype : AdiakType) (elems : List (Except PyError PyObject)) :
    Except PyError PyObject :=
  match dtype with
  | .set => do
    let vals ← gather py.insert elems []
    py.cast vals
  | .list => do
    let vals ← gather pushBack elems []
    .ok (.list vals)
  | _ => do
    let vals ← gather pushBack elems []
    .ok (.tuple vals)

/-- The object of a leaf: the number in the unsigned types is the member read as unsigned. -/
def Leaf.denoted : AdiakType → Leaf → Except PyError PyObject
  | .long, .long x | .int, .int x | .longlong, .longlong x => .ok (.int x)
  | .ulong, .long x | .ulonglong, .longlong x => .ok (.int (x % 2 ^ 64))
  | .uint, .int x => .ok (.int (x % 2 ^ 32))
  | .double, .double x => .ok (.float x)
  | .date, .long x => .ok (.date (x * 10 ^ 9))
  | .timeval, .timeval tv => .ok (.timepoint ((tv.tvSec * 1000000 + tv.tvUsec) * 1000))
  | .version, .str s => .ok (.version s)
  | .string, .str s => .ok (.str s)
  | .catstring, .str s => .ok (.catStr s)
  | .jsonstring, .str s => .ok (.jsonStr s)
  | .path, .str s => .ok (.path s)
  | _, _ => .error .undefined

mutual

/-- The object of a content. -/
def Content.denoted (py : PySets) : Content → Except PyError PyObject
  | .leaf dtype x => x.denoted dtype
  | .node dtype cs => py.container dtype (denotedSeq py cs)

def Content.denotedSeq (py : PySets) : List Content → List (Except PyError PyObject)
  | [] => []
  | c :: cs => c.denoted py :: Content.denotedSeq py cs

end

theorem Content.denotedSeq_eq_map (py : PySets) (cs : List Content) :
    denotedSeq py cs = cs.map (denoted py) := by
  induction cs with
  | nil => rfl
  | cons c cs ih => rw [denotedSeq, ih, List.map_cons]

/-! ## Where the conversion is right -/

/-- `x` is a signed 64-bit number. -/
def Fits64 (x : Int) : Prop := -2 ^ 63 ≤ x ∧ x < 2 ^ 63

/-- A leaf that is converted to what it denotes: an `unsigned long long` is read as signed, a point in
time has to fit the clock, and a `str` is made of UTF-8. -/
def Leaf.Plain : AdiakType → Leaf → Prop
  | .ulonglong, .longlong x => 0 ≤ x ∧ x < 2 ^ 64
  | .date, .long x => Fits64 (x * 10 ^ 9)
  | .timeval, .timeval tv => Fits64 (tv.tvSec * 1000000) ∧
      Fits64 (tv.tvSec * 1000000 + tv.tvUsec) ∧ Fits64 ((tv.tvSec * 1000000 + tv.tvUsec) * 1000)
  | .string, .str s => IsUtf8 s
  | _, _ => True

mutual

/-- A content without ranges whose leaves are plain. -/
def Content.Plain : Content → Prop
  | .leaf dtype x => x.Plain dtype
  | .node dtype cs => dtype ≠ .range ∧ PlainSeq cs

def Content.PlainSeq : List Content → Prop
  | [] => True
  | c :: cs => c.Plain ∧ Content.PlainSeq cs

end

theorem Content.plainSeq_iff {cs : List Content} : PlainSeq cs ↔ ∀ c ∈ cs, c.Plain := by
  induction cs with
  | nil => simp [PlainSeq]
  | cons c cs ih => rw [PlainSeq, ih, List.forall_mem_cons]

namespace TypeTree

/-- A leaf of eight bytes, at which a buffer and an array of values look the same. -/
def FillsSlot : TypeTree → Prop
  | .scalar s => s.size = 8
  | .str _ _ => True
  | _ => False

mutual

/-- Below the copied containers, a container in the caller's memory has leaves of eight bytes, and its
size is an `int`. A range is never converted. -/
def Strided : TypeTree → Prop
  | .scalar _ | .str _ _ | .range _ _ => True
  | .coll _ ref n elem => if ref then 8 * n < 2 ^ 31 ∧ elem.FillsSlot else Strided elem
  | .tuple ref comps =>
    if ref then 8 * (comps.length : Int) < 2 ^ 31 ∧ ∀ t ∈ comps, t.FillsSlot else StridedSeq comps

def StridedSeq : List TypeTree → Prop
  | [] => True
  | t :: ts => Strided t ∧ StridedSeq ts

end

theorem stridedSeq_iff {ts : List TypeTree} : StridedSeq ts ↔ ∀ t ∈ ts, Strided t := by
  induction ts with
  | nil => simp [StridedSeq]
  | cons t ts ih => rw [StridedSeq, ih, List.forall_mem_cons]

theorem Strided.copied {t : TypeTree} {ts : List TypeTree} (h : t.Strided)
    (hc : t.container = some (false, ts)) (hrange : t.dtype ≠ .range) : ∀ u ∈ ts, u.Strided := by
  cases t with
  | scalar s => cases hc
  | str k ref => cases hc
  | coll k ref n elem =>
    obtain ⟨rfl, rfl⟩ := Prod.mk.inj (Option.some.inj hc)
    rw [Strided, if_neg Bool.false_ne_true] at h
    exact fun u hu => (List.eq_of_mem_replicate hu) ▸ h
  | range ref elem => exact absurd rfl hrange
  | tuple ref comps =>
    obtain ⟨rfl, rfl⟩ := Prod.mk.inj (Option.some.inj hc)
    rw [Strided, if_neg Bool.false_ne_true] at h
    exact stridedSeq_iff.mp h

theorem Strided.referenced {t : TypeTree} {ts : List TypeTree} (h : t.Strided)
    (hcounts : t.CountsOk) (hc : t.container = some (true, ts)) (hrange : t.dtype ≠ .range) :
    8 * (ts.length : Int) < 2 ^ 31 ∧ ∀ u ∈ ts, u.FillsSlot := by
  cases t with
  | scalar s => cases hc
  | str k ref => cases hc
  | coll k ref n elem =>
    obtain ⟨rfl, rfl⟩ := Prod.mk.inj (Option.some.inj hc)
    rw [Strided, if_pos rfl] at h
    refine ⟨?_, fun u hu => (List.eq_of_mem_replicate hu) ▸ h.2⟩
    rw [List.length_replicate, Int.toNat_of_nonneg hcounts.elem.1.1]
    exact h.1
  | range ref elem => exact absurd rfl hrange
  | tuple ref comps =>
    obtain ⟨rfl, rfl⟩ := Prod.mk.inj (Option.some.inj hc)
    rwa [Strided, if_pos rfl] at h

theorem FillsSlot.strided {t : TypeTree} (h : t.FillsSlot) : t.Strided := by
  cases t with
  | scalar s => trivial
  | str k ref => trivial
  | coll => cases h
  | range => cases h
  | tuple => cases h

theorem FillsSlot.leaf {t : TypeTree} (h : t.FillsSlot) : t.container = none ∧ t.packedSize = 8 := by
  cases t with
  | scalar s => exact ⟨rfl, h⟩
  | str k ref => exact ⟨rfl, rfl⟩
  | coll => cases h
  | range => cases h
  | tuple => cases h

end TypeTree

end Adiak
