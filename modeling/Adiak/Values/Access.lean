import Adiak.Memory

/-!
# Copying and reading values

`calc_size`, `copy_value`, `adiak_num_subvals` and `adiak_get_subval` of `adiak.c`.

The recursive calls on the subtypes are collected in a list (`calcSizes`, `copyValues`) that the
loops index the way the code indexes `subtype`. `int` arithmetic wraps at 32 bits.
-/

namespace Adiak

/-! ## Sizes -/

/-- The loop of `calc_size` over the components of a tuple. -/
def sumSizes : List (Except Stop Int) → Int → Except Stop Int
  | [], bytes => .ok bytes
  | size :: sizes, bytes => do
    let s ← size
    sumSizes sizes (wrapInt (bytes + s))

mutual

/-- `calc_size`. -/
def calcSize : AdiakDatatype → Except Stop Int
  | .null => .error .undefined
  | .node info subtype =>
    match info.dtype with
    | .unset => .ok (-1)
    | .long | .ulong | .date => .ok 8
    | .longlong | .ulonglong | .int | .uint | .double => .ok info.numBytes
    | .timeval | .version | .string | .catstring | .jsonstring | .path => .ok 8
    | .range | .set | .list =>
      match calcSizes subtype with
      | [] => .error .undefined
      | size :: _ => do
        let s ← size
        .ok (wrapInt (wrapInt (info.numElements + info.numRefElements) * s))
    | .tuple => sumSizes (calcSizes subtype) 0

def calcSizes : List AdiakDatatype → List (Except Stop Int)
  | [] => []
  | t :: ts => calcSize t :: calcSizes ts

end

theorem calcSizes_eq_map (ts : List AdiakDatatype) : calcSizes ts = ts.map calcSize := by
  induction ts with
  | nil => rfl
  | cons t ts ih => rw [calcSizes, ih, List.map_cons]

/-! ## Copying -/

/-- The `switch` on `num_bytes` of an integer leaf. -/
def loadInt (m : Memory) (numBytes : Nat) (ptr : Addr) : Except Stop Int :=
  match numBytes with
  | 1 => m.loadSigned ptr 1
  | 2 => m.loadSigned ptr 2
  | _ => m.loadSigned ptr 4

/-- A `double` leaf, which may be a `float` in memory. -/
def loadDouble (m : Memory) (numBytes : Nat) (ptr : Addr) : Except Stop CDouble :=
  if numBytes = 4 then do
    let x ← m.load ptr 4
    .ok (.ofFloat x)
  else do
    let x ← m.load ptr 8
    .ok (.f64 x)

/-- Copying one value of a fixed type: the value and the bytes read. -/
abbrev Copier := Addr → Except Stop (AdiakValue × Int)

/-- The loop of `copy_value` over the next `n` elements: `type_index` advances in a tuple only. -/
def copyLoop (copiers : List Copier) (isTuple : Bool) (ptr : Addr) :
    Nat → Nat → Int → Except Stop (List AdiakValue × Int)
  | 0, _, bytesRead => .ok ([], bytesRead)
  | n + 1, typeIndex, bytesRead =>
    match copiers[typeIndex]? with
    | none => .error .undefined
    | some copy => do
      let (newvalue, result) ← copy (ptr + bytesRead)
      if result = -1 then .error .null
      else
        let (newvalues, bytesRead) ← copyLoop copiers isTuple ptr n
          (if isTuple then typeIndex + 1 else typeIndex) (wrapInt (bytesRead + result))
        .ok (newvalue :: newvalues, bytesRead)

mutual

/-- `copy_value`: what is written to the target, and the bytes read. -/
def copyValue (m : Memory) : AdiakDatatype → Copier
  | .null, _ => .error .undefined
  | .node info subtype, ptr =>
    match info.dtype with
    | .unset => .error .null
    | .long | .ulong | .date => do
      let x ← m.loadSigned ptr 8
      .ok (.vLong x, 8)
    | .longlong | .ulonglong => do
      let x ← m.loadSigned ptr 8
      .ok (.vLonglong x, 8)
    | .int | .uint => do
      let x ← loadInt m info.numBytes ptr
      .ok (.vInt x, info.numBytes)
    | .double => do
      let x ← loadDouble m info.numBytes ptr
      .ok (.vDouble x, info.numBytes)
    | .timeval => do
      let v ← m.loadAddr ptr
      if info.isReference then .ok (.vPtr (.caller v), 8)
      else
        let tmp ← m.loadTimeval v
        .ok (.vPtr (.timeval tmp), 8)
    | .version | .string | .catstring | .jsonstring | .path => do
      let sptr ← m.loadAddr ptr
      if info.isReference then .ok (.vPtr (.caller sptr), 8)
      else
        let s ← m.loadCstr sptr
        .ok (.vPtr (.strdup s), 8)
    | .range | .set | .list | .tuple =>
      if info.isReference then do
        let size ← calcSize (.node info subtype)
        .ok (.vPtr (.caller ptr), size)
      else do
        let (newvalues, bytesRead) ← copyLoop (copyValues m subtype) (info.dtype = .tuple) ptr
          info.numElements.toNat 0 0
        .ok (.vSubval newvalues, bytesRead)

def copyValues (m : Memory) : List AdiakDatatype → List Copier
  | [] => []
  | t :: ts => (fun ptr => copyValue m t ptr) :: copyValues m ts

end

theorem copyValues_eq_map (m : Memory) (ts : List AdiakDatatype) :
    copyValues m ts = ts.map (copyValue m) := by
  induction ts with
  | nil => rfl
  | cons t ts ih => rw [copyValues, ih, List.map_cons]

/-- Copying a container that is no reference. -/
theorem copyValue_container (m : Memory) {info : TypeNode} (subtype : List AdiakDatatype)
    (ptr : Addr) (hbase : isBasetype info.dtype = false) (href : info.isReference = false) :
    copyValue m (.node info subtype) ptr =
      (copyLoop (copyValues m subtype) (info.dtype = .tuple) ptr info.numElements.toNat 0 0).map
        fun r => (.vSubval r.1, r.2) := by
  obtain ⟨dtype, numerical, numElements, isReference, numRefElements, numBytes⟩ := info
  obtain rfl : isReference = false := href
  replace hbase : isBasetype dtype = false := hbase
  cases dtype <;> first
    | exact absurd hbase (by decide)
    | (unfold copyValue
       dsimp only
       rw [if_neg Bool.false_ne_true]
       cases copyLoop (copyValues m subtype) _ ptr numElements.toNat 0 0 <;> rfl)

/-- Copying a container that is a reference keeps the pointer. -/
theorem copyValue_reference {m : Memory} {info : TypeNode} {subtype : List AdiakDatatype}
    {size : Int} (ptr : Addr) (hbase : isBasetype info.dtype = false)
    (href : info.isReference = true) (hsize : calcSize (.node info subtype) = .ok size) :
    copyValue m (.node info subtype) ptr = .ok (.vPtr (.caller ptr), size) := by
  obtain ⟨dtype, numerical, numElements, isReference, numRefElements, numBytes⟩ := info
  obtain rfl : isReference = true := href
  replace hbase : isBasetype dtype = false := hbase
  cases dtype <;> first
    | exact absurd hbase (by decide)
    | (unfold copyValue
       dsimp only
       rw [if_pos rfl, hsize]
       rfl)

/-! ## Reading back -/

/-- `adiak_num_subvals`. -/
def adiakNumSubvals : AdiakDatatype → Except Stop Int
  | .null => .error .undefined
  | .node info _ => .ok (wrapInt (info.numElements + info.numRefElements))

/-- What `adiak_get_subval` returns, with `*subtype` and `*subval`. -/
structure Subval where
  ret : Int
  subtype : AdiakDatatype
  subval : AdiakValue

/-- The `error` label. -/
def Subval.error : Subval where
  ret := -1
  subtype := .null
  subval := .vPtr .null

/-- Indexing the array of subtypes. -/
def subtypeAt (subtype : List AdiakDatatype) (i : Nat) : Except Stop AdiakDatatype :=
  match subtype[i]? with
  | some t => .ok t
  | none => .error .undefined

/-- The loop that sums the sizes of the components in front; `none` is a jump to `error`. -/
def prefixBytes : List AdiakDatatype → Nat → Int → Except Stop (Option Int)
  | _, 0, bytes => .ok (some bytes)
  | [], _ + 1, _ => .error .undefined
  | t :: ts, n + 1, bytes => do
    let s ← calcSize t
    if s < 0 then .ok none else prefixBytes ts n (wrapInt (bytes + s))

/-- The `switch` that makes a value for the element at `ptr`. -/
def decodeSubval (m : Memory) (subtype : AdiakDatatype) (ptr : Addr) : Except Stop Subval :=
  match subtype with
  | .null => .error .undefined
  | .node info _ =>
    match info.dtype with
    | .unset => .ok { ret := -1, subtype, subval := .vPtr .null }
    | .long | .ulong | .date => do
      let x ← m.loadSigned ptr 8
      .ok { ret := 0, subtype, subval := .vLong x }
    | .longlong | .ulonglong => do
      let x ← m.loadSigned ptr 8
      .ok { ret := 0, subtype, subval := .vLonglong x }
    | .int | .uint => do
      let x ← loadInt m info.numBytes ptr
      .ok { ret := 0, subtype, subval := .vInt x }
    | .double => do
      let x ← loadDouble m info.numBytes ptr
      .ok { ret := 0, subtype, subval := .vDouble x }
    | .timeval | .version | .string | .catstring | .jsonstring | .path => do
      let v ← m.loadAddr ptr
      .ok { ret := 0, subtype, subval := .vPtr (.caller v) }
    | .range | .set | .list | .tuple =>
      .ok { ret := 0, subtype, subval := .vPtr (.caller ptr) }

/-- The offset and the type of the element `elem` of zero-copy data. -/
def subvalOffset (info : TypeNode) (subtype : List AdiakDatatype) (elem : Nat) :
    Except Stop (Option (Int × AdiakDatatype)) :=
  if info.dtype = .tuple then do
    match ← prefixBytes subtype elem 0 with
    | none => .ok none
    | some bytes =>
      let t ← subtypeAt subtype elem
      .ok (some (bytes, t))
  else do
    let t ← subtypeAt subtype 0
    let s ← calcSize t
    let bytes := wrapInt (elem * s)
    if bytes < 0 then .ok none else .ok (some (bytes, t))

/-- `adiak_get_subval`. -/
def adiakGetSubval (m : Memory) (t : AdiakDatatype) (val : AdiakValue) (elem : Int) :
    Except Stop Subval :=
  if elem < 0 then .ok .error
  else
    match t with
    | .null => .error .undefined
    | .node info subtype =>
      if info.isReference = false then
        if info.numElements ≤ elem then .ok .error
        else do
          let sub ← subtypeAt subtype (if info.dtype = .tuple then elem.toNat else 0)
          match val with
          | .vSubval elems =>
            match elems[elem.toNat]? with
            | some v => .ok { ret := 0, subtype := sub, subval := v }
            | none => .error .undefined
          | _ => .error .undefined
      else if info.numRefElements ≤ elem then .ok .error
      else do
        match ← subvalOffset info subtype elem.toNat with
        | none => .ok .error
        | some (bytes, sub) =>
          match val with
          | .vPtr (.caller p) => decodeSubval m sub (p + bytes)
          | _ => .error .undefined

end Adiak
