import Adiak.Library.Packed
import Adiak.TypeTree
import Adiak.Values.Access

/-!
# Contents of packed buffers

What a buffer holds, and what the readers of a value see.

1. `Content` is the tree that `adiak_num_subvals` and `adiak_get_subval` let a reader walk, with
   strings and timevals followed to what they point to. `readTree` walks it.
2. `TypeTree.contentsAt` is the content of the caller's buffer, packed without gaps, as a function
   of the type alone: no reference mark plays a part.
3. `TypeTree.container` shows the three kinds of containers as a sequence of element types.
-/

namespace Adiak

/-! ## Contents -/

/-- What a leaf holds. -/
inductive Leaf where
  | long (x : Int)
  | int (x : Int)
  | double (x : CDouble)
  | longlong (x : Int)
  | str (s : CStr)
  | timeval (tv : Timeval)
  deriving DecidableEq

/-- The content of a value: leaves and containers with their types. -/
inductive Content where
  | leaf (dtype : AdiakType) (x : Leaf)
  | node (dtype : AdiakType) (elems : List Content)

/-- Following a `char *` of a value. -/
def Pointer.cstr (m : Memory) : Pointer → Except Stop CStr
  | .caller p => m.loadCstr p
  | .strdup s => .ok s
  | .timeval _ => .error .undefined

/-- Following a `struct timeval *` of a value. -/
def Pointer.followTimeval (m : Memory) : Pointer → Except Stop Timeval
  | .caller p => m.loadTimeval p
  | .strdup _ => .error .undefined
  | .timeval tv => .ok tv

/-- The member of a value that the table of `adiak_value_t` names for a base type. -/
def readLeaf (m : Memory) (dtype : AdiakType) (v : AdiakValue) : Except Stop Leaf :=
  match dtype, v with
  | .long, .vLong x | .ulong, .vLong x | .date, .vLong x => .ok (.long x)
  | .int, .vInt x | .uint, .vInt x => .ok (.int x)
  | .double, .vDouble x => .ok (.double x)
  | .longlong, .vLonglong x | .ulonglong, .vLonglong x => .ok (.longlong x)
  | .timeval, .vPtr p => do
    let tv ← p.followTimeval m
    .ok (.timeval tv)
  | .version, .vPtr p | .string, .vPtr p | .catstring, .vPtr p | .jsonstring, .vPtr p
  | .path, .vPtr p => do
    let s ← p.cstr m
    .ok (.str s)
  | _, _ => .error .undefined

/-- The next `n` elements of a container, from index `i`. A rejected index stops the walk. -/
def readElems (m : Memory) (read : AdiakDatatype → AdiakValue → Except Stop Content)
    (t : AdiakDatatype) (v : AdiakValue) : Nat → Nat → Except Stop (List Content)
  | 0, _ => .ok []
  | n + 1, i => do
    let r ← adiakGetSubval m t v i
    if r.ret = 0 then do
      let c ← read r.subtype r.subval
      let cs ← readElems m read t v n (i + 1)
      .ok (c :: cs)
    else .error .null

/-- The content of a value, read down to a depth. -/
def readTree (m : Memory) : Nat → AdiakDatatype → AdiakValue → Except Stop Content
  | 0, _, _ => .error .fuel
  | fuel + 1, t, v =>
    if isBasetype t.dtype then do
      let x ← readLeaf m t.dtype v
      .ok (.leaf t.dtype x)
    else do
      let n ← adiakNumSubvals t
      let cs ← readElems m (readTree m fuel) t v n.toNat 0
      .ok (.node t.dtype cs)

/-! ## Packed buffers -/

/-- The bytes of a scalar. -/
def ScalarKind.size : ScalarKind → Int
  | .long | .ulong | .longlong | .ulonglong | .double | .date | .timeval => 8
  | .int | .uint | .float => 4
  | .i16 | .u16 => 2
  | .i8 | .u8 => 1

def ScalarKind.dtype : ScalarKind → AdiakType
  | .long => .long
  | .ulong => .ulong
  | .longlong => .longlong
  | .ulonglong => .ulonglong
  | .int | .i8 | .i16 => .int
  | .uint | .u8 | .u16 => .uint
  | .double | .float => .double
  | .date => .date
  | .timeval => .timeval

def StringKind.dtype : StringKind → AdiakType
  | .version => .version
  | .string => .string
  | .catstring => .catstring
  | .jsonstring => .jsonstring
  | .path => .path

/-- A scalar in memory, as the two `switch`es of the code decode it. -/
def ScalarKind.leafAt (m : Memory) (s : ScalarKind) (p : Addr) : Except Stop Leaf :=
  match s with
  | .long | .ulong | .date => do
    let x ← m.loadSigned p 8
    .ok (.long x)
  | .longlong | .ulonglong => do
    let x ← m.loadSigned p 8
    .ok (.longlong x)
  | .int | .uint => do
    let x ← m.loadSigned p 4
    .ok (.int x)
  | .i8 | .u8 => do
    let x ← m.loadSigned p 1
    .ok (.int x)
  | .i16 | .u16 => do
    let x ← m.loadSigned p 2
    .ok (.int x)
  | .double => do
    let x ← m.load p 8
    .ok (.double (.f64 x))
  | .float => do
    let x ← m.load p 4
    .ok (.double (.ofFloat x))
  | .timeval => do
    let v ← m.loadAddr p
    let tv ← m.loadTimeval v
    .ok (.timeval tv)

/-- A string in memory: the pointer is followed. -/
def stringAt (m : Memory) (p : Addr) : Except Stop Leaf := do
  let sptr ← m.loadAddr p
  let s ← m.loadCstr sptr
  .ok (.str s)

namespace TypeTree

mutual

/-- The bytes of a value without gaps. -/
def packedSize : TypeTree → Int
  | .scalar s => s.size
  | .str _ _ => 8
  | .coll _ _ n elem => n * packedSize elem
  | .range _ elem => 2 * packedSize elem
  | .tuple _ comps => packedSizes comps

def packedSizes : List TypeTree → Int
  | [] => 0
  | t :: ts => packedSize t + packedSizes ts

end

mutual

/-- The content of a packed buffer. -/
def contentsAt (m : Memory) : TypeTree → Addr → Except Stop Content
  | .scalar s, p => do
    let x ← s.leafAt m p
    .ok (.leaf s.dtype x)
  | .str k _, p => do
    let x ← stringAt m p
    .ok (.leaf k.dtype x)
  | .coll k _ n elem, p => do
    let cs ← Packed.readAll (List.replicate n.toNat ⟨packedSize elem, fun q => contentsAt m elem q⟩) p
    .ok (.node k.dtype cs)
  | .range _ elem, p => do
    let cs ← Packed.readAll (List.replicate 2 ⟨packedSize elem, fun q => contentsAt m elem q⟩) p
    .ok (.node .range cs)
  | .tuple _ comps, p => do
    let cs ← Packed.readAll (fields m comps) p
    .ok (.node .tuple cs)

def fields (m : Memory) : List TypeTree → List (Packed.Field Stop Content)
  | [] => []
  | t :: ts => ⟨packedSize t, fun q => contentsAt m t q⟩ :: fields m ts

end

/-- A type as a field of a packed record. -/
def field (m : Memory) (t : TypeTree) : Packed.Field Stop Content where
  size := t.packedSize
  read := t.contentsAt m

theorem fields_eq_map (m : Memory) (ts : List TypeTree) : fields m ts = ts.map (field m) := by
  induction ts with
  | nil => rfl
  | cons t ts ih =>
    rw [fields, ih, List.map_cons]
    rfl

theorem packedSizes_eq_span (m : Memory) (ts : List TypeTree) :
    packedSizes ts = Packed.span (ts.map (field m)) := by
  induction ts with
  | nil => rfl
  | cons t ts ih =>
    rw [packedSizes, ih, List.map_cons, Packed.span_cons]
    rfl

/-! ## Containers as sequences -/

/-- The `dtype` of a tree. -/
def dtype : TypeTree → AdiakType
  | .scalar s => s.dtype
  | .str k _ => k.dtype
  | .coll k _ _ _ => k.dtype
  | .range _ _ => .range
  | .tuple _ _ => .tuple

/-- A container: whether it is a reference, and the types of its elements in order. -/
def container : TypeTree → Option (Bool × List TypeTree)
  | .scalar _ | .str _ _ => none
  | .coll _ ref n elem => some (ref, List.replicate n.toNat elem)
  | .range ref elem => some (ref, [elem, elem])
  | .tuple ref comps => some (ref, comps)

/-- The counts are values of an `int` that are not negative. -/
def CountsOk (t : TypeTree) : Prop := ∀ n ∈ t.counts, 0 ≤ n ∧ n < 2 ^ 31

theorem CountsOk.elem {k : CollKind} {ref : Bool} {n : Int} {elem : TypeTree}
    (h : CountsOk (.coll k ref n elem)) : (0 ≤ n ∧ n < 2 ^ 31) ∧ CountsOk elem := by
  unfold CountsOk at h ⊢
  rw [counts, List.forall_mem_cons] at h
  exact h

theorem CountsOk.comps {ref : Bool} {comps : List TypeTree} (h : CountsOk (.tuple ref comps)) :
    (comps.length : Int) < 2 ^ 31 ∧ ∀ t ∈ comps, CountsOk t := by
  unfold CountsOk at h ⊢
  rw [counts, List.forall_mem_cons, countsList_eq_flatMap] at h
  refine ⟨h.1.2, fun t ht n hn => h.2 n ?_⟩
  exact List.mem_flatMap.mpr ⟨t, ht, hn⟩

/-- A walk over a tree: the leaves, and the containers over their elements. -/
theorem container_induction {P : TypeTree → Prop} (leaf : ∀ t, t.container = none → P t)
    (container : ∀ t ref ts, t.container = some (ref, ts) → (∀ u ∈ ts, P u) → P t) :
    ∀ t, P t := by
  intro t
  induction t with
  | scalar s => exact leaf _ rfl
  | str k ref => exact leaf _ rfl
  | coll k ref n elem ih =>
    exact container _ _ _ rfl fun u hu => (List.eq_of_mem_replicate hu) ▸ ih
  | range ref elem ih => exact container _ _ _ rfl (by simp [ih])
  | tuple ref comps ih => exact container _ _ _ rfl ih

theorem CountsOk.container {t : TypeTree} {ref : Bool} {ts : List TypeTree} (hcounts : t.CountsOk)
    (h : t.container = some (ref, ts)) : ∀ u ∈ ts, u.CountsOk := by
  cases t with
  | scalar s => cases h
  | str k ref => cases h
  | coll k ref' n elem =>
    obtain ⟨rfl, rfl⟩ := Prod.mk.inj (Option.some.inj h)
    exact fun u hu => (List.eq_of_mem_replicate hu) ▸ hcounts.elem.2
  | range ref' elem =>
    obtain ⟨rfl, rfl⟩ := Prod.mk.inj (Option.some.inj h)
    intro u hu
    obtain rfl : u = elem := by simpa using hu
    exact hcounts
  | tuple ref' comps =>
    obtain ⟨rfl, rfl⟩ := Prod.mk.inj (Option.some.inj h)
    exact hcounts.comps.2

/-- What the code sees of a container: a tuple has a subtype for each element, the others have one
for all. A negative count is as good as none. -/
theorem datatype_shape {t : TypeTree} {ref : Bool} {ts : List TypeTree}
    (h : t.container = some (ref, ts)) :
    isBasetype t.dtype = false ∧ ∃ (n : Int) (subs : List AdiakDatatype), n.toNat = ts.length ∧
      (t.CountsOk → 0 ≤ n ∧ n < 2 ^ 31) ∧ t.datatype = .node (containerNode t.dtype ref n) subs ∧
        ((t.dtype = .tuple ∧ subs = ts.map datatype) ∨
          (t.dtype ≠ .tuple ∧ ∃ n elem, ts = List.replicate n elem ∧ subs = [elem.datatype])) := by
  cases t with
  | scalar s => cases h
  | str k ref => cases h
  | coll k ref' n elem =>
    obtain ⟨rfl, rfl⟩ := Prod.mk.inj (Option.some.inj h)
    have hdtype : (TypeTree.coll k ref' n elem).dtype ≠ .tuple := by
      show k.dtype ≠ .tuple
      cases k <;> decide
    exact ⟨by cases k <;> rfl, n, [elem.datatype], List.length_replicate.symm,
      fun hcounts => hcounts.elem.1, rfl, .inr ⟨hdtype, n.toNat, elem, rfl, rfl⟩⟩
  | range ref' elem =>
    obtain ⟨rfl, rfl⟩ := Prod.mk.inj (Option.some.inj h)
    have hdtype : (TypeTree.range ref' elem).dtype ≠ .tuple := by
      show AdiakType.range ≠ .tuple
      decide
    exact ⟨rfl, 2, [elem.datatype], rfl, fun _ => by decide, rfl, .inr ⟨hdtype, 2, elem, rfl, rfl⟩⟩
  | tuple ref' comps =>
    obtain ⟨rfl, rfl⟩ := Prod.mk.inj (Option.some.inj h)
    exact ⟨rfl, comps.length, datatypes comps, rfl, fun hcounts => ⟨by omega, hcounts.comps.1⟩, rfl,
      .inl ⟨rfl, datatypes_eq_map comps⟩⟩

/-- The same for counts that are not negative. -/
theorem datatype_container {t : TypeTree} {ref : Bool} {ts : List TypeTree} (hcounts : t.CountsOk)
    (h : t.container = some (ref, ts)) :
    (ts.length : Int) < 2 ^ 31 ∧ isBasetype t.dtype = false ∧ (∀ u ∈ ts, u.CountsOk) ∧
      ∃ subs, t.datatype = .node (containerNode t.dtype ref ts.length) subs ∧
        ((t.dtype = .tuple ∧ subs = ts.map datatype) ∨
          (t.dtype ≠ .tuple ∧ ∃ n elem, ts = List.replicate n elem ∧ subs = [elem.datatype])) := by
  obtain ⟨hbase, n, subs, hn, hrange, hdatatype, hsubs⟩ := datatype_shape h
  obtain ⟨hpos, hlt⟩ := hrange hcounts
  obtain rfl : n = ts.length := by omega
  exact ⟨hlt, hbase, hcounts.container h, subs, hdatatype, hsubs⟩

/-- The subtype that the code indexes for the element `i`. -/
theorem subtype_index {t : TypeTree} {ts : List TypeTree} {subs : List AdiakDatatype}
    (h : (t.dtype = .tuple ∧ subs = ts.map datatype) ∨
      (t.dtype ≠ .tuple ∧ ∃ n elem, ts = List.replicate n elem ∧ subs = [elem.datatype]))
    {i : Nat} (hi : i < ts.length) :
    subs[if t.dtype = .tuple then i else 0]? = some ts[i].datatype := by
  rcases h with ⟨ht, rfl⟩ | ⟨ht, n, elem, rfl, rfl⟩
  · rw [if_pos ht, List.getElem?_map, List.getElem?_eq_getElem hi]
    rfl
  · rw [if_neg ht, List.getElem_replicate]
    rfl

/-- From `type_index` on, a loop finds what `f` makes of the types of the elements: the index advances
in a tuple only. -/
def Indexes {γ : Type} (f : AdiakDatatype → γ) (l : List γ) (isTuple : Bool) (typeIndex : Nat)
    (us : List TypeTree) : Prop :=
  ∀ j (hj : j < us.length), l[if isTuple then typeIndex + j else typeIndex]? = some (f us[j].datatype)

section Indexes

variable {γ : Type} {f : AdiakDatatype → γ} {l : List γ} {isTuple : Bool} {typeIndex : Nat}

theorem Indexes.head {u : TypeTree} {us : List TypeTree}
    (h : Indexes f l isTuple typeIndex (u :: us)) : l[typeIndex]? = some (f u.datatype) := by
  have h := h 0 (Nat.succ_pos _)
  rw [List.getElem_cons_zero] at h
  rw [← h]
  cases isTuple <;> rfl

theorem Indexes.tail {u : TypeTree} {us : List TypeTree}
    (h : Indexes f l isTuple typeIndex (u :: us)) :
    Indexes f l isTuple (if isTuple then typeIndex + 1 else typeIndex) us := by
  intro j hj
  have h := h (j + 1) (Nat.succ_lt_succ hj)
  rw [List.getElem_cons_succ] at h
  rw [← h]
  cases isTuple
  · rfl
  · simp only [if_true]; congr 1; omega

/-- What a loop finds in a container. -/
theorem indexes_container {t : TypeTree} {ts : List TypeTree} {subs : List AdiakDatatype}
    (hsubs : (t.dtype = .tuple ∧ subs = ts.map datatype) ∨
      (t.dtype ≠ .tuple ∧ ∃ n elem, ts = List.replicate n elem ∧ subs = [elem.datatype])) :
    Indexes f (subs.map f) (decide (t.dtype = .tuple)) 0 ts := by
  intro j hj
  simp only [decide_eq_true_eq, Nat.zero_add]
  rw [List.getElem?_map, subtype_index hsubs hj]
  rfl

end Indexes

/-- The size and the content of a container, by its elements. -/
theorem packed_container (m : Memory) {t : TypeTree} {ref : Bool} {ts : List TypeTree}
    (hcounts : t.CountsOk) (h : t.container = some (ref, ts)) :
    t.packedSize = Packed.span (ts.map (field m)) ∧ ∀ p, t.contentsAt m p =
      (Packed.readAll (ts.map (field m)) p).map (.node t.dtype) := by
  cases t with
  | scalar s => cases h
  | str k ref => cases h
  | coll k ref' n elem =>
    obtain ⟨rfl, rfl⟩ := Prod.mk.inj (Option.some.inj h)
    obtain ⟨⟨hpos, -⟩, -⟩ := hcounts.elem
    rw [List.map_replicate]
    constructor
    · rw [Packed.span_replicate, packedSize, Int.toNat_of_nonneg hpos]
      rfl
    · intro p
      rw [contentsAt]
      unfold field
      cases Packed.readAll (List.replicate n.toNat ⟨elem.packedSize, elem.contentsAt m⟩) p <;> rfl
  | range ref' elem =>
    obtain ⟨rfl, rfl⟩ := Prod.mk.inj (Option.some.inj h)
    have hmap : [elem, elem].map (field m) = List.replicate 2 (field m elem) := rfl
    rw [hmap]
    constructor
    · rw [Packed.span_replicate, packedSize]
      rfl
    · intro p
      rw [contentsAt]
      unfold field
      cases Packed.readAll (List.replicate 2 ⟨elem.packedSize, elem.contentsAt m⟩) p <;> rfl
  | tuple ref' comps =>
    obtain ⟨rfl, rfl⟩ := Prod.mk.inj (Option.some.inj h)
    constructor
    · exact packedSizes_eq_span m comps
    · intro p
      rw [contentsAt, fields_eq_map]
      cases Packed.readAll (comps.map (field m)) p <;> rfl

end TypeTree

end Adiak
