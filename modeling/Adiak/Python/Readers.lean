import Adiak.Python.Convert

/-!
# The two readers

`convert_adiak_value_to_python` beside `adiak_num_subvals` and `adiak_get_subval`.

1. What one element is to one reader it is to the other (`convertElem_eq`).
2. The loops over a container gather what its elements give (`convert_container`).
3. `convert_iff`: of what the C reader sees Python gets the objects that are denoted exactly if there
   is no range in it, no `unsigned long long` with the highest bit, no time that the clock cannot hold
   and no `%s` that is not UTF-8.
-/

namespace Adiak

open TypeTree

/-! ## Gathering -/

theorem convertLoop_eq (elem : Nat → Except PyError PyObject)
    (add : List PyObject → PyObject → Except PyError (List PyObject)) (n i : Nat)
    (vals : List PyObject) :
    convertLoop elem add n i vals = gather add ((List.range' i n).map elem) vals := by
  unfold gather
  induction n generalizing i vals with
  | zero => rfl
  | succ n ih =>
    rw [convertLoop, List.range'_succ, List.map_cons, List.foldlM_cons]
    cases elem i with
    | error e => rfl
    | ok x =>
      show (add vals x >>= _) = (add vals x >>= _)
      cases add vals x with
      | error e => rfl
      | ok vals' => exact ih (i + 1) vals'

/-- All that is pushed back is there in the end. -/
theorem gather_pushBack_eq_ok {elems : List (Except PyError PyObject)} {vals ys : List PyObject} :
    gather pushBack elems vals = .ok ys ↔ ∃ xs, elems = xs.map .ok ∧ ys = vals ++ xs := by
  unfold gather
  induction elems generalizing vals with
  | nil =>
    constructor
    · intro h
      obtain rfl := Except.ok.inj h
      exact ⟨[], rfl, (List.append_nil vals).symm⟩
    · rintro ⟨xs, hxs, rfl⟩
      obtain rfl := List.map_eq_nil_iff.mp hxs.symm
      rw [List.append_nil]
      rfl
  | cons elem elems ih =>
    rw [List.foldlM_cons]
    cases elem with
    | error e =>
      refine iff_of_false (fun h => by cases h) ?_
      rintro ⟨xs, hxs, -⟩
      cases xs <;> cases hxs
    | ok x =>
      show elems.foldlM _ (vals ++ [x]) = _ ↔ _
      rw [ih]
      constructor
      · rintro ⟨xs, rfl, rfl⟩
        exact ⟨x :: xs, rfl, List.append_assoc _ _ _⟩
      · rintro ⟨xs, hxs, rfl⟩
        cases xs with
        | nil => cases hxs
        | cons y xs =>
          obtain ⟨hx, rfl⟩ := List.cons.inj hxs
          obtain rfl := Except.ok.inj hx
          exact ⟨xs, rfl, (List.append_assoc vals [x] xs).symm⟩

/-- Sets of which nothing is asked: every object goes in, behind the others. -/
def PySets.plain : PySets where
  insert := pushBack
  cast := fun vals => .ok (.set vals)

/-- The Python container of a type. -/
def PyObject.ofContainer : AdiakType → List PyObject → PyObject
  | .set => .set
  | .list => .list
  | _ => .tuple

theorem ofContainer_injective (dtype : AdiakType) : Function.Injective (PyObject.ofContainer dtype) := by
  intro xs ys h
  cases dtype <;> (injection h)

theorem plain_container (dtype : AdiakType) (elems : List (Except PyError PyObject)) :
    PySets.plain.container dtype elems = (gather pushBack elems []).map (.ofContainer dtype) := by
  have hinsert : PySets.plain.insert = pushBack := rfl
  unfold PySets.container
  rw [hinsert]
  cases gather pushBack elems [] <;> cases dtype <;> rfl

theorem plain_container_map (dtype : AdiakType) (xs : List PyObject) :
    PySets.plain.container dtype (xs.map .ok) = .ok (.ofContainer dtype xs) := by
  rw [plain_container, gather_pushBack_eq_ok.mpr ⟨xs, rfl, rfl⟩]
  rfl

/-- In plain sets a container shows the objects of all its elements. -/
theorem plain_container_eq_ok {dtype : AdiakType} {elems : List (Except PyError PyObject)}
    {xs : List PyObject} :
    PySets.plain.container dtype elems = .ok (.ofContainer dtype xs) ↔ elems = xs.map .ok := by
  refine ⟨fun h => ?_, fun h => h ▸ plain_container_map dtype xs⟩
  rw [plain_container] at h
  cases hgather : gather pushBack elems [] with
  | error e => rw [hgather] at h; cases h
  | ok ys =>
    rw [hgather] at h
    obtain rfl := ofContainer_injective dtype (Except.ok.inj h)
    obtain ⟨zs, rfl, rfl⟩ := gather_pushBack_eq_ok.mp hgather
    rfl

/-! ## Leaves -/

theorem int64_eq_ok {x y : Int} : int64 x = .ok y ↔ Fits64 x ∧ x = y := by
  unfold int64 Fits64
  split_ifs with h
  · rw [Except.ok.injEq]
    exact ⟨fun hy => ⟨h, hy⟩, fun hy => hy.2⟩
  · exact iff_of_false (fun hy => by cases hy) fun hy => h hy.1

/-- What the code makes of a leaf. -/
def Leaf.converted : AdiakType → Leaf → Except PyError PyObject
  | .ulonglong, .longlong x => .ok (.int x)
  | .date, .long x => do
    let ns ← int64 (x * 10 ^ 9)
    .ok (.date ns)
  | .timeval, .timeval tv => do
    let sec ← int64 (tv.tvSec * 1000000)
    let usec ← int64 (sec + tv.tvUsec)
    let ns ← int64 (usec * 1000)
    .ok (.timepoint ns)
  | .string, .str s => do
    let s ← decode s
    .ok (.str s)
  | dtype, x => x.denoted dtype

/-- The converter reads the member that the table names. -/
theorem convert_leaf (py : PySets) {m : Memory} {t : TypeTree} (hleaf : t.container = none)
    {v : AdiakValue} {x : Leaf} (hread : readLeaf m t.dtype v = .ok x) :
    convertAdiakValueToPython py m t.datatype (.value v) = x.converted t.dtype := by
  cases t with
  | scalar s =>
    cases s with
    | timeval =>
      cases v with
      | vPtr p =>
        obtain ⟨tv, htv, h⟩ := bind_eq_ok.mp hread
        obtain rfl := Except.ok.inj h
        show (toPy (p.followTimeval m) >>= _) = _
        rw [htv]
        rfl
      | _ => cases hread
    | _ =>
      cases v <;> first
        | (cases hread; done)
        | (obtain rfl := Except.ok.inj hread
           rfl)
  | str k ref =>
    cases v with
    | vPtr p =>
      obtain ⟨s, hs, rfl⟩ : ∃ s, p.cstr m = .ok s ∧ x = .str s := by
        cases k <;>
        · obtain ⟨s, hs, h⟩ := bind_eq_ok.mp hread
          exact ⟨s, hs, (Except.ok.inj h).symm⟩
      cases k <;> cases ref <;>
      · show (toPy (p.cstr m) >>= _) = _
        rw [hs]
        rfl
    | _ => cases k <;> cases hread
  | coll => cases hleaf
  | range => cases hleaf
  | tuple => cases hleaf

theorem exists_denoted {m : Memory} {dtype : AdiakType} {v : AdiakValue} {x : Leaf}
    (hread : readLeaf m dtype v = .ok x) : ∃ y, x.denoted dtype = .ok y := by
  cases v with
  | vPtr p =>
    cases dtype <;> first
      | cases hread
      | (obtain ⟨z, -, h⟩ := bind_eq_ok.mp hread
         obtain rfl := Except.ok.inj h
         exact ⟨_, rfl⟩)
  | _ =>
    cases dtype <;> first
      | (cases hread; done)
      | (obtain rfl := Except.ok.inj hread
         exact ⟨_, rfl⟩)

theorem int64_bind_eq_ok {x : Int} {f : Int → Except PyError PyObject} {y : PyObject} :
    int64 x >>= f = .ok y ↔ Fits64 x ∧ f x = .ok y := by
  rw [bind_eq_ok]
  constructor
  · rintro ⟨z, hz, h⟩
    obtain ⟨hfits, rfl⟩ := int64_eq_ok.mp hz
    exact ⟨hfits, h⟩
  · rintro ⟨hfits, h⟩
    exact ⟨x, int64_eq_ok.mpr ⟨hfits, rfl⟩, h⟩

theorem decode_bind_eq_ok {s : CStr} {f : CStr → Except PyError PyObject} {y : PyObject} :
    decode s >>= f = .ok y ↔ IsUtf8 s ∧ f s = .ok y := by
  unfold decode
  split_ifs with h
  · exact (and_iff_right h).symm
  · exact iff_of_false (fun hy => by cases hy) fun hy => h hy.1

/-- A leaf is converted to the object it denotes if it is plain. -/
theorem converted_iff {m : Memory} {dtype : AdiakType} {v : AdiakValue} {x : Leaf}
    (hread : readLeaf m dtype v = .ok x) :
    ∃ y, x.denoted dtype = .ok y ∧ (x.converted dtype = .ok y ↔ x.Plain dtype) := by
  obtain ⟨y, hy⟩ := exists_denoted hread
  refine ⟨y, hy, ?_⟩
  cases dtype with
  | ulonglong =>
    cases x with
    | longlong x =>
      obtain rfl := Except.ok.inj hy
      show Except.ok (PyObject.int x) = .ok (.int (x % 2 ^ 64)) ↔ 0 ≤ x ∧ x < 2 ^ 64
      rw [Except.ok.injEq, PyObject.int.injEq]
      omega
    | _ => cases hy
  | date =>
    cases x with
    | long x =>
      obtain rfl := Except.ok.inj hy
      exact int64_bind_eq_ok.trans (and_iff_left rfl)
    | _ => cases hy
  | timeval =>
    cases x with
    | timeval tv =>
      obtain rfl := Except.ok.inj hy
      show int64 _ >>= _ = _ ↔ Fits64 _ ∧ Fits64 _ ∧ Fits64 _
      rw [int64_bind_eq_ok, int64_bind_eq_ok, int64_bind_eq_ok, and_iff_left rfl]
    | _ => cases hy
  | string =>
    cases x with
    | str s =>
      obtain rfl := Except.ok.inj hy
      show decode s >>= _ = _ ↔ IsUtf8 s
      rw [decode_bind_eq_ok, and_iff_left rfl]
    | _ => cases hy
  | _ => cases x <;> exact iff_of_true hy trivial

/-! ## Elements -/

/-- A leaf of eight bytes in the caller's memory is converted where it lies. -/
theorem convert_memory (py : PySets) {m : Memory} {t : TypeTree} (h : t.FillsSlot) {p : Addr}
    {v : AdiakValue} {sub : AdiakDatatype}
    (hdecode : decodeSubval m t.datatype p = .ok { ret := 0, subtype := sub, subval := v }) :
    sub = t.datatype ∧ convertAdiakValueToPython py m t.datatype (.memory p) =
      convertAdiakValueToPython py m t.datatype (.value v) := by
  cases t with
  | scalar s =>
    cases s with
    | int | uint | i8 | i16 | u8 | u16 | float => cases h
    | timeval =>
      obtain ⟨a, ha, h⟩ := bind_eq_ok.mp hdecode
      obtain ⟨-, rfl, rfl⟩ := Subval.mk.inj (Except.ok.inj h)
      refine ⟨rfl, ?_⟩
      show (((toPy (m.loadAddr p)) >>= _) >>= _) = _
      rw [ha]
      rfl
    | double =>
      obtain ⟨x, hx, h⟩ := bind_eq_ok.mp hdecode
      obtain ⟨-, rfl, rfl⟩ := Subval.mk.inj (Except.ok.inj h)
      obtain ⟨bits, hbits, h⟩ := bind_eq_ok.mp hx
      obtain rfl := Except.ok.inj h
      refine ⟨rfl, ?_⟩
      show (((toPy (m.load p 8)) >>= _) >>= _) = _
      rw [hbits]
      rfl
    | _ =>
      obtain ⟨x, hx, h⟩ := bind_eq_ok.mp hdecode
      obtain ⟨-, rfl, rfl⟩ := Subval.mk.inj (Except.ok.inj h)
      refine ⟨rfl, ?_⟩
      show (toPy (m.loadSigned p 8) >>= _) = _
      rw [hx]
      rfl
  | str k ref =>
    cases k <;> cases ref <;>
    · obtain ⟨a, ha, h⟩ := bind_eq_ok.mp hdecode
      obtain ⟨-, rfl, rfl⟩ := Subval.mk.inj (Except.ok.inj h)
      refine ⟨rfl, ?_⟩
      show ((((toPy (m.loadAddr p)) >>= _) >>= _) >>= _) = _
      rw [ha]
      rfl
  | coll => cases h
  | range => cases h
  | tuple => cases h

/-- What one element is to `adiak_get_subval` it is to the converter. -/
theorem convertElem_eq (py : PySets) {m : Memory} {t : TypeTree} {ref : Bool} {ts : List TypeTree}
    (hcounts : t.CountsOk) (hstrided : t.Strided) (hc : t.container = some (ref, ts))
    (hrange : t.dtype ≠ .range) {subs : List AdiakDatatype}
    (hsubs : (t.dtype = .tuple ∧ subs = ts.map datatype) ∨
      (t.dtype ≠ .tuple ∧ ∃ n elem, ts = List.replicate n elem ∧ subs = [elem.datatype]))
    (hdatatype : t.datatype = .node (containerNode t.dtype ref ts.length) subs)
    {v x : AdiakValue} {sub : AdiakDatatype} {i : Nat} (hi : i < ts.length)
    (hget : adiakGetSubval m t.datatype v i = .ok { ret := 0, subtype := sub, subval := x }) :
    sub = ts[i].datatype ∧
      convertElem m (convertersAt py m subs) (.value v) (if t.dtype = .tuple then i else 0) i =
        convertAdiakValueToPython py m ts[i].datatype (.value x) := by
  have hindex := subtype_index hsubs hi
  have hconvert : (convertersAt py m subs)[if t.dtype = .tuple then i else 0]? =
      some (convertAdiakValueToPython py m ts[i].datatype) := by
    rw [convertersAt_eq_map, List.getElem?_map, hindex]
    rfl
  have hlt : ¬ (ts.length : Int) ≤ i := by omega
  unfold convertElem
  rw [hconvert]
  unfold adiakGetSubval at hget
  rw [hdatatype, if_neg (by omega)] at hget
  cases ref with
  | false =>
    simp only [containerNode, Bool.false_eq_true, if_false, if_true, hlt, Int.toNat_natCast] at hget
    rw [subtypeAt_eq_ok hindex, ok_bind] at hget
    cases v with
    | vSubval elems =>
      cases hx : elems[i]? with
      | none => simp only [hx] at hget; cases hget
      | some w =>
        simp only [hx] at hget
        obtain ⟨-, rfl, rfl⟩ := Subval.mk.inj (Except.ok.inj hget)
        refine ⟨rfl, ?_⟩
        simp only [Slot.vSubval, hx, ok_bind]
    | _ => cases hget
  | true =>
    obtain ⟨hsize, hslots⟩ := hstrided.referenced hcounts hc hrange
    have hoffset : Packed.offset (ts.map (field m)) i = 8 * i := by
      rw [Packed.offset_of_size (s := 8) (fun f hf => ?_) (by rw [List.length_map]; omega), Int.mul_comm]
      obtain ⟨u, hu, rfl⟩ := List.mem_map.mp hf
      exact (hslots u hu).leaf.2
    have hoff := subvalOffset_eq (m := m) true ts.length (hcounts.container hc) hsubs hi (by omega)
    simp only [containerNode, Bool.true_eq_false, if_false, if_true, hlt, Int.toNat_natCast]
      at hget hoff
    rw [hoff, ok_bind] at hget
    cases v with
    | vPtr q =>
      cases q with
      | caller p =>
        rw [hoffset] at hget
        obtain ⟨rfl, heq⟩ := convert_memory py (hslots _ (List.getElem_mem hi)) hget
        exact ⟨rfl, heq⟩
      | _ => cases hget
    | _ => cases hget

/-! ## Containers -/

/-- A range is refused: its datatype has one subtype. -/
theorem convert_range (py : PySets) (m : Memory) {t : TypeTree} (h : t.dtype = .range) (val : Slot) :
    convertAdiakValueToPython py m t.datatype val =
      .error (.runtimeError "Mismatch in Adiak between 'range' type and number of subtypes") := by
  cases t with
  | scalar s => cases s <;> cases h
  | str k ref => cases k <;> cases h
  | coll k ref n elem => cases k <;> cases h
  | range ref elem => rfl
  | tuple ref comps => cases h

/-- Any other container gathers what its elements give. -/
theorem convert_container (py : PySets) (m : Memory) {t : TypeTree} {ref : Bool} {ts : List TypeTree}
    (hc : t.container = some (ref, ts)) (hrange : t.dtype ≠ .range) {subs : List AdiakDatatype}
    (hsubs : (t.dtype = .tuple ∧ subs = ts.map datatype) ∨
      (t.dtype ≠ .tuple ∧ ∃ n elem, ts = List.replicate n elem ∧ subs = [elem.datatype]))
    (hdatatype : t.datatype = .node (containerNode t.dtype ref ts.length) subs) (val : Slot) :
    convertAdiakValueToPython py m t.datatype val = py.container t.dtype ((List.range ts.length).map
      fun i => convertElem m (convertersAt py m subs) val (if t.dtype = .tuple then i else 0) i) := by
  have hnum : (containerNode t.dtype ref ts.length).numElems = ts.length := by cases ref <;> rfl
  rw [hdatatype, List.range_eq_range']
  cases t with
  | scalar s => cases hc
  | str k ref => cases hc
  | coll k ref n elem =>
    have hlen : subs.length = 1 := by
      rcases hsubs with ⟨h, -⟩ | ⟨-, n, elem, -, rfl⟩
      · cases k <;> cases h
      · rfl
    cases k with
    | list =>
      show (if subs.length ≠ 1 then _ else _) = _
      rw [if_neg (not_not.mpr hlen), hnum, Int.toNat_natCast, convertLoop_eq]
      rfl
    | set =>
      show (if subs.length ≠ 1 then _ else _) = _
      rw [if_neg (not_not.mpr hlen), hnum, Int.toNat_natCast, convertLoop_eq]
      rfl
  | range ref elem => exact absurd rfl hrange
  | tuple ref comps =>
    have hlen : (subs.length : Int) = ts.length := by
      rcases hsubs with ⟨-, rfl⟩ | ⟨h, -⟩
      · rw [List.length_map]
      · exact absurd rfl h
    show (if (subs.length : Int) ≠ _ then _ else _) = _
    rw [hnum, if_neg (not_not.mpr hlen), Int.toNat_natCast, convertLoop_eq]
    rfl

/-! ## The two readers -/

theorem readTree_leaf {m : Memory} {t : TypeTree} (hleaf : t.container = none) {fuel : Nat}
    {v : AdiakValue} {c : Content} (hread : readTree m fuel t.datatype v = .ok c) :
    ∃ x, readLeaf m t.dtype v = .ok x ∧ c = .leaf t.dtype x := by
  cases fuel with
  | zero => cases hread
  | succ fuel =>
    rw [readTree, dtype_datatype, if_pos (isBasetype_leaf hleaf)] at hread
    obtain ⟨x, hx, h⟩ := bind_eq_ok.mp hread
    exact ⟨x, hx, (Except.ok.inj h).symm⟩

theorem readTree_container {m : Memory} {t : TypeTree} {ref : Bool} {ts : List TypeTree}
    (hc : t.container = some (ref, ts)) {fuel : Nat} {v : AdiakValue} {c : Content}
    (hread : readTree m fuel t.datatype v = .ok c) : ∃ cs, c = .node t.dtype cs := by
  obtain ⟨hbase, -⟩ := datatype_shape hc
  cases fuel with
  | zero => cases hread
  | succ fuel =>
    rw [readTree, dtype_datatype, if_neg (by simp [hbase])] at hread
    obtain ⟨n, -, h⟩ := bind_eq_ok.mp hread
    obtain ⟨cs, -, h⟩ := bind_eq_ok.mp h
    exact ⟨cs, (Except.ok.inj h).symm⟩

theorem exists_map_ok {α β : Type} {f : α → Except PyError β} {l : List α}
    (h : ∀ a ∈ l, ∃ b, f a = .ok b) : ∃ bs : List β, l.map f = bs.map .ok := by
  induction l with
  | nil => exact ⟨[], rfl⟩
  | cons a l ih =>
    obtain ⟨b, hb⟩ := h a List.mem_cons_self
    obtain ⟨bs, hbs⟩ := ih fun a' ha' => h a' (List.mem_cons_of_mem a ha')
    exact ⟨b :: bs, by rw [List.map_cons, hb, hbs, List.map_cons]⟩

/-- What the C reader sees denotes an object. -/
theorem exists_denoted_tree {m : Memory} {fuel : Nat} {t : AdiakDatatype} {v : AdiakValue}
    {c : Content} (hread : readTree m fuel t v = .ok c) : ∃ y, c.denoted .plain = .ok y := by
  induction fuel generalizing t v c with
  | zero => cases hread
  | succ fuel ih =>
    rw [readTree] at hread
    by_cases hbase : isBasetype t.dtype
    · rw [if_pos hbase] at hread
      obtain ⟨x, hx, h⟩ := bind_eq_ok.mp hread
      obtain rfl := Except.ok.inj h
      exact exists_denoted hx
    · rw [if_neg hbase] at hread
      obtain ⟨n, -, h⟩ := bind_eq_ok.mp hread
      obtain ⟨cs, hcs, h⟩ := bind_eq_ok.mp h
      obtain rfl := Except.ok.inj h
      obtain ⟨-, helems⟩ := readElems_eq_ok.mp hcs
      obtain ⟨xs, hxs⟩ := exists_map_ok (f := Content.denoted .plain) (l := cs) fun c hc => by
        obtain ⟨i, hi, rfl⟩ := List.getElem_of_mem hc
        obtain ⟨t', v', -, hread⟩ := helems i hi
        exact ih hread
      refine ⟨.ofContainer t.dtype xs, ?_⟩
      rw [Content.denoted, Content.denotedSeq_eq_map, hxs, plain_container_map]

/-- A container that the C reader walks is converted element by element. -/
theorem convert_elems {m : Memory} {t : TypeTree} {ref : Bool} {ts : List TypeTree}
    (hcounts : t.CountsOk) (hstrided : t.Strided) (hc : t.container = some (ref, ts))
    (hrange : t.dtype ≠ .range) {fuel : Nat} {v : AdiakValue} {c : Content}
    (hread : readTree m fuel t.datatype v = .ok c) :
    ∃ fuel' cs, c = .node t.dtype cs ∧ cs.length = ts.length ∧
      ∃ xs : Nat → AdiakValue, (∀ i (hi : i < ts.length) (hx : i < cs.length), ts[i].Strided ∧
        readTree m fuel' ts[i].datatype (xs i) = .ok cs[i]) ∧
      ∀ py, ∃ elems : List (Except PyError PyObject), elems.length = ts.length ∧
        (∀ i (hi : i < ts.length) (hx : i < elems.length),
          elems[i] = convertAdiakValueToPython py m ts[i].datatype (.value (xs i))) ∧
        convertAdiakValueToPython py m t.datatype (.value v) = py.container t.dtype elems := by
  obtain ⟨hlt, hbase, hcountsElems, subs, hdatatype, hsubs⟩ := datatype_container hcounts hc
  cases fuel with
  | zero => cases hread
  | succ fuel =>
    have hnum : adiakNumSubvals t.datatype = .ok ts.length := by
      rw [hdatatype, adiakNumSubvals, containerNode_count, wrapInt_of_lt (by omega) hlt]
    rw [readTree, dtype_datatype, if_neg (by simp [hbase]), hnum, ok_bind, Int.toNat_natCast] at hread
    obtain ⟨cs, hcs, h⟩ := bind_eq_ok.mp hread
    obtain rfl := Except.ok.inj h
    obtain ⟨hlen, helems⟩ := readElems_eq_ok.mp hcs
    simp only [Nat.zero_add] at helems
    have hsteps : ∀ i (hi : i < ts.length), ∃ x, (∀ hx : i < cs.length,
        readTree m fuel ts[i].datatype x = .ok cs[i]) ∧ ∀ py,
        convertElem m (convertersAt py m subs) (.value v) (if t.dtype = .tuple then i else 0) i =
          convertAdiakValueToPython py m ts[i].datatype (.value x) := by
      intro i hi
      obtain ⟨sub, x, hget, hread⟩ := helems i (by omega)
      obtain ⟨rfl, -⟩ := convertElem_eq .plain hcounts hstrided hc hrange hsubs hdatatype hi hget
      exact ⟨x, fun _ => hread, fun py =>
        (convertElem_eq py hcounts hstrided hc hrange hsubs hdatatype hi hget).2⟩
    have hstridedElems : ∀ u ∈ ts, u.Strided := by
      cases ref with
      | false => exact hstrided.copied hc hrange
      | true => exact fun u hu => ((hstrided.referenced hcounts hc hrange).2 u hu).strided
    have : Nonempty AdiakValue := ⟨v⟩
    choose! xs hxs using hsteps
    refine ⟨fuel, cs, rfl, hlen, xs, fun i hi hx =>
      ⟨hstridedElems _ (List.getElem_mem hi), (hxs i hi).1 hx⟩, fun py => ⟨_, ?_, fun i hi hx => ?_,
      convert_container py m hc hrange hsubs hdatatype _⟩⟩
    · rw [List.length_map, List.length_range]
    · rw [List.getElem_map, List.getElem_range]
      exact (hxs i hi).2 py

/-- A plain content is converted to the object it denotes. -/
theorem convert_of_plain {m : Memory} {t : TypeTree} (hcounts : t.CountsOk) (hstrided : t.Strided)
    {fuel : Nat} {v : AdiakValue} {c : Content} (hread : readTree m fuel t.datatype v = .ok c)
    (hplain : c.Plain) (py : PySets) :
    convertAdiakValueToPython py m t.datatype (.value v) = c.denoted py := by
  induction t using container_induction generalizing fuel v c with
  | leaf t hleaf =>
    obtain ⟨x, hx, rfl⟩ := readTree_leaf hleaf hread
    obtain ⟨y, hy, hiff⟩ := converted_iff hx
    rw [convert_leaf py hleaf hx, hiff.mpr hplain]
    exact hy.symm
  | container t ref ts hc ih =>
    have hrange : t.dtype ≠ .range := by
      obtain ⟨cs, rfl⟩ := readTree_container hc hread
      exact hplain.1
    obtain ⟨fuel', cs, rfl, hlen, xs, hxs, hpy⟩ := convert_elems hcounts hstrided hc hrange hread
    obtain ⟨elems, hlen', helems, heq⟩ := hpy py
    rw [heq, Content.denoted, Content.denotedSeq_eq_map]
    congr 1
    refine List.ext_getElem (by rw [hlen', List.length_map, hlen]) fun i hi hx => ?_
    rw [List.getElem_map, helems i (by omega)]
    have hi' : i < ts.length := by omega
    obtain ⟨hs, hread⟩ := hxs i hi' (by omega)
    exact ih _ (List.getElem_mem hi') (hcounts.container hc _ (List.getElem_mem hi')) hs hread
      (Content.plainSeq_iff.mp hplain.2 _ (List.getElem_mem _))

/-- In sets of which nothing is asked, only a plain content is converted to the object it denotes. -/
theorem plain_of_convert {m : Memory} {t : TypeTree} (hcounts : t.CountsOk) (hstrided : t.Strided)
    {fuel : Nat} {v : AdiakValue} {c : Content} (hread : readTree m fuel t.datatype v = .ok c)
    (h : convertAdiakValueToPython .plain m t.datatype (.value v) = c.denoted .plain) : c.Plain := by
  induction t using container_induction generalizing fuel v c with
  | leaf t hleaf =>
    obtain ⟨x, hx, rfl⟩ := readTree_leaf hleaf hread
    obtain ⟨y, hy, hiff⟩ := converted_iff hx
    rw [convert_leaf .plain hleaf hx] at h
    exact hiff.mp (h.trans hy)
  | container t ref ts hc ih =>
    obtain ⟨y, hy⟩ := exists_denoted_tree hread
    have hrange : t.dtype ≠ .range := fun hrange => by
      rw [convert_range .plain m hrange, hy] at h
      cases h
    obtain ⟨fuel', cs, rfl, hlen, xs, hxs, hpy⟩ := convert_elems hcounts hstrided hc hrange hread
    obtain ⟨elems, hlen', helems, heq⟩ := hpy .plain
    obtain ⟨ys, hys⟩ := exists_map_ok (f := Content.denoted .plain) (l := cs) fun c hc => by
      obtain ⟨i, hi, rfl⟩ := List.getElem_of_mem hc
      exact exists_denoted_tree (hxs i (by omega) hi).2
    rw [heq, Content.denoted, Content.denotedSeq_eq_map, hys, plain_container_map,
      plain_container_eq_ok, ← hys] at h
    refine ⟨hrange, Content.plainSeq_iff.mpr fun c hc' => ?_⟩
    obtain ⟨i, hi, rfl⟩ := List.getElem_of_mem hc'
    have hi' : i < ts.length := by omega
    obtain ⟨hs, hread⟩ := hxs i hi' hi
    refine ih _ (List.getElem_mem hi') (hcounts.container hc _ (List.getElem_mem hi')) hs hread ?_
    rw [← helems i hi' (by omega)]
    simp only [h, List.getElem_map]

/-- Python gets what the C reader sees, in whatever way it builds its sets, exactly if the content is
plain. -/
theorem convert_iff {m : Memory} {t : TypeTree} (hcounts : t.CountsOk) (hstrided : t.Strided)
    {fuel : Nat} {v : AdiakValue} {c : Content} (hread : readTree m fuel t.datatype v = .ok c) :
    (∀ py, convertAdiakValueToPython py m t.datatype (.value v) = c.denoted py) ↔ c.Plain :=
  ⟨fun h => plain_of_convert hcounts hstrided hread (h .plain),
    fun h => convert_of_plain hcounts hstrided hread h⟩

/-- Two pointers, the one to a text and the other to a byte that is none. -/
def textAndByte : Memory where
  byte := fun p => some (if p = 8 then 1 else if p = 16 then 2 else 0)
  cstr := fun p => if p = 1 then some ['a'] else if p = 2 then some ['\xff'] else none
  timeval := fun _ => none

/-- `&[%s]` of the text is converted, `&{%s}` of both is not. -/
theorem convert_iff_strings :
    (∀ py, convertAdiakValueToPython py textAndByte
        (TypeTree.coll .set true 1 (.str .string true)).datatype (.value (.vPtr (.caller 8))) =
      (Content.node .set [.leaf .string (.str ['a'])]).denoted py) ∧
    ¬ ∀ py, convertAdiakValueToPython py textAndByte
        (TypeTree.coll .list true 2 (.str .string true)).datatype (.value (.vPtr (.caller 8))) =
      (Content.node .list [.leaf .string (.str ['a']), .leaf .string (.str ['\xff'])]).denoted py := by
  have hset : readTree textAndByte 2 (TypeTree.coll .set true 1 (.str .string true)).datatype
      (.vPtr (.caller 8)) = .ok (.node .set [.leaf .string (.str ['a'])]) := rfl
  have hlist : readTree textAndByte 2 (TypeTree.coll .list true 2 (.str .string true)).datatype
      (.vPtr (.caller 8)) =
      .ok (.node .list [.leaf .string (.str ['a']), .leaf .string (.str ['\xff'])]) := rfl
  constructor
  · have htext : IsUtf8 ['a'] := by decide
    exact (convert_iff (by unfold CountsOk; decide) (by simp [Strided, FillsSlot]) hset).mpr
      ⟨by decide, htext, trivial⟩
  · have hbyte : ¬ IsUtf8 ['\xff'] := by decide
    intro h
    have hplain := (convert_iff (by unfold CountsOk; decide) (by simp [Strided, FillsSlot]) hlist).mp h
    exact hbyte hplain.2.2.1

end Adiak
