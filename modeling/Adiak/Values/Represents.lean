import Adiak.Values.Contents

/-!
# Values that represent a content

`Represents m t v c` says that reading `v` at the type `t` shows the content `c`: a copied container
holds its elements, a reference leads to a packed buffer.

1. `calc_size` gives the packed size modulo 2^32 (`calcSize_eq`).
2. `adiak_get_subval` hands out a value that represents the element for every index in range, and
   fails for every other (`Represents.adiakGetSubval`).
3. `copy_value` comes to the end of any buffer that holds a content (`copyValue_size`).
-/

namespace Adiak

namespace TypeTree

/-! ## Sizes -/

theorem sumSizes_eq (sizes : List Int) (bytes : Int) :
    sumSizes (sizes.map fun s => .ok (wrapInt s)) (wrapInt bytes) =
      .ok (wrapInt (bytes + sizes.sum)) := by
  induction sizes generalizing bytes with
  | nil => simp [sumSizes]
  | cons s sizes ih =>
    rw [List.map_cons, sumSizes, ok_bind, wrapInt_wrapInt_add, wrapInt_add_wrapInt, ih,
      List.sum_cons, Int.add_assoc]

theorem packedSizes_eq_sum (ts : List TypeTree) : packedSizes ts = (ts.map packedSize).sum := by
  induction ts with
  | nil => rfl
  | cons t ts ih => rw [packedSizes, ih, List.map_cons, List.sum_cons]

/-- `calc_size` gives the packed size modulo 2^32. -/
theorem calcSize_eq (t : TypeTree) : calcSize t.datatype = .ok (wrapInt t.packedSize) := by
  induction t with
  | scalar s => cases s <;> rfl
  | str k ref => cases k <;> cases ref <;> rfl
  | coll k ref n elem ih =>
    have hsize : calcSize (coll k ref n elem).datatype =
        .ok (wrapInt (wrapInt n * wrapInt elem.packedSize)) := by
      rw [datatype, calcSize, containerNode_count]
      simp only [calcSizes, ih]
      cases k <;> rfl
    rw [hsize, wrapInt_mul_wrapInt, packedSize]
  | range ref elem ih =>
    have hsize : calcSize (range ref elem).datatype =
        .ok (wrapInt (wrapInt 2 * wrapInt elem.packedSize)) := by
      rw [datatype, calcSize, containerNode_count]
      simp only [calcSizes, ih]
      rfl
    rw [hsize, wrapInt_mul_wrapInt, packedSize]
  | tuple ref comps ih =>
    have hsizes : calcSizes (datatypes comps) =
        (comps.map packedSize).map fun s => .ok (wrapInt s) := by
      rw [calcSizes_eq_map, datatypes_eq_map, List.map_map, List.map_map]
      exact List.map_congr_left ih
    have hsum : calcSize (tuple ref comps).datatype = sumSizes (calcSizes (datatypes comps)) 0 := rfl
    rw [hsum, hsizes, packedSize, packedSizes_eq_sum]
    exact (sumSizes_eq _ 0).trans (by rw [Int.zero_add])

theorem packedSize_nonneg {t : TypeTree} (hcounts : t.CountsOk) : 0 ≤ t.packedSize := by
  induction t with
  | scalar s => cases s <;> decide
  | str k ref => exact Int.le_of_lt (by decide : (0 : Int) < 8)
  | coll k ref n elem ih =>
    obtain ⟨⟨hn, -⟩, helem⟩ := hcounts.elem
    exact Int.mul_nonneg hn (ih helem)
  | range ref elem ih => exact Int.mul_nonneg (by decide) (ih hcounts)
  | tuple ref comps ih =>
    rw [packedSize, packedSizes_eq_sum]
    refine List.sum_nonneg fun x hx => ?_
    obtain ⟨t, ht, rfl⟩ := List.mem_map.mp hx
    exact ih t ht (hcounts.comps.2 t ht)

/-! ## References below references -/

mutual

/-- Below a reference every container is a reference. -/
def RefClosed : Bool → TypeTree → Prop
  | _, .scalar _ | _, .str _ _ => True
  | under, .coll _ ref _ elem => (under = true → ref = true) ∧ RefClosed ref elem
  | under, .range ref elem => (under = true → ref = true) ∧ RefClosed ref elem
  | under, .tuple ref comps => (under = true → ref = true) ∧ RefClosedSeq ref comps

def RefClosedSeq : Bool → List TypeTree → Prop
  | _, [] => True
  | under, t :: ts => RefClosed under t ∧ RefClosedSeq under ts

end

theorem refClosedSeq_iff {under : Bool} {ts : List TypeTree} :
    RefClosedSeq under ts ↔ ∀ t ∈ ts, RefClosed under t := by
  induction ts with
  | nil => simp [RefClosedSeq]
  | cons t ts ih => rw [RefClosedSeq, ih, List.forall_mem_cons]

theorem RefClosed.container {under ref : Bool} {t : TypeTree} {ts : List TypeTree}
    (h : RefClosed under t) (hc : t.container = some (ref, ts)) :
    (under = true → ref = true) ∧ ∀ u ∈ ts, RefClosed ref u := by
  cases t with
  | scalar s => cases hc
  | str k ref => cases hc
  | coll k ref' n elem =>
    obtain ⟨rfl, rfl⟩ := Prod.mk.inj (Option.some.inj hc)
    exact ⟨h.1, fun u hu => (List.eq_of_mem_replicate hu) ▸ h.2⟩
  | range ref' elem =>
    obtain ⟨rfl, rfl⟩ := Prod.mk.inj (Option.some.inj hc)
    refine ⟨h.1, fun u hu => ?_⟩
    obtain rfl : u = elem := by simpa using hu
    exact h.2
  | tuple ref' comps =>
    obtain ⟨rfl, rfl⟩ := Prod.mk.inj (Option.some.inj hc)
    exact ⟨h.1, refClosedSeq_iff.mp h.2⟩

theorem RefClosed.of_container {under : Bool} {t : TypeTree} {ts : List TypeTree}
    (h : RefClosed under t) (hc : t.container = some (true, ts)) : RefClosed true t := by
  cases t with
  | scalar s => cases hc
  | str k ref => cases hc
  | coll k ref n elem =>
    obtain ⟨rfl, -⟩ := Prod.mk.inj (Option.some.inj hc)
    exact ⟨fun _ => rfl, h.2⟩
  | range ref elem =>
    obtain ⟨rfl, -⟩ := Prod.mk.inj (Option.some.inj hc)
    exact ⟨fun _ => rfl, h.2⟩
  | tuple ref comps =>
    obtain ⟨rfl, -⟩ := Prod.mk.inj (Option.some.inj hc)
    exact ⟨fun _ => rfl, h.2⟩

end TypeTree

open TypeTree

/-! ## Representation -/

/-- Reading `v` at the type `t` shows the content `c`. -/
inductive Represents (m : Memory) : TypeTree → AdiakValue → Content → Prop
  | leaf {t : TypeTree} {v : AdiakValue} {x : Leaf} (hleaf : t.container = none)
      (hread : readLeaf m t.dtype v = .ok x) : Represents m t v (.leaf t.dtype x)
  /-- A container that the library owns. -/
  | copied {t : TypeTree} {ts : List TypeTree} {vs : List AdiakValue} {cs : List Content}
      (hcounts : t.CountsOk) (hc : t.container = some (false, ts)) (hvs : vs.length = ts.length)
      (hcs : cs.length = ts.length)
      (helems : ∀ i (hi : i < ts.length) (hv : i < vs.length) (hx : i < cs.length),
        Represents m ts[i] vs[i] cs[i]) :
      Represents m t (.vSubval vs) (.node t.dtype cs)
  /-- A container in the caller's memory. -/
  | referenced {t : TypeTree} {ts : List TypeTree} {p : Addr} {c : Content}
      (hcounts : t.CountsOk) (hc : t.container = some (true, ts)) (href : t.RefClosed true)
      (hsize : t.packedSize < 2 ^ 31) (hat : t.contentsAt m p = .ok c) :
      Represents m t (.vPtr (.caller p)) c

/-! ## Leaves -/

/-- What a string leaf in memory gives. -/
theorem stringAt_eq_ok {m : Memory} {p : Addr} {x : Leaf} (h : stringAt m p = .ok x) :
    ∃ a s, m.loadAddr p = .ok a ∧ m.loadCstr a = .ok s ∧ x = .str s := by
  obtain ⟨a, ha, h⟩ := bind_eq_ok.mp h
  obtain ⟨s, hs, h⟩ := bind_eq_ok.mp h
  exact ⟨a, s, ha, hs, (Except.ok.inj h).symm⟩

/-- The content of a leaf in memory. -/
theorem contentsAt_leaf {m : Memory} {t : TypeTree} {p : Addr} {c : Content}
    (hleaf : t.container = none) (hat : t.contentsAt m p = .ok c) :
    (∃ s x, t = .scalar s ∧ s.leafAt m p = .ok x ∧ c = .leaf s.dtype x) ∨
      (∃ k ref x, t = .str k ref ∧ stringAt m p = .ok x ∧ c = .leaf k.dtype x) := by
  cases t with
  | scalar s =>
    obtain ⟨x, hx, hc⟩ := bind_eq_ok.mp hat
    exact .inl ⟨s, x, rfl, hx, (Except.ok.inj hc).symm⟩
  | str k ref =>
    obtain ⟨x, hx, hc⟩ := bind_eq_ok.mp hat
    exact .inr ⟨k, ref, x, rfl, hx, (Except.ok.inj hc).symm⟩
  | coll => cases hleaf
  | range => cases hleaf
  | tuple => cases hleaf

/-- A scalar leaf other than a timeval is loaded in the same way by both `switch`es. -/
theorem scalar_leaf {m : Memory} {s : ScalarKind} {p : Addr} {x : Leaf}
    (h : s.leafAt m p = .ok x) :
    ∃ v v', copyValue m s.datatype p = .ok (v, s.size) ∧
      decodeSubval m s.datatype p = .ok { ret := 0, subtype := s.datatype, subval := v' } ∧
      readLeaf m s.dtype v = .ok x ∧ readLeaf m s.dtype v' = .ok x := by
  cases s with
  | timeval =>
    obtain ⟨a, ha, h⟩ := bind_eq_ok.mp h
    obtain ⟨tv, htv, h⟩ := bind_eq_ok.mp h
    obtain rfl := Except.ok.inj h
    refine ⟨.vPtr (.timeval tv), .vPtr (.caller a), ?_, ?_, rfl, ?_⟩
    · simp [copyValue, ScalarKind.datatype, baseTimeval, baseType, ScalarKind.size, ha, htv]
    · simp [decodeSubval, ScalarKind.datatype, baseTimeval, baseType, ha]
    · simp [readLeaf, ScalarKind.dtype, Pointer.followTimeval, htv]
  | long | ulong | date =>
    obtain ⟨y, hy, h⟩ := bind_eq_ok.mp h
    obtain rfl := Except.ok.inj h
    refine ⟨.vLong y, .vLong y, ?_, ?_, rfl, rfl⟩
    · simp [copyValue, ScalarKind.datatype, baseLong, baseUlong, baseDate, baseType,
        ScalarKind.size, hy]
    · simp [decodeSubval, ScalarKind.datatype, baseLong, baseUlong, baseDate, baseType, hy]
  | longlong | ulonglong =>
    obtain ⟨y, hy, h⟩ := bind_eq_ok.mp h
    obtain rfl := Except.ok.inj h
    refine ⟨.vLonglong y, .vLonglong y, ?_, ?_, rfl, rfl⟩
    · simp [copyValue, ScalarKind.datatype, baseLonglong, baseUlonglong, baseType,
        ScalarKind.size, hy]
    · simp [decodeSubval, ScalarKind.datatype, baseLonglong, baseUlonglong, baseType, hy]
  | int | i8 | i16 | u8 | u16 | uint =>
    obtain ⟨y, hy, h⟩ := bind_eq_ok.mp h
    obtain rfl := Except.ok.inj h
    refine ⟨.vInt y, .vInt y, ?_, ?_, rfl, rfl⟩
    · simp [copyValue, loadInt, ScalarKind.datatype, baseInt, baseI8, baseI16, baseU8, baseU16,
        baseUint, baseType, ScalarKind.size, hy]
    · simp [decodeSubval, loadInt, ScalarKind.datatype, baseInt, baseI8, baseI16, baseU8, baseU16,
        baseUint, baseType, hy]
  | double | float =>
    obtain ⟨y, hy, h⟩ := bind_eq_ok.mp h
    obtain rfl := Except.ok.inj h
    refine ⟨.vDouble _, .vDouble _, ?_, ?_, rfl, rfl⟩
    · simp [copyValue, loadDouble, ScalarKind.datatype, baseDouble, baseFloat, baseType,
        ScalarKind.size, hy]
    · simp [decodeSubval, loadDouble, ScalarKind.datatype, baseDouble, baseFloat, baseType, hy]

theorem str_leaf {m : Memory} {k : StringKind} {ref : Bool} {p : Addr} {x : Leaf}
    (h : stringAt m p = .ok x) :
    ∃ v v', copyValue m (k.datatype ref) p = .ok (v, 8) ∧
      decodeSubval m (k.datatype ref) p = .ok { ret := 0, subtype := k.datatype ref, subval := v' } ∧
      readLeaf m k.dtype v = .ok x ∧ readLeaf m k.dtype v' = .ok x := by
  obtain ⟨a, s, ha, hs, rfl⟩ := stringAt_eq_ok h
  have hread : ∀ q : Pointer, q.cstr m = .ok s → readLeaf m k.dtype (.vPtr q) = .ok (.str s) := by
    intro q hq
    cases k <;> simp [readLeaf, StringKind.dtype, hq]
  have hcopy : copyValue m (k.datatype ref) p =
      .ok (.vPtr (if ref then .caller a else .strdup s), 8) := by
    cases k <;> cases ref <;>
      simp [copyValue, StringKind.datatype, baseVersion, baseString, baseCatstring, baseJsonstring,
        basePath, baseVersionRef, baseStringRef, baseCatstringRef, baseJsonstringRef, basePathRef,
        baseType, ha, hs]
  have hdecode : decodeSubval m (k.datatype ref) p =
      .ok { ret := 0, subtype := k.datatype ref, subval := .vPtr (.caller a) } := by
    cases k <;> cases ref <;>
      simp [decodeSubval, StringKind.datatype, baseVersion, baseString, baseCatstring,
        baseJsonstring, basePath, baseVersionRef, baseStringRef, baseCatstringRef,
        baseJsonstringRef, basePathRef, baseType, ha]
  refine ⟨_, _, hcopy, hdecode, hread _ ?_, hread _ hs⟩
  cases ref
  · rfl
  · exact hs

/-- A leaf in a buffer, copied and zero-copy. -/
theorem leaf_represents {m : Memory} {t : TypeTree} {p : Addr} {c : Content}
    (hleaf : t.container = none) (hat : t.contentsAt m p = .ok c) :
    ∃ v v', copyValue m t.datatype p = .ok (v, t.packedSize) ∧
      decodeSubval m t.datatype p = .ok { ret := 0, subtype := t.datatype, subval := v' } ∧
      Represents m t v c ∧ Represents m t v' c := by
  rcases contentsAt_leaf hleaf hat with ⟨s, x, rfl, hx, rfl⟩ | ⟨k, ref, x, rfl, hx, rfl⟩
  · obtain ⟨v, v', hcopy, hdecode, hv, hv'⟩ := scalar_leaf hx
    exact ⟨v, v', hcopy, hdecode, .leaf rfl hv, .leaf rfl hv'⟩
  · obtain ⟨v, v', hcopy, hdecode, hv, hv'⟩ := @str_leaf m k ref p x hx
    exact ⟨v, v', hcopy, hdecode, .leaf rfl hv, .leaf rfl hv'⟩

/-! ## Reading a container -/

theorem subtypeAt_eq_ok {subs : List AdiakDatatype} {i : Nat} {t : AdiakDatatype}
    (h : subs[i]? = some t) : subtypeAt subs i = .ok t := by
  unfold subtypeAt
  rw [h]

/-- The sum of the sizes in front of a component. -/
theorem prefixBytes_eq (m : Memory) {ts : List TypeTree} (hcounts : ∀ u ∈ ts, u.CountsOk)
    {bytes : Int} (h0 : 0 ≤ bytes) {i : Nat} (hi : i ≤ ts.length)
    (hsize : bytes + Packed.offset (ts.map (field m)) i < 2 ^ 31) :
    prefixBytes (ts.map datatype) i bytes =
      .ok (some (bytes + Packed.offset (ts.map (field m)) i)) := by
  induction ts generalizing bytes i with
  | nil =>
    obtain rfl := Nat.le_zero.mp hi
    rw [List.map_nil, prefixBytes, Packed.offset_zero, Int.add_zero]
  | cons t ts ih =>
    cases i with
    | zero => rw [List.map_cons, prefixBytes, Packed.offset_zero, Int.add_zero]
    | succ i =>
      have htail : ∀ u ∈ ts, u.CountsOk := fun u hu => hcounts u (List.mem_cons_of_mem t hu)
      have ht := packedSize_nonneg (hcounts t List.mem_cons_self)
      have hnonneg : 0 ≤ Packed.offset (ts.map (field m)) i := Packed.offset_nonneg (fun f hf => by
        obtain ⟨u, hu, rfl⟩ := List.mem_map.mp hf
        exact packedSize_nonneg (htail u hu)) i
      have hfield : (field m t).size = t.packedSize := rfl
      rw [List.map_cons, Packed.offset_cons_succ, hfield] at hsize
      rw [List.map_cons, List.map_cons, prefixBytes, calcSize_eq, ok_bind,
        wrapInt_of_lt ht (by omega), if_neg (by omega), wrapInt_of_lt (by omega) (by omega),
        ih htail (by omega) (Nat.le_of_succ_le_succ hi) (by omega), Packed.offset_cons_succ, hfield,
        Int.add_assoc]

/-- The offset and the type of an element of zero-copy data. -/
theorem subvalOffset_eq {m : Memory} {t : TypeTree} {ts : List TypeTree} (ref : Bool)
    {subs : List AdiakDatatype} (n : Int) (hcounts : ∀ u ∈ ts, u.CountsOk)
    (hsubs : (t.dtype = .tuple ∧ subs = ts.map datatype) ∨
      (t.dtype ≠ .tuple ∧ ∃ n elem, ts = List.replicate n elem ∧ subs = [elem.datatype]))
    {i : Nat} (hi : i < ts.length) (hsize : Packed.offset (ts.map (field m)) i < 2 ^ 31) :
    subvalOffset (containerNode t.dtype ref n) subs i =
      .ok (some (Packed.offset (ts.map (field m)) i, ts[i].datatype)) := by
  have hindex := subtype_index hsubs hi
  unfold subvalOffset
  have hdtype : (containerNode t.dtype ref n).dtype = t.dtype := rfl
  rw [hdtype]
  rcases hsubs with ⟨ht, rfl⟩ | ⟨ht, n, elem, rfl, rfl⟩
  · rw [if_pos ht] at hindex ⊢
    rw [prefixBytes_eq m hcounts le_rfl (Nat.le_of_lt hi) (by rwa [Int.zero_add]), ok_bind,
      Int.zero_add]
    simp only [subtypeAt_eq_ok hindex, ok_bind]
  · rw [if_neg ht] at hindex ⊢
    rw [List.length_replicate] at hi
    have helem : elem.CountsOk := hcounts elem (List.mem_replicate.mpr ⟨by omega, rfl⟩)
    have hoffset : Packed.offset ((List.replicate n elem).map (field m)) i =
        i * elem.packedSize := by
      rw [List.map_replicate, Packed.offset_replicate (Nat.le_of_lt hi)]; rfl
    have hnonneg : 0 ≤ (i : Int) * elem.packedSize :=
      Int.mul_nonneg (by omega) (packedSize_nonneg helem)
    rw [hoffset] at hsize
    have hwrap : wrapInt (i * wrapInt elem.packedSize) = i * elem.packedSize := by
      have hi31 : wrapInt (i * wrapInt elem.packedSize) = wrapInt (i * elem.packedSize) := by
        unfold wrapInt
        exact Int.mul_bmod_bmod
      rw [hi31, wrapInt_of_lt hnonneg hsize]
    rw [subtypeAt_eq_ok hindex, ok_bind, List.getElem_replicate, calcSize_eq, ok_bind, hwrap,
      if_neg (by omega), hoffset]

theorem decodeSubval_container {m : Memory} {d : AdiakType} {ref : Bool} {n : Int}
    {subs : List AdiakDatatype} {p : Addr} (hbase : isBasetype d = false) :
    decodeSubval m (.node (containerNode d ref n) subs) p =
      .ok { ret := 0, subtype := .node (containerNode d ref n) subs, subval := .vPtr (.caller p) } := by
  cases d <;> first | exact absurd hbase (by decide) | rfl

/-- An element of a packed buffer, of a type all of whose containers are references. -/
theorem decodeSubval_represents {m : Memory} {t : TypeTree} {p : Addr} {c : Content}
    (hcounts : t.CountsOk) (href : t.RefClosed true) (hsize : t.packedSize < 2 ^ 31)
    (hat : t.contentsAt m p = .ok c) :
    ∃ v, decodeSubval m t.datatype p = .ok { ret := 0, subtype := t.datatype, subval := v } ∧
      Represents m t v c := by
  cases hc : t.container with
  | none =>
    obtain ⟨-, v', -, hdecode, -, hv'⟩ := leaf_represents hc hat
    exact ⟨v', hdecode, hv'⟩
  | some r =>
    obtain ⟨ref, ts⟩ := r
    obtain rfl : ref = true := (href.container hc).1 rfl
    obtain ⟨-, hbase, -, subs, hdatatype, -⟩ := datatype_container hcounts hc
    refine ⟨.vPtr (.caller p), ?_, .referenced hcounts hc href hsize hat⟩
    rw [hdatatype]
    exact decodeSubval_container hbase

/-- What `adiak_num_subvals` and `adiak_get_subval` show of a container: every index in range gives
a value that represents the element, every other index is refused. -/
theorem Represents.adiakGetSubval {m : Memory} {t : TypeTree} {v : AdiakValue} {c : Content}
    {ref : Bool} {ts : List TypeTree} (h : Represents m t v c) (hc : t.container = some (ref, ts)) :
    ∃ cs, c = .node t.dtype cs ∧ cs.length = ts.length ∧
      adiakNumSubvals t.datatype = .ok ts.length ∧
      (∀ elem : Int, elem < 0 ∨ ts.length ≤ elem →
        Adiak.adiakGetSubval m t.datatype v elem = .ok .error) ∧
      ∀ i (hi : i < ts.length) (hx : i < cs.length), ∃ v',
        Adiak.adiakGetSubval m t.datatype v i =
          .ok { ret := 0, subtype := ts[i].datatype, subval := v' } ∧
        Represents m ts[i] v' cs[i] := by
  cases h with
  | leaf hleaf => rw [hleaf] at hc; cases hc
  | @copied _ ts' vs cs hcounts hc' hvs hcs helems =>
    obtain ⟨rfl, rfl⟩ := Prod.mk.inj (Option.some.inj (hc'.symm.trans hc))
    obtain ⟨hlt, -, -, subs, hdatatype, hsubs⟩ := datatype_container hcounts hc
    refine ⟨cs, rfl, hcs, ?_, fun elem helem => ?_, fun i hi hx => ?_⟩
    · rw [hdatatype, adiakNumSubvals, containerNode_count, wrapInt_of_lt (by omega) hlt]
    · unfold Adiak.adiakGetSubval
      rw [hdatatype]
      by_cases hneg : elem < 0
      · rw [if_pos hneg]
      · rw [if_neg hneg]
        have hle : (ts'.length : Int) ≤ elem := by omega
        simp [containerNode, hle]
    · refine ⟨vs[i], ?_, helems i hi (hvs ▸ hi) hx⟩
      have hindex := subtypeAt_eq_ok (subtype_index hsubs hi)
      have hget : vs[i]? = some vs[i] := List.getElem?_eq_getElem (hvs ▸ hi)
      have hlt' : ¬ (ts'.length : Int) ≤ i := by omega
      unfold Adiak.adiakGetSubval
      rw [hdatatype, if_neg (by omega)]
      simp only [containerNode, Bool.false_eq_true, if_false, if_true, hlt', Int.toNat_natCast]
      rw [hindex, ok_bind]
      simp only [hget]
  | @referenced _ ts' p c hcounts hc' href hsize hat =>
    obtain ⟨rfl, rfl⟩ := Prod.mk.inj (Option.some.inj (hc'.symm.trans hc))
    obtain ⟨hlt, -, hcountsElems, subs, hdatatype, hsubs⟩ := datatype_container hcounts hc
    obtain ⟨hspan, hcontents⟩ := packed_container m hcounts hc
    rw [hspan] at hsize
    rw [hcontents] at hat
    obtain ⟨cs, hcs, rfl⟩ : ∃ cs, Packed.readAll (ts'.map (field m)) p = .ok cs ∧
        .node t.dtype cs = c := by
      cases hread : Packed.readAll (ts'.map (field m)) p with
      | error e => rw [hread] at hat; cases hat
      | ok cs =>
        rw [hread] at hat
        exact ⟨cs, rfl, Except.ok.inj hat⟩
    have hlen : cs.length = ts'.length := by
      rw [Packed.length_readAll hcs, List.length_map]
    refine ⟨cs, rfl, hlen, ?_, fun elem helem => ?_, fun i hi hx => ?_⟩
    · rw [hdatatype, adiakNumSubvals, containerNode_count, wrapInt_of_lt (by omega) hlt]
    · unfold Adiak.adiakGetSubval
      rw [hdatatype]
      by_cases hneg : elem < 0
      · rw [if_pos hneg]
      · rw [if_neg hneg]
        have hle : (ts'.length : Int) ≤ elem := by omega
        simp [containerNode, hle]
    · have hi' : i < (ts'.map (field m)).length := by rwa [List.length_map]
      have helem := Packed.readAll_get hcs hi' hx
      rw [List.getElem_map] at helem
      have hnonneg : ∀ f ∈ ts'.map (field m), 0 ≤ f.size := fun f hf => by
        obtain ⟨u, hu, rfl⟩ := List.mem_map.mp hf
        exact packedSize_nonneg (hcountsElems u hu)
      have hoff := Packed.offset_nonneg hnonneg i
      have hle := Packed.offset_add_size_le hnonneg hi'
      rw [List.getElem_map] at hle
      change _ + ts'[i].packedSize ≤ _ at hle
      have hpos := packedSize_nonneg (hcountsElems _ (List.getElem_mem hi))
      have hsizei : ts'[i].packedSize < 2 ^ 31 := by omega
      have hmem : ts'[i] ∈ ts' := List.getElem_mem hi
      obtain ⟨v', hdecode, hv'⟩ := decodeSubval_represents (hcountsElems _ hmem)
        ((href.container hc).2 _ hmem) hsizei helem
      refine ⟨v', ?_, hv'⟩
      have hlt' : ¬ (ts'.length : Int) ≤ i := by omega
      have hoffset := subvalOffset_eq true ts'.length hcountsElems hsubs hi (m := m) (by omega)
      unfold Adiak.adiakGetSubval
      rw [hdatatype, if_neg (by omega)]
      simp only [containerNode, Bool.true_eq_false, if_false, if_true, hlt', Int.toNat_natCast]
        at hoffset ⊢
      rw [hoffset, ok_bind]
      exact hdecode

/-! ## Copying -/

/-- What the loop of `copy_value` finds in a container. -/
theorem indexes_copyValues {m : Memory} {t : TypeTree} {ts : List TypeTree} {subs : List AdiakDatatype}
    (hsubs : (t.dtype = .tuple ∧ subs = ts.map datatype) ∨
      (t.dtype ≠ .tuple ∧ ∃ n elem, ts = List.replicate n elem ∧ subs = [elem.datatype])) :
    Indexes (copyValue m) (copyValues m subs) (decide (t.dtype = .tuple)) 0 ts := by
  rw [copyValues_eq_map]
  exact indexes_container hsubs

/-- The loop of `copy_value` over elements that copy well, in the sense of a relation `R` between type,
value and what `f` reads. -/
theorem copyLoop_fields {γ : Type} {m : Memory} {f : TypeTree → Packed.Field Stop γ}
    (hf : ∀ u, (f u).size = u.packedSize) {copiers : List Copier} {isTuple : Bool} {ptr : Addr}
    {us : List TypeTree} {R : TypeTree → AdiakValue → γ → Prop} (hcounts : ∀ u ∈ us, u.CountsOk)
    (hcopy : ∀ u ∈ us, ∀ p c, (f u).read p = .ok c →
      ∃ v, copyValue m u.datatype p = .ok (v, u.packedSize) ∧ R u v c)
    {typeIndex : Nat} {bytesRead : Int} {cs : List γ}
    (hcopiers : Indexes (copyValue m) copiers isTuple typeIndex us)
    (h0 : 0 ≤ bytesRead) (hsize : bytesRead + Packed.span (us.map f) < 2 ^ 31)
    (hread : Packed.readAll (us.map f) (ptr + bytesRead) = .ok cs) :
    ∃ vs, copyLoop copiers isTuple ptr us.length typeIndex bytesRead =
        .ok (vs, bytesRead + Packed.span (us.map f)) ∧
      vs.length = us.length ∧
      ∀ i (hi : i < us.length) (hv : i < vs.length) (hx : i < cs.length), R us[i] vs[i] cs[i] := by
  induction us generalizing typeIndex bytesRead cs with
  | nil =>
    refine ⟨[], ?_, rfl, fun i hi => absurd hi (Nat.not_lt_zero i)⟩
    rw [List.map_nil, Packed.span_nil, Int.add_zero]
    rfl
  | cons u us ih =>
    have hcountsTail : ∀ u' ∈ us, u'.CountsOk := fun u' hu' => hcounts u' (List.mem_cons_of_mem u hu')
    have hpos := packedSize_nonneg (hcounts u List.mem_cons_self)
    have hspan : 0 ≤ Packed.span (us.map f) := Packed.span_nonneg fun g hg => by
      obtain ⟨u', hu', rfl⟩ := List.mem_map.mp hg
      rw [hf]
      exact packedSize_nonneg (hcountsTail u' hu')
    rw [List.map_cons, Packed.span_cons, hf] at hsize
    rw [List.map_cons] at hread
    obtain ⟨c, cs', hc, hcs', rfl⟩ := Packed.readAll_cons_eq_ok.mp hread
    obtain ⟨v, hv, hrep⟩ := hcopy u List.mem_cons_self _ c hc
    rw [hf, Int.add_assoc] at hcs'
    obtain ⟨vs, hloop, hlen, hreps⟩ := ih hcountsTail
      (fun u' hu' => hcopy u' (List.mem_cons_of_mem u hu')) hcopiers.tail (by omega) (by omega) hcs'
    refine ⟨v :: vs, ?_, by rw [List.length_cons, List.length_cons, hlen], ?_⟩
    · rw [List.length_cons, copyLoop, hcopiers.head, List.map_cons, Packed.span_cons, hf]
      simp only [hv, ok_bind]
      rw [if_neg (by omega), wrapInt_of_lt (by omega) (by omega), hloop, ok_bind, Int.add_assoc]
    · intro i hi hvi hxi
      cases i with
      | zero => exact hrep
      | succ i =>
        exact hreps i (Nat.lt_of_succ_lt_succ hi) (Nat.lt_of_succ_lt_succ hvi)
          (Nat.lt_of_succ_lt_succ hxi)

/-- The same for what a buffer holds. -/
theorem copyLoop_eq {m : Memory} {copiers : List Copier} {isTuple : Bool} {ptr : Addr}
    {us : List TypeTree} {R : TypeTree → AdiakValue → Content → Prop}
    (hcounts : ∀ u ∈ us, u.CountsOk)
    (hcopy : ∀ u ∈ us, ∀ p c, u.contentsAt m p = .ok c →
      ∃ v, copyValue m u.datatype p = .ok (v, u.packedSize) ∧ R u v c)
    {typeIndex : Nat} {bytesRead : Int} {cs : List Content}
    (hcopiers : Indexes (copyValue m) copiers isTuple typeIndex us)
    (h0 : 0 ≤ bytesRead) (hsize : bytesRead + Packed.span (us.map (field m)) < 2 ^ 31)
    (hread : Packed.readAll (us.map (field m)) (ptr + bytesRead) = .ok cs) :
    ∃ vs, copyLoop copiers isTuple ptr us.length typeIndex bytesRead =
        .ok (vs, bytesRead + Packed.span (us.map (field m))) ∧
      vs.length = us.length ∧
      ∀ i (hi : i < us.length) (hv : i < vs.length) (hx : i < cs.length), R us[i] vs[i] cs[i] :=
  copyLoop_fields (f := field m) (fun _ => rfl) hcounts hcopy hcopiers h0 hsize hread

/-- `copy_value` comes to the end of any buffer that holds a content, and returns its size. -/
theorem copyValue_size {m : Memory} (t : TypeTree) (hcounts : t.CountsOk)
    (hsize : t.packedSize < 2 ^ 31) {p : Addr} {c : Content} (hat : t.contentsAt m p = .ok c) :
    ∃ v, copyValue m t.datatype p = .ok (v, t.packedSize) := by
  induction t using container_induction generalizing p c with
  | leaf t hleaf =>
    obtain ⟨v, -, hcopy, -⟩ := leaf_represents hleaf hat
    exact ⟨v, hcopy⟩
  | container t ref ts hc ih =>
    obtain ⟨hlt, hbase, hcountsElems, subs, hdatatype, hsubs⟩ := datatype_container hcounts hc
    obtain ⟨hspan, hcontents⟩ := packed_container m hcounts hc
    cases ref with
    | true =>
      have hcalc := calcSize_eq t
      rw [wrapInt_of_lt (packedSize_nonneg hcounts) hsize] at hcalc
      rw [hdatatype] at hcalc ⊢
      exact ⟨_, copyValue_reference p hbase rfl hcalc⟩
    | false =>
      rw [hcontents] at hat
      have hnonneg : ∀ f ∈ ts.map (field m), 0 ≤ f.size := fun f hf => by
        obtain ⟨u, hu, rfl⟩ := List.mem_map.mp hf
        exact packedSize_nonneg (hcountsElems u hu)
      cases hread : Packed.readAll (ts.map (field m)) p with
      | error e => rw [hread] at hat; cases hat
      | ok cs =>
        obtain ⟨vs, hloop, -⟩ := copyLoop_eq (R := fun _ _ _ => True) hcountsElems
          (fun u hu q d hd => by
            have hle : u.packedSize ≤ _ := Packed.size_le_span hnonneg (List.mem_map_of_mem hu)
            obtain ⟨v, hv⟩ := ih u hu (hcountsElems u hu) (by omega) hd
            exact ⟨v, hv, trivial⟩)
          (indexes_copyValues hsubs) le_rfl (by omega) (by rwa [Int.add_zero])
        rw [Int.zero_add, ← hspan] at hloop
        have hinfo : (containerNode t.dtype false ts.length).dtype = t.dtype := rfl
        have hnum : (containerNode t.dtype false ts.length).numElements.toNat = ts.length := rfl
        refine ⟨.vSubval vs, ?_⟩
        rw [hdatatype, copyValue_container m subs p hbase rfl, hinfo, hnum, hloop]
        rfl

end Adiak
