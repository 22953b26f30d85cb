import Adiak.Values.Represents

/-!
# Values read later

A recorded value is read in a memory `m` that may differ from the memory `m₀` it was recorded in.

1. `TypeTree.seenAt` is what is then seen: what was copied comes from `m₀`, what is marked from `m`.
2. `copy_value` makes a value that represents what is seen (`copyValue_seen`, an induction over the type).
3. In one memory, that is the content of the buffer (`seenAt_self`, `copyValue_represents`).
-/

namespace Adiak

namespace TypeTree

mutual

/-- What is seen in `m` of a value that was copied from `p` in `m₀`. -/
def seenAt (m₀ m : Memory) : TypeTree → Addr → Except Stop Content
  | .scalar s, p => do
    let x ← s.leafAt m₀ p
    .ok (.leaf s.dtype x)
  | .str k ref, p => do
    -- the pointer itself is copied in either case
    let sptr ← m₀.loadAddr p
    let s ← (if ref then m else m₀).loadCstr sptr
    .ok (.leaf k.dtype (.str s))
  | .coll k ref n elem, p =>
    if ref then (TypeTree.coll k ref n elem).contentsAt m p
    else do
      let cs ← Packed.readAll
        (List.replicate n.toNat ⟨packedSize elem, fun q => seenAt m₀ m elem q⟩) p
      .ok (.node k.dtype cs)
  | .range ref elem, p =>
    if ref then (TypeTree.range ref elem).contentsAt m p
    else do
      let cs ← Packed.readAll (List.replicate 2 ⟨packedSize elem, fun q => seenAt m₀ m elem q⟩) p
      .ok (.node .range cs)
  | .tuple ref comps, p =>
    if ref then (TypeTree.tuple ref comps).contentsAt m p
    else do
      let cs ← Packed.readAll (seenFields m₀ m comps) p
      .ok (.node .tuple cs)

def seenFields (m₀ m : Memory) : List TypeTree → List (Packed.Field Stop Content)
  | [] => []
  | t :: ts => ⟨packedSize t, fun q => seenAt m₀ m t q⟩ :: seenFields m₀ m ts

end

/-- A type as a field of a packed record, read later. -/
def seenField (m₀ m : Memory) (t : TypeTree) : Packed.Field Stop Content where
  size := t.packedSize
  read := t.seenAt m₀ m

theorem seenFields_eq_map (m₀ m : Memory) (ts : List TypeTree) :
    seenFields m₀ m ts = ts.map (seenField m₀ m) := by
  induction ts with
  | nil => rfl
  | cons t ts ih =>
    rw [seenFields, ih, List.map_cons]
    rfl

theorem seenAt_reference (m₀ m : Memory) {t : TypeTree} {ts : List TypeTree}
    (h : t.container = some (true, ts)) : t.seenAt m₀ m = t.contentsAt m := by
  funext p
  cases t with
  | scalar s => cases h
  | str k ref => cases h
  | coll k ref n elem =>
    obtain ⟨rfl, -⟩ := Prod.mk.inj (Option.some.inj h)
    rw [seenAt, if_pos rfl]
  | range ref elem =>
    obtain ⟨rfl, -⟩ := Prod.mk.inj (Option.some.inj h)
    rw [seenAt, if_pos rfl]
  | tuple ref comps =>
    obtain ⟨rfl, -⟩ := Prod.mk.inj (Option.some.inj h)
    rw [seenAt, if_pos rfl]

theorem seenAt_copied (m₀ m : Memory) {t : TypeTree} {ts : List TypeTree}
    (h : t.container = some (false, ts)) (p : Addr) :
    t.seenAt m₀ m p = (Packed.readAll (ts.map (seenField m₀ m)) p).map (.node t.dtype) := by
  cases t with
  | scalar s => cases h
  | str k ref => cases h
  | coll k ref n elem =>
    obtain ⟨rfl, rfl⟩ := Prod.mk.inj (Option.some.inj h)
    rw [seenAt, if_neg Bool.false_ne_true, List.map_replicate]
    unfold seenField
    cases Packed.readAll (List.replicate n.toNat ⟨elem.packedSize, elem.seenAt m₀ m⟩) p <;> rfl
  | range ref elem =>
    obtain ⟨rfl, rfl⟩ := Prod.mk.inj (Option.some.inj h)
    have hmap : [elem, elem].map (seenField m₀ m) = List.replicate 2 (seenField m₀ m elem) := rfl
    rw [seenAt, if_neg Bool.false_ne_true, hmap]
    unfold seenField
    cases Packed.readAll (List.replicate 2 ⟨elem.packedSize, elem.seenAt m₀ m⟩) p <;> rfl
  | tuple ref comps =>
    obtain ⟨rfl, rfl⟩ := Prod.mk.inj (Option.some.inj h)
    rw [seenAt, if_neg Bool.false_ne_true, seenFields_eq_map]
    cases Packed.readAll (comps.map (seenField m₀ m)) p <;> rfl

/-- In one memory, what is seen is what the buffer holds. -/
theorem seenAt_self (m : Memory) (t : TypeTree) : t.seenAt m m = t.contentsAt m := by
  funext p
  induction t using TypeTree.induction generalizing p with
  | scalar s => rfl
  | str k ref =>
    show (m.loadAddr p >>= fun sptr => _) = ((m.loadAddr p >>= _) >>= _)
    rw [ite_self]
    cases m.loadAddr p with
    | error e => rfl
    | ok a =>
      show (m.loadCstr a >>= _) = ((m.loadCstr a >>= _) >>= _)
      cases m.loadCstr a <;> rfl
  | coll k ref n elem ih =>
    have helem : elem.seenAt m m = elem.contentsAt m := funext ih
    rw [seenAt, contentsAt, helem, ite_self]
  | range ref elem ih =>
    have helem : elem.seenAt m m = elem.contentsAt m := funext ih
    rw [seenAt, contentsAt, helem, ite_self]
  | tuple ref comps ih =>
    have hfields : ∀ t ∈ comps, seenField m m t = field m t := fun t ht =>
      congrArg _ (funext (ih t ht))
    rw [seenAt, contentsAt, seenFields_eq_map, fields_eq_map, List.map_congr_left hfields, ite_self]

end TypeTree

open TypeTree

/-! ## Copying -/

/-- A scalar is copied with what it holds. -/
theorem copied_scalar {m₀ : Memory} {s : ScalarKind} {p : Addr} {x : Leaf}
    (h : s.leafAt m₀ p = .ok x) :
    ∃ v, copyValue m₀ s.datatype p = .ok (v, s.size) ∧ ∀ m, readLeaf m s.dtype v = .ok x := by
  obtain ⟨v, -, hcopy, -, hv, -⟩ := scalar_leaf h
  refine ⟨v, hcopy, fun m => ?_⟩
  cases s with
  | timeval =>
    obtain ⟨a, ha, h⟩ := bind_eq_ok.mp h
    obtain ⟨tv, htv, h⟩ := bind_eq_ok.mp h
    obtain rfl := Except.ok.inj h
    have hval : copyValue m₀ ScalarKind.timeval.datatype p = .ok (.vPtr (.timeval tv), 8) := by
      simp [copyValue, ScalarKind.datatype, baseTimeval, baseType, ha, htv]
    obtain ⟨rfl, -⟩ := Prod.mk.inj (Except.ok.inj (hcopy.symm.trans hval))
    rfl
  | _ => cases v <;> exact hv

theorem copied_str {m₀ m : Memory} {k : StringKind} {ref : Bool} {p a : Addr} {s : CStr}
    (ha : m₀.loadAddr p = .ok a) (hs : (if ref then m else m₀).loadCstr a = .ok s) :
    ∃ v, copyValue m₀ (k.datatype ref) p = .ok (v, 8) ∧ readLeaf m k.dtype v = .ok (.str s) := by
  have hread : ∀ q : Pointer, q.cstr m = .ok s → readLeaf m k.dtype (.vPtr q) = .ok (.str s) := by
    intro q hq
    cases k <;> (show (q.cstr m >>= _) = _; rw [hq]; rfl)
  cases ref with
  | true =>
    refine ⟨.vPtr (.caller a), ?_, hread _ hs⟩
    cases k <;>
      simp [copyValue, StringKind.datatype, baseVersionRef, baseStringRef, baseCatstringRef,
        baseJsonstringRef, basePathRef, baseType, ha]
  | false =>
    rw [if_neg Bool.false_ne_true] at hs
    refine ⟨.vPtr (.strdup s), ?_, hread _ rfl⟩
    cases k <;>
      simp [copyValue, StringKind.datatype, baseVersion, baseString, baseCatstring, baseJsonstring,
        basePath, baseType, ha, hs]

/-- `copy_value` makes a value that represents what is seen later. -/
theorem copyValue_seen {m₀ m : Memory} (t : TypeTree) {under : Bool} (hcounts : t.CountsOk)
    (href : t.RefClosed under) (hsize : t.packedSize < 2 ^ 31) {p : Addr} {c : Content}
    (hseen : t.seenAt m₀ m p = .ok c) :
    ∃ v, copyValue m₀ t.datatype p = .ok (v, t.packedSize) ∧ Represents m t v c := by
  induction t using container_induction generalizing under p c with
  | leaf t hleaf =>
    cases t with
    | scalar s =>
      obtain ⟨x, hx, h⟩ := bind_eq_ok.mp hseen
      obtain rfl := Except.ok.inj h
      obtain ⟨v, hcopy, hv⟩ := copied_scalar hx
      exact ⟨v, hcopy, .leaf rfl (hv m)⟩
    | str k ref =>
      obtain ⟨a, ha, h⟩ := bind_eq_ok.mp hseen
      obtain ⟨s, hs, h⟩ := bind_eq_ok.mp h
      obtain rfl := Except.ok.inj h
      obtain ⟨v, hcopy, hv⟩ := copied_str (k := k) ha hs
      exact ⟨v, hcopy, .leaf rfl hv⟩
    | coll => cases hleaf
    | range => cases hleaf
    | tuple => cases hleaf
  | container t ref ts hc ih =>
    obtain ⟨hlt, hbase, hcountsElems, subs, hdatatype, hsubs⟩ := datatype_container hcounts hc
    obtain ⟨hspan, -⟩ := packed_container m hcounts hc
    cases ref with
    | true =>
      rw [seenAt_reference m₀ m hc] at hseen
      refine ⟨.vPtr (.caller p), ?_, .referenced hcounts hc (href.of_container hc) hsize hseen⟩
      have hcalc := calcSize_eq t
      rw [wrapInt_of_lt (packedSize_nonneg hcounts) hsize] at hcalc
      rw [hdatatype] at hcalc ⊢
      exact copyValue_reference p hbase rfl hcalc
    | false =>
      rw [seenAt_copied m₀ m hc] at hseen
      have hmap : Packed.span (ts.map (field m)) = Packed.span (ts.map (seenField m₀ m)) := by
        unfold Packed.span
        rw [List.map_map, List.map_map]
        rfl
      rw [hmap] at hspan
      cases hread : Packed.readAll (ts.map (seenField m₀ m)) p with
      | error e => rw [hread] at hseen; cases hseen
      | ok cs =>
        rw [hread] at hseen
        obtain rfl := Except.ok.inj hseen
        have hnonneg : ∀ f ∈ ts.map (seenField m₀ m), 0 ≤ f.size := fun f hf => by
          obtain ⟨u, hu, rfl⟩ := List.mem_map.mp hf
          exact packedSize_nonneg (hcountsElems u hu)
        obtain ⟨vs, hloop, hlen, hreps⟩ := copyLoop_fields (f := seenField m₀ m) (R := Represents m)
          (fun _ => rfl) hcountsElems
          (fun u hu q d hd => by
            have hle : u.packedSize ≤ _ := Packed.size_le_span hnonneg (List.mem_map_of_mem hu)
            exact ih u hu (hcountsElems u hu) ((href.container hc).2 u hu) (by omega) hd)
          (indexes_copyValues hsubs) le_rfl (by omega) (by rwa [Int.add_zero])
        rw [Int.zero_add, ← hspan] at hloop
        have hinfo : (containerNode t.dtype false ts.length).dtype = t.dtype := rfl
        have hnum : (containerNode t.dtype false ts.length).numElements.toNat = ts.length := rfl
        refine ⟨.vSubval vs, ?_, .copied hcounts hc hlen ?_ hreps⟩
        · rw [hdatatype, copyValue_container m₀ subs p hbase rfl, hinfo, hnum, hloop]
          rfl
        · rw [Packed.length_readAll hread, List.length_map]

/-- Copying a value of a type gives a value that represents the content of the buffer. -/
def Copies (m : Memory) (t : TypeTree) : Prop :=
  ∀ p c, t.contentsAt m p = .ok c → ∃ v,
    copyValue m t.datatype p = .ok (v, t.packedSize) ∧ Represents m t v c

/-- `copy_value` makes a value that represents the content of the buffer, whatever is marked as a
reference. -/
theorem copyValue_represents {m : Memory} (t : TypeTree) {under : Bool} (hcounts : t.CountsOk)
    (href : t.RefClosed under) (hsize : t.packedSize < 2 ^ 31) : Copies m t := fun _ _ hat =>
  copyValue_seen t hcounts href hsize (by rwa [seenAt_self])

end Adiak
