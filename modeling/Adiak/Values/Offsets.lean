import Adiak.Values.StructLayout

/-!
# Offsets in `int` arithmetic

`calc_size`, `adiak_get_subval` and `copy_value` add up sizes in an `int`. Modulo 2^32 their results
are the exact sums, so they are exact as long as these sums are values of an `int`.

1. `adiakGetSubval_reference`: `adiak_get_subval` decodes an element of a reference at the offset it
   computes, or rejects the index.
2. `exactSizes_iff` says when a size and when the place of an element is exact.
-/

namespace Adiak

open TypeTree

/-- Nothing wraps in the sum of the sizes in front of a component that is a value of an `int`, and
what does wrap is not exact. -/
theorem wrapInt_eq_iff {x : Int} (h : 0 ≤ x) : wrapInt x = x ↔ x < 2 ^ 31 :=
  ⟨fun heq => (eq_of_wrapInt_eq h le_rfl heq.symm).1, wrapInt_of_lt h⟩

theorem packedSizes_replicate (n : Nat) (t : TypeTree) :
    packedSizes (List.replicate n t) = n * t.packedSize := by
  rw [packedSizes_eq_sum, List.map_replicate, List.sum_replicate, nsmul_eq_mul]

theorem packedSizes_nonneg {ts : List TypeTree} (h : ∀ t ∈ ts, t.CountsOk) : 0 ≤ packedSizes ts := by
  rw [packedSizes_eq_sum]
  refine List.sum_nonneg fun x hx => ?_
  obtain ⟨t, ht, rfl⟩ := List.mem_map.mp hx
  exact packedSize_nonneg (h t ht)

/-! ## The elements of a reference -/

/-- The sum over the components in front of one is never out of range of the array. -/
theorem exists_prefixBytes {ts : List TypeTree} {i : Nat} (hi : i ≤ ts.length) (bytes : Int) :
    ∃ r, prefixBytes (ts.map datatype) i bytes = .ok r := by
  induction ts generalizing i bytes with
  | nil =>
    obtain rfl := Nat.le_zero.mp hi
    exact ⟨_, rfl⟩
  | cons t ts ih =>
    cases i with
    | zero => exact ⟨_, rfl⟩
    | succ i =>
      rw [List.map_cons, prefixBytes, calcSize_eq, ok_bind]
      by_cases hneg : wrapInt t.packedSize < 0
      · rw [if_pos hneg]
        exact ⟨none, rfl⟩
      · rw [if_neg hneg]
        exact ih (Nat.le_of_succ_le_succ hi) _

/-- The offset of an element and its type, or a jump to `error`. -/
theorem subvalOffset_cases {t : TypeTree} {ts : List TypeTree} (ref : Bool)
    {subs : List AdiakDatatype} (n : Int)
    (hsubs : (t.dtype = .tuple ∧ subs = ts.map datatype) ∨
      (t.dtype ≠ .tuple ∧ ∃ n elem, ts = List.replicate n elem ∧ subs = [elem.datatype]))
    {i : Nat} (hi : i < ts.length) :
    subvalOffset (containerNode t.dtype ref n) subs i = .ok none ∨
      ∃ b, subvalOffset (containerNode t.dtype ref n) subs i = .ok (some (b, ts[i].datatype)) := by
  have hindex := subtypeAt_eq_ok (subtype_index hsubs hi)
  unfold subvalOffset
  have hdtype : (containerNode t.dtype ref n).dtype = t.dtype := rfl
  rw [hdtype]
  by_cases ht : t.dtype = .tuple
  · rw [if_pos ht] at hindex ⊢
    obtain ⟨-, rfl⟩ := hsubs.resolve_right fun h => h.1 ht
    obtain ⟨r, hr⟩ := exists_prefixBytes (Nat.le_of_lt hi) 0
    rw [hr, ok_bind]
    cases r with
    | none => exact .inl rfl
    | some b =>
      simp only [hindex, ok_bind]
      exact .inr ⟨b, rfl⟩
  · rw [if_neg ht] at hindex ⊢
    rw [hindex, ok_bind, calcSize_eq, ok_bind]
    dsimp only
    split_ifs
    · exact .inl rfl
    · exact .inr ⟨_, rfl⟩

/-- `adiak_get_subval` decodes an element of a reference at its offset, or rejects its index. -/
theorem adiakGetSubval_reference {t : TypeTree} {ts : List TypeTree} (hcounts : t.CountsOk)
    (hc : t.container = some (true, ts)) {i : Nat} (hi : i < ts.length) (m : Memory) (p : Addr) :
    adiakGetSubval m t.datatype (.vPtr (.caller p)) i =
      match readOffset m t.datatype p i with
      | .ok b => decodeSubval m ts[i].datatype (p + b)
      | .error _ => .ok .error := by
  obtain ⟨-, -, -, subs, hdatatype, hsubs⟩ := datatype_container hcounts hc
  have hlt : ¬ (ts.length : Int) ≤ i := by omega
  rw [hdatatype]
  unfold adiakGetSubval readOffset
  rw [if_neg (by omega)]
  have href : (containerNode t.dtype true ts.length).isReference = true := rfl
  have hnum : (containerNode t.dtype true ts.length).numRefElements = ts.length := rfl
  simp only [href, hnum, Bool.true_eq_false, if_false, if_true, hlt, Int.toNat_natCast]
  rcases subvalOffset_cases true ts.length hsubs hi with h | ⟨b, h⟩
  · rw [h]
    rfl
  · rw [h]
    rfl

/-! ## Exact sizes -/

/-- Memory full of zeros holds a content of any type everywhere. -/
theorem exists_contentsAt_zero (t : TypeTree) (hcounts : t.CountsOk) (p : Addr) :
    ∃ c, t.contentsAt Memory.zero p = .ok c := by
  induction t using container_induction generalizing p with
  | leaf t hleaf =>
    obtain ⟨c, hc⟩ := exists_objectAt t p
    cases hc with
    | leaf _ hat => exact ⟨c, hat⟩
    | container hc => rw [hleaf] at hc; cases hc
  | container t ref ts hc ih =>
    obtain ⟨-, -, hcountsElems, -⟩ := datatype_container hcounts hc
    obtain ⟨cs, hcs⟩ : ∃ cs, Packed.readAll (ts.map (field Memory.zero)) p = .ok cs := by
      refine Packed.exists_readAll fun i hi => ?_
      rw [List.length_map] at hi
      rw [List.getElem_map]
      exact ih _ (List.getElem_mem hi) (hcountsElems _ (List.getElem_mem hi)) _
    rw [(packed_container Memory.zero hcounts hc).2, hcs]
    exact ⟨_, rfl⟩

theorem exists_readAll_zero {ts : List TypeTree} (hcounts : ∀ t ∈ ts, t.CountsOk) (p : Addr) :
    ∃ cs, Packed.readAll (ts.map (field Memory.zero)) p = .ok cs := by
  refine Packed.exists_readAll fun i hi => ?_
  rw [List.length_map] at hi
  rw [List.getElem_map]
  exact exists_contentsAt_zero _ (hcounts _ (List.getElem_mem hi)) _

/-- The element `i` of the container `t` is where the exact sum of the sizes in front of it says:
`readOffset` is the running offset of `copy_value` in a copied container, where what stands in front
has to be readable, and the offset of `adiak_get_subval` in a reference. -/
structure ExactElement (t : TypeTree) (ref : Bool) (ts : List TypeTree) (i : Nat) : Prop where
  offset : ∀ m p, (ref = false → ∃ cs, Packed.readAll (ts.map (field m)) p = .ok cs) →
    readOffset m t.datatype p i = .ok (packedSizes (ts.take i))
  subval : ref = true → ∀ m p u, ts[i]? = some u →
    adiakGetSubval m t.datatype (.vPtr (.caller p)) i =
      decodeSubval m u.datatype (p + packedSizes (ts.take i))

/-- The size of a type and the place of an element are exact if and only if they are values of an
`int`. -/
theorem exactSizes_iff {t : TypeTree} (hcounts : t.CountsOk) :
    (calcSize t.datatype = .ok t.packedSize ↔ t.packedSize < 2 ^ 31) ∧
      ∀ ref ts, t.container = some (ref, ts) → ∀ i < ts.length,
        (ExactElement t ref ts i ↔ packedSizes (ts.take i) < 2 ^ 31) := by
  constructor
  · rw [calcSize_eq, Except.ok.injEq]
    exact wrapInt_eq_iff (packedSize_nonneg hcounts)
  · intro ref ts hc i hi
    obtain ⟨-, -, hcountsElems, -⟩ := datatype_container hcounts hc
    have hnonneg : 0 ≤ packedSizes (ts.take i) :=
      packedSizes_nonneg fun u hu => hcountsElems u (List.mem_of_mem_take hu)
    constructor
    · intro h
      -- memory full of zeros can be read everywhere
      have hread := h.offset Memory.zero 0 fun _ => exists_readAll_zero hcountsElems 0
      exact (wrapInt_eq_iff hnonneg).mp (readOffset_wrap hcounts hc hi hread).symm
    · intro hlt
      refine ⟨fun m p hat => readOffset_eq hcounts hc hi hlt hat, ?_⟩
      rintro rfl m p u hu
      obtain ⟨-, rfl⟩ := List.getElem?_eq_some_iff.mp hu
      rw [adiakGetSubval_reference hcounts hc hi, readOffset_eq hcounts hc hi hlt (by rintro ⟨⟩)]

/-- A referenced list of 2^28 + 1 `long long`s: its size is not exact, and the place of the last element
is not. -/
theorem exactSizes_longlongs :
    calcSize (coll .list true (2 ^ 28 + 1) (.scalar .longlong)).datatype ≠
        .ok (coll .list true (2 ^ 28 + 1) (.scalar .longlong)).packedSize ∧
      ExactElement (coll .list true (2 ^ 28 + 1) (.scalar .longlong)) true
        (List.replicate (2 ^ 28 + 1) (.scalar .longlong)) (2 ^ 28 - 1) ∧
      ¬ ExactElement (coll .list true (2 ^ 28 + 1) (.scalar .longlong)) true
        (List.replicate (2 ^ 28 + 1) (.scalar .longlong)) (2 ^ 28) := by
  have hcounts : (coll .list true (2 ^ 28 + 1) (.scalar .longlong)).CountsOk := by
    unfold CountsOk
    decide
  have hc : (coll .list true (2 ^ 28 + 1) (.scalar .longlong)).container =
      some (true, List.replicate (2 ^ 28 + 1) (.scalar .longlong)) := rfl
  have hsize : (coll .list true (2 ^ 28 + 1) (.scalar .longlong)).packedSize = 2 ^ 31 + 8 := rfl
  have hfront : ∀ i ≤ 2 ^ 28 + 1, packedSizes
      ((List.replicate (2 ^ 28 + 1) (TypeTree.scalar .longlong)).take i) = i * 8 := by
    intro i hi
    rw [List.take_replicate, packedSizes_replicate, Nat.min_eq_left hi]
    rfl
  obtain ⟨hcalc, helem⟩ := exactSizes_iff hcounts
  refine ⟨?_, ?_, ?_⟩
  · rw [Ne, hcalc, hsize]
    decide
  · refine (helem true _ hc _ (by rw [List.length_replicate]; decide)).mpr ?_
    rw [hfront _ (by decide)]
    decide
  · rw [helem true _ hc _ (by rw [List.length_replicate]; decide), hfront _ (by decide)]
    decide

/-- Element 2^29 of a referenced list of `long long`s is read where the first one lies, and the list
has size 8. -/
theorem exactSizes_not_always : ¬ ∀ t, CountsOk t → ∀ ref ts, t.container = some (ref, ts) →
    calcSize t.datatype = .ok t.packedSize ∧ ∀ i < ts.length, ExactElement t ref ts i := by
  intro h
  have hcalc := (h (.coll .list true (2 ^ 29 + 1) (.scalar .longlong)) (by unfold CountsOk; decide)
    true _ rfl).1
  rw [calcSize_eq] at hcalc
  exact absurd (Except.ok.inj hcalc) (by decide)

end Adiak
