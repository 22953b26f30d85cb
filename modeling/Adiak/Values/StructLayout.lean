import Adiak.Library.Layout
import Adiak.Values.Copied
import Adiak.Values.Recorded

/-!
# Packed buffers and C objects

`copy_value` and `adiak_get_subval` walk a buffer without gaps, a C compiler lays the same members out
with natural alignment.

1. `TypeTree.member` is the size and the alignment of the C object of a type, `TypeTree.memberAt`
   goes to a member of it, and `ObjectAt` says what it contains.
2. `readAt` goes to a component the way the code does: by the `bytes_read` of `copy_value` in a
   copied container, by the `bytes` of `adiak_get_subval` in a reference.
3. Whatever is read, these offsets are sums of packed sizes modulo 2^32 (`readOffset_wrap`).
4. `findsMembers_iff`: both walks come to the same addresses exactly for types without padding.
-/

namespace Adiak

namespace TypeTree

/-! ## C objects -/

mutual

/-- The size and the alignment of the C object of a type: a scalar or a pointer, an array or a
struct. -/
def member : TypeTree → Layout.Member
  | .scalar s => ⟨s.size, s.size⟩
  | .str _ _ => ⟨8, 8⟩
  | .coll _ _ n elem => ⟨n * (member elem).size, (member elem).align⟩
  | .range _ elem => ⟨2 * (member elem).size, (member elem).align⟩
  | .tuple _ comps => ⟨Layout.size (members comps), Layout.align (members comps)⟩

def members : List TypeTree → List Layout.Member
  | [] => []
  | t :: ts => member t :: members ts

end

theorem members_eq_map (ts : List TypeTree) : members ts = ts.map member := by
  induction ts with
  | nil => rfl
  | cons t ts ih => rw [members, ih, List.map_cons]

/-- The offset of the member `i`: arrays are strided by the size of their elements. -/
def memberOffset : TypeTree → Nat → Int
  | .scalar _, _ | .str _ _, _ => 0
  | .coll _ _ _ elem, i | .range _ elem, i => i * elem.member.size
  | .tuple _ comps, i => Layout.place (members comps) 0 i

/-- The type and the address of a member of the C object at `p`, by the indices on the way to it. -/
def memberAt : TypeTree → Addr → List Nat → Option (TypeTree × Addr)
  | t, p, [] => some (t, p)
  | t, p, i :: path =>
    match t.container with
    | none => none
    | some (_, ts) =>
      match ts[i]? with
      | none => none
      | some u => memberAt u (p + t.memberOffset i) path

end TypeTree

open TypeTree

/-- The C object of type `t` at `p` holds the content `c`. -/
inductive ObjectAt (m : Memory) : TypeTree → Addr → Content → Prop
  | leaf {t : TypeTree} {p : Addr} {c : Content} (hleaf : t.container = none)
      (hat : t.contentsAt m p = .ok c) : ObjectAt m t p c
  | container {t : TypeTree} {p : Addr} {ref : Bool} {ts : List TypeTree} {cs : List Content}
      (hc : t.container = some (ref, ts)) (hcs : cs.length = ts.length)
      (helems : ∀ i (hi : i < ts.length) (hx : i < cs.length),
        ObjectAt m ts[i] (p + t.memberOffset i) cs[i]) : ObjectAt m t p (.node t.dtype cs)

/-! ## The walk of the code -/

/-- The offset at which the element `elem` of a container at `ptr` is read: what `bytes_read` is when
`copy_value` comes to it, or the `bytes` of `adiak_get_subval`. -/
def readOffset (m : Memory) (t : AdiakDatatype) (ptr : Addr) (elem : Nat) : Except Stop Int :=
  match t with
  | .null => .error .undefined
  | .node info subtype =>
    if info.isReference then do
      match ← subvalOffset info subtype elem with
      | none => .error .null
      | some (bytes, _) => .ok bytes
    else do
      let (_, bytesRead) ← copyLoop (copyValues m subtype) (info.dtype = .tuple) ptr elem 0 0
      .ok bytesRead

/-- The subtype with which it is read. -/
def readType (t : AdiakDatatype) (elem : Nat) : Except Stop AdiakDatatype :=
  match t with
  | .null => .error .undefined
  | .node info subtype => subtypeAt subtype (if info.dtype = .tuple then elem else 0)

/-- The type and the address of a component, by the indices on the way to it. -/
def readAt (m : Memory) : AdiakDatatype → Addr → List Nat → Except Stop (AdiakDatatype × Addr)
  | t, p, [] => .ok (t, p)
  | t, p, i :: path => do
    let bytes ← readOffset m t p i
    let sub ← readType t i
    readAt m sub (p + bytes) path

/-- The components that the code reads are the members of the caller's object: at every depth they
have the types and the addresses of the members. -/
def FindsMembers (t : TypeTree) : Prop :=
  ∀ m p c, ObjectAt m t p c → ∀ path u q, t.memberAt p path = some (u, q) →
    readAt m t.datatype p path = .ok (u.datatype, q)

/-- No padding is needed: put one behind another, the elements of every container begin at multiples
of their alignments, and all but the last also end at one. The offsets are values of an `int`. -/
inductive TypeTree.NoPadding : TypeTree → Prop
  | leaf {t : TypeTree} (hleaf : t.container = none) : NoPadding t
  | container {t : TypeTree} {ref : Bool} {ts : List TypeTree} (hc : t.container = some (ref, ts))
      (helems : ∀ u ∈ ts, NoPadding u) (htight : Layout.Tight member packedSize 0 ts)
      (hint : ∀ i < ts.length, packedSizes (ts.take i) < 2 ^ 31) : NoPadding t

namespace TypeTree

/-! ## Sizes and alignments -/

theorem member_align (t : TypeTree) : ∃ e : Nat, t.member.align = 2 ^ e := by
  induction t with
  | scalar s =>
    cases s
    case long | ulong | longlong | ulonglong | double | date | timeval => exact ⟨3, rfl⟩
    case int | uint | float => exact ⟨2, rfl⟩
    case i16 | u16 => exact ⟨1, rfl⟩
    case i8 | u8 => exact ⟨0, rfl⟩
  | str k ref => exact ⟨3, rfl⟩
  | coll k ref n elem ih => exact ih
  | range ref elem ih => exact ih
  | tuple ref comps ih =>
    have hpow : ∀ m ∈ members comps, ∃ e : Nat, m.align = 2 ^ e := fun m hm => by
      rw [members_eq_map] at hm
      obtain ⟨t, ht, rfl⟩ := List.mem_map.mp hm
      exact ih t ht
    exact (Layout.align_of_pow hpow).1

theorem align_pos (t : TypeTree) : 0 < t.member.align := by
  obtain ⟨e, he⟩ := t.member_align
  rw [he]
  exact pow_pos (by decide) e

/-- An object can follow another one of its type. -/
theorem align_dvd_size (t : TypeTree) : t.member.align ∣ t.member.size := by
  induction t with
  | scalar s => exact Int.dvd_refl _
  | str k ref => exact Int.dvd_refl _
  | coll k ref n elem ih => exact ih.mul_left n
  | range ref elem ih => exact ih.mul_left 2
  | tuple ref comps ih => exact Layout.dvd_roundUp _ _

/-- What the C object of a container is made of. -/
theorem member_container {t : TypeTree} {ref : Bool} {ts : List TypeTree} (hcounts : t.CountsOk)
    (hc : t.container = some (ref, ts)) :
    t.member.size = Layout.roundUp (Layout.fill (ts.map member) 0) t.member.align ∧
      (∀ u ∈ ts, u.member.align ∣ t.member.align) ∧ t.packedSize = packedSizes ts ∧
      ∀ i < ts.length, t.memberOffset i = Layout.place (ts.map member) 0 i := by
  have hpacked : t.packedSize = packedSizes ts := by
    rw [(packed_container Memory.empty hcounts hc).1, packedSizes_eq_span]
  cases t with
  | scalar s => cases hc
  | str k ref => cases hc
  | coll k ref n elem =>
    obtain ⟨rfl, rfl⟩ := Prod.mk.inj (Option.some.inj hc)
    have hn := Int.toNat_of_nonneg hcounts.elem.1.1
    refine ⟨?_, fun u hu => (List.eq_of_mem_replicate hu) ▸ Int.dvd_refl _, hpacked, fun i hi => ?_⟩
    · rw [List.map_replicate, Layout.fill_replicate elem.align_dvd_size (Int.dvd_zero _),
        Int.zero_add, hn]
      exact (Layout.roundUp_of_dvd (elem.align_dvd_size.mul_left n)).symm
    · rw [List.length_replicate] at hi
      rw [List.map_replicate, Layout.place_replicate elem.align_dvd_size (Int.dvd_zero _) hi,
        Int.zero_add]
      rfl
  | range ref elem =>
    obtain ⟨rfl, rfl⟩ := Prod.mk.inj (Option.some.inj hc)
    have hmap : [elem, elem].map member = List.replicate 2 elem.member := rfl
    refine ⟨?_, fun u hu => ?_, hpacked, fun i hi => ?_⟩
    · rw [hmap, Layout.fill_replicate elem.align_dvd_size (Int.dvd_zero _), Int.zero_add]
      exact (Layout.roundUp_of_dvd (elem.align_dvd_size.mul_left 2)).symm
    · obtain rfl : u = elem := by simpa using hu
      exact Int.dvd_refl _
    · have hi' : i < 2 := hi
      rw [hmap, Layout.place_replicate elem.align_dvd_size (Int.dvd_zero _) hi', Int.zero_add]
      rfl
  | tuple ref comps =>
    obtain ⟨rfl, rfl⟩ := Prod.mk.inj (Option.some.inj hc)
    have hpow : ∀ m ∈ comps.map member, ∃ e : Nat, m.align = 2 ^ e := fun m hm => by
      obtain ⟨u, -, rfl⟩ := List.mem_map.mp hm
      exact u.member_align
    refine ⟨?_, fun u hu => ?_, hpacked, fun i _ => ?_⟩
    · rw [member, members_eq_map]
      rfl
    · rw [member, members_eq_map]
      exact (Layout.align_of_pow hpow).2 _ (List.mem_map_of_mem hu)
    · rw [memberOffset, members_eq_map]

/-- Padding only makes an object larger. -/
theorem packedSize_le {t : TypeTree} (hcounts : t.CountsOk) : t.packedSize ≤ t.member.size := by
  induction t using container_induction with
  | leaf t hleaf =>
    cases t with
    | scalar s => exact le_rfl
    | str k ref => exact le_rfl
    | coll | range | tuple => cases hleaf
  | container t ref ts hc ih =>
    obtain ⟨-, -, hcountsElems, -⟩ := datatype_container hcounts hc
    obtain ⟨hsize, -, hpacked, -⟩ := member_container hcounts hc
    have hfill := Layout.le_fill (fun u _ => u.align_pos) (fun u hu => ih u hu (hcountsElems u hu)) 0
    have hround := Layout.le_roundUp (Layout.fill (ts.map member) 0) t.align_pos
    rw [hsize, hpacked, packedSizes_eq_sum]
    omega

/-- Without padding inside, an object has its packed size if that is a multiple of its alignment. -/
theorem NoPadding.size_eq_iff {t : TypeTree} (h : t.NoPadding) (hcounts : t.CountsOk) :
    t.member.size = t.packedSize ↔ t.member.align ∣ t.packedSize := by
  refine ⟨fun heq => heq ▸ t.align_dvd_size, fun hdvd => ?_⟩
  induction h with
  | @leaf t hleaf =>
    cases t with
    | scalar s => rfl
    | str k ref => rfl
    | coll | range | tuple => cases hleaf
  | @container t ref ts hc helems htight hint ih =>
    obtain ⟨-, -, hcountsElems, -⟩ := datatype_container hcounts hc
    obtain ⟨hsize, halign, hpacked, -⟩ := member_container hcounts hc
    have hdense : ∀ u ∈ ts, u.member.size = u.packedSize ↔ u.member.align ∣ u.packedSize :=
      fun u hu => ⟨fun heq => heq ▸ u.align_dvd_size, ih u hu (hcountsElems u hu)⟩
    have hfill := Layout.fill_eq hdense htight fun u hu => by
      rw [Int.zero_add, ← packedSizes_eq_sum, ← hpacked]
      exact (halign u hu).trans hdvd
    rw [hsize, hfill, Int.zero_add, ← packedSizes_eq_sum, ← hpacked, Layout.roundUp_of_dvd hdvd]

/-- Without padding inside the elements, the members lie where they are read exactly if none is
needed between them. -/
theorem memberOffset_iff {t : TypeTree} {ref : Bool} {ts : List TypeTree} (hcounts : t.CountsOk)
    (hc : t.container = some (ref, ts)) (helems : ∀ u ∈ ts, u.NoPadding) :
    (∀ i < ts.length, t.memberOffset i = packedSizes (ts.take i)) ↔
      Layout.Tight member packedSize 0 ts := by
  obtain ⟨-, -, hcountsElems, -⟩ := datatype_container hcounts hc
  obtain ⟨-, -, -, hplace⟩ := member_container hcounts hc
  rw [← Layout.place_eq_iff (fun u _ => u.align_pos) (fun u hu => packedSize_le (hcountsElems u hu))
    (fun u hu => (helems u hu).size_eq_iff (hcountsElems u hu))]
  refine forall₂_congr fun i hi => ?_
  rw [hplace i hi, packedSizes_eq_sum, Int.zero_add]

theorem packedSizes_take (m : Memory) (ts : List TypeTree) (i : Nat) :
    packedSizes (ts.take i) = Packed.offset (ts.map (field m)) i := by
  rw [packedSizes_eq_span m, List.map_take]
  rfl

end TypeTree

/-! ## Offsets modulo 2^32 -/

/-- `adiak_get_subval` adds up what `calc_size` returns. -/
theorem prefixBytes_wrap {ts : List TypeTree} {i : Nat} {x b : Int}
    (h : prefixBytes (ts.map datatype) i (wrapInt x) = .ok (some b)) :
    b = wrapInt (x + packedSizes (ts.take i)) := by
  induction ts generalizing i x with
  | nil =>
    cases i with
    | zero =>
      obtain rfl := Option.some.inj (Except.ok.inj h)
      rw [List.take_nil, packedSizes, Int.add_zero]
    | succ i => cases h
  | cons t ts ih =>
    cases i with
    | zero =>
      obtain rfl := Option.some.inj (Except.ok.inj h)
      rw [List.take_zero, packedSizes, Int.add_zero]
    | succ i =>
      rw [List.map_cons, prefixBytes, calcSize_eq, ok_bind] at h
      split_ifs at h
      · cases h
      rw [wrapInt_wrapInt_add, wrapInt_add_wrapInt] at h
      rw [ih h, List.take_succ_cons, packedSizes, Int.add_assoc]

/-- The offset of an element of zero-copy data, if there is one. -/
theorem subvalOffset_wrap {t : TypeTree} {ts : List TypeTree} {ref : Bool}
    {subs : List AdiakDatatype} {n : Int}
    (hsubs : (t.dtype = .tuple ∧ subs = ts.map datatype) ∨
      (t.dtype ≠ .tuple ∧ ∃ n elem, ts = List.replicate n elem ∧ subs = [elem.datatype]))
    {i : Nat} (hi : i < ts.length) {b : Int} {sub : AdiakDatatype}
    (h : subvalOffset (containerNode t.dtype ref n) subs i = .ok (some (b, sub))) :
    b = wrapInt (packedSizes (ts.take i)) := by
  unfold subvalOffset at h
  have hdtype : (containerNode t.dtype ref n).dtype = t.dtype := rfl
  rw [hdtype] at h
  rcases hsubs with ⟨ht, rfl⟩ | ⟨ht, k, elem, rfl, rfl⟩
  · rw [if_pos ht] at h
    obtain ⟨r, hr, h⟩ := bind_eq_ok.mp h
    cases r with
    | none => cases h
    | some bytes =>
      obtain ⟨sub', -, h⟩ := bind_eq_ok.mp h
      obtain ⟨rfl, -⟩ := Prod.mk.inj (Option.some.inj (Except.ok.inj h))
      have hwrap := prefixBytes_wrap (x := 0) hr
      rwa [Int.zero_add] at hwrap
  · rw [if_neg ht] at h
    obtain ⟨sub', hsub, h⟩ := bind_eq_ok.mp h
    obtain rfl := Except.ok.inj hsub
    rw [calcSize_eq, ok_bind] at h
    dsimp only at h
    split_ifs at h
    · cases h
    obtain ⟨rfl, -⟩ := Prod.mk.inj (Option.some.inj (Except.ok.inj h))
    rw [List.length_replicate] at hi
    rw [packedSizes_eq_sum, List.take_replicate, Nat.min_eq_left (Nat.le_of_lt hi),
      List.map_replicate, List.sum_replicate, nsmul_eq_mul]
    unfold wrapInt
    exact Int.mul_bmod_bmod

theorem readOffset_copied (m : Memory) (d : AdiakType) (n : Int) (subs : List AdiakDatatype)
    (p : Addr) (i : Nat) : readOffset m (.node (containerNode d false n) subs) p i =
      (copyLoop (copyValues m subs) (d = .tuple) p i 0 0).map Prod.snd := by
  show (copyLoop (copyValues m subs) (d = .tuple) p i 0 0 >>= _) = _
  cases copyLoop (copyValues m subs) (d = .tuple) p i 0 0 <;> rfl

theorem readOffset_reference (m : Memory) (d : AdiakType) (n : Int) (subs : List AdiakDatatype)
    (p : Addr) (i : Nat) {b : Int} : readOffset m (.node (containerNode d true n) subs) p i = .ok b ↔
      ∃ sub, subvalOffset (containerNode d true n) subs i = .ok (some (b, sub)) := by
  show (subvalOffset (containerNode d true n) subs i >>= _) = _ ↔ _
  cases subvalOffset (containerNode d true n) subs i with
  | error e => simp
  | ok r =>
    cases r with
    | none => simp
    | some r => simp [Prod.ext_iff]

/-- The elements in front of one of a container, as the loop sees them. -/
theorem TypeTree.Indexes.take {γ : Type} {f : AdiakDatatype → γ} {l : List γ} {isTuple : Bool}
    {typeIndex : Nat} {us : List TypeTree} (h : Indexes f l isTuple typeIndex us) (i : Nat) :
    Indexes f l isTuple typeIndex (us.take i) := by
  intro j hj
  rw [List.getElem_take]
  exact h j (by rw [List.length_take] at hj; omega)

/-- Wherever the code reads an element, it is at the packed offset modulo 2^32. -/
theorem readOffset_wrap {m : Memory} {t : TypeTree} {ref : Bool} {ts : List TypeTree}
    (hcounts : t.CountsOk) (hc : t.container = some (ref, ts)) {p : Addr} {i : Nat}
    (hi : i < ts.length) {b : Int} (h : readOffset m t.datatype p i = .ok b) :
    b = wrapInt (packedSizes (ts.take i)) := by
  obtain ⟨-, -, hcountsElems, subs, hdatatype, hsubs⟩ := datatype_container hcounts hc
  rw [hdatatype] at h
  cases ref with
  | true =>
    obtain ⟨sub, hsub⟩ := (readOffset_reference _ _ _ _ _ _).mp h
    exact subvalOffset_wrap hsubs hi hsub
  | false =>
    rw [readOffset_copied] at h
    cases hloop : copyLoop (copyValues m subs) (decide (t.dtype = .tuple)) p i 0 0 with
    | error e => rw [hloop] at h; cases h
    | ok r =>
      rw [hloop] at h
      obtain rfl := Except.ok.inj h
      have hlen : (ts.take i).length = i := List.length_take_of_le (Nat.le_of_lt hi)
      rw [← hlen] at hloop
      obtain ⟨hwrap, -⟩ := (copyLoop_yields (x := 0) (fun u _ => copyValue_yields u)
        ((indexes_copyValues hsubs).take i)).ok hloop
      rwa [Int.zero_add, copySizes_eq fun u hu => hcountsElems u (List.mem_of_mem_take hu)] at hwrap

/-- In range, and if what stands in front can be read, it is the packed offset. -/
theorem readOffset_eq {m : Memory} {t : TypeTree} {ref : Bool} {ts : List TypeTree}
    (hcounts : t.CountsOk) (hc : t.container = some (ref, ts)) {p : Addr} {i : Nat}
    (hi : i < ts.length) (hsize : packedSizes (ts.take i) < 2 ^ 31)
    (hat : ref = false → ∃ cs, Packed.readAll (ts.map (field m)) p = .ok cs) :
    readOffset m t.datatype p i = .ok (packedSizes (ts.take i)) := by
  obtain ⟨-, -, hcountsElems, subs, hdatatype, hsubs⟩ := datatype_container hcounts hc
  rw [hdatatype]
  rw [packedSizes_take m] at hsize ⊢
  cases ref with
  | true =>
    exact (readOffset_reference _ _ _ _ _ _).mpr
      ⟨_, subvalOffset_eq true _ hcountsElems hsubs hi hsize⟩
  | false =>
    obtain ⟨cs, hcs⟩ := hat rfl
    have hlen : (ts.take i).length = i := List.length_take_of_le (Nat.le_of_lt hi)
    have hspan : Packed.span ((ts.take i).map (field m)) = Packed.offset (ts.map (field m)) i := by
      rw [List.map_take]
      rfl
    have hread : Packed.readAll ((ts.take i).map (field m)) (p + 0) = .ok (cs.take i) := by
      rw [List.map_take, Int.add_zero]
      exact Packed.readAll_take hcs i
    have hnonneg : ∀ f ∈ (ts.take i).map (field m), 0 ≤ f.size := fun f hf => by
      obtain ⟨u, hu, rfl⟩ := List.mem_map.mp hf
      exact packedSize_nonneg (hcountsElems u (List.mem_of_mem_take hu))
    obtain ⟨vs, hloop, -⟩ := copyLoop_eq (R := fun _ _ _ => True)
      (fun u hu => hcountsElems u (List.mem_of_mem_take hu))
      (fun u hu q d hd => by
        have hle : u.packedSize ≤ _ := Packed.size_le_span hnonneg (List.mem_map_of_mem hu)
        obtain ⟨v, hv⟩ := copyValue_size u (hcountsElems u (List.mem_of_mem_take hu)) (by omega) hd
        exact ⟨v, hv, trivial⟩)
      ((indexes_copyValues hsubs).take i) le_rfl (by omega) hread
    rw [hlen, hspan, Int.zero_add] at hloop
    rw [readOffset_copied, hloop]
    rfl

theorem readType_eq {t : TypeTree} {ref : Bool} {ts : List TypeTree} (hcounts : t.CountsOk)
    (hc : t.container = some (ref, ts)) {i : Nat} (hi : i < ts.length) :
    readType t.datatype i = .ok ts[i].datatype := by
  obtain ⟨-, -, -, subs, hdatatype, hsubs⟩ := datatype_container hcounts hc
  rw [hdatatype]
  exact subtypeAt_eq_ok (subtype_index hsubs hi)

/-! ## Types without padding -/

/-- Without padding, the members of an object lie where they are read. -/
theorem TypeTree.NoPadding.memberOffset_eq {t : TypeTree} {ref : Bool} {ts : List TypeTree}
    (h : t.NoPadding) (hcounts : t.CountsOk) (hc : t.container = some (ref, ts)) {i : Nat}
    (hi : i < ts.length) : t.memberOffset i = packedSizes (ts.take i) ∧
      packedSizes (ts.take i) < 2 ^ 31 ∧ ts[i].NoPadding := by
  cases h with
  | leaf hleaf => rw [hleaf] at hc; cases hc
  | container hc' helems htight hint =>
    obtain ⟨rfl, rfl⟩ := Prod.mk.inj (Option.some.inj (hc'.symm.trans hc))
    exact ⟨(memberOffset_iff hcounts hc helems).mpr htight i hi, hint i hi,
      helems _ (List.getElem_mem hi)⟩

/-- Without padding, an object is a packed buffer. -/
theorem ObjectAt.contentsAt {m : Memory} {t : TypeTree} {p : Addr} {c : Content}
    (h : ObjectAt m t p c) (hno : t.NoPadding) (hcounts : t.CountsOk) :
    t.contentsAt m p = .ok c := by
  induction h with
  | leaf hleaf hat => exact hat
  | @container t p ref ts cs hc hcs helems ih =>
    obtain ⟨-, -, hcountsElems, -⟩ := datatype_container hcounts hc
    have hread : Packed.readAll (ts.map (field m)) p = .ok cs := by
      refine Packed.readAll_eq_ok.mpr ⟨by rw [hcs, List.length_map], fun i hi hx => ?_⟩
      rw [List.length_map] at hi
      obtain ⟨hoffset, -, hnoElem⟩ := hno.memberOffset_eq hcounts hc hi
      rw [← packedSizes_take, ← hoffset, List.getElem_map]
      exact ih i hi hx hnoElem (hcountsElems _ (List.getElem_mem hi))
    rw [(packed_container m hcounts hc).2, hread]
    rfl

/-- Without padding, the code comes to every member. -/
theorem findsMembers_of_noPadding {t : TypeTree} {under : Bool} (hcounts : t.CountsOk)
    (href : t.RefClosed under) (hno : t.NoPadding) : FindsMembers t := by
  intro m p c hobject path u q hmember
  induction path generalizing t p c under with
  | nil =>
    obtain ⟨rfl, rfl⟩ := Prod.mk.inj (Option.some.inj hmember)
    rfl
  | cons i path ih =>
    have hat := hobject.contentsAt hno hcounts
    cases hobject with
    | leaf hleaf =>
      rw [memberAt, hleaf] at hmember
      cases hmember
    | @container _ _ ref ts cs hc hcs helems =>
      obtain ⟨-, -, hcountsElems, -⟩ := datatype_container hcounts hc
      rw [memberAt, hc] at hmember
      dsimp only at hmember
      by_cases hi : i < ts.length
      · rw [List.getElem?_eq_getElem hi] at hmember
        obtain ⟨hoffset, hint, hnoElem⟩ := hno.memberOffset_eq hcounts hc hi
        have hread : ∃ cs, Packed.readAll (ts.map (field m)) p = .ok cs := by
          rw [(packed_container m hcounts hc).2] at hat
          cases hread : Packed.readAll (ts.map (field m)) p with
          | error e => rw [hread] at hat; cases hat
          | ok cs => exact ⟨cs, rfl⟩
        rw [readAt, readOffset_eq hcounts hc hi hint fun _ => hread, ok_bind, readType_eq hcounts hc hi,
          ok_bind, ← hoffset]
        exact ih (hcountsElems _ (List.getElem_mem hi))
          ((href.container hc).2 _ (List.getElem_mem hi)) hnoElem _ _ (helems i hi (hcs ▸ hi)) hmember
      · rw [List.getElem?_eq_none (Nat.le_of_not_lt hi)] at hmember
        cases hmember

/-! ## Types with padding -/

/-- Memory full of zeros, in which every pointer is valid. -/
def Memory.zero : Memory where
  byte := fun _ => some 0
  cstr := fun _ => some []
  timeval := fun _ => some ⟨0, 0⟩

theorem load_zero (p : Addr) (w : Nat) : Memory.zero.load p w = .ok 0 := by
  induction w generalizing p with
  | zero => rfl
  | succ w ih =>
    show (Memory.zero.load (p + 1) w >>= _) = _
    rw [ih]
    rfl

theorem leafAt_zero (s : ScalarKind) (p : Addr) : ∃ x, s.leafAt Memory.zero p = .ok x := by
  cases s
  case timeval =>
    simp [ScalarKind.leafAt, Memory.loadAddr, load_zero, Memory.loadTimeval,
      show Memory.zero.timeval 0 = some ⟨0, 0⟩ from rfl]
  all_goals simp [ScalarKind.leafAt, Memory.loadSigned, load_zero]

theorem stringAt_zero (p : Addr) : stringAt Memory.zero p = .ok (.str []) := by
  simp [stringAt, Memory.loadAddr, load_zero, Memory.loadCstr,
    show Memory.zero.cstr 0 = some [] from rfl]

/-- Zeros are an object of any type. -/
theorem exists_objectAt (t : TypeTree) (p : Addr) : ∃ c, ObjectAt Memory.zero t p c := by
  induction t using container_induction generalizing p with
  | leaf t hleaf =>
    cases t with
    | scalar s =>
      obtain ⟨x, hx⟩ := leafAt_zero s p
      refine ⟨.leaf s.dtype x, .leaf rfl ?_⟩
      rw [contentsAt, hx]
      rfl
    | str k ref =>
      refine ⟨.leaf k.dtype (.str []), .leaf rfl ?_⟩
      rw [contentsAt, stringAt_zero]
      rfl
    | coll | range | tuple => cases hleaf
  | container t ref ts hc ih =>
    have helem : ∀ i : Fin ts.length, ∃ c, ObjectAt Memory.zero ts[i] (p + t.memberOffset i) c :=
      fun i => ih ts[i] (List.getElem_mem i.isLt) _
    choose f hf using helem
    refine ⟨_, .container hc (List.length_ofFn (f := f)) fun i hi hx => ?_⟩
    rw [List.getElem_ofFn]
    exact hf ⟨i, hi⟩

/-- A member lies where it is read modulo 2^32 only if it is read there. -/
theorem eq_of_wrapInt_eq {x y : Int} (h0 : 0 ≤ x) (hle : x ≤ y) (h : y = wrapInt x) :
    x < 2 ^ 31 ∧ y = x := by
  have hlt : wrapInt x < 2 ^ 31 := by
    unfold wrapInt
    have := @Int.bmod_lt x (2 ^ 32) (by decide)
    omega
  have hx : x < 2 ^ 31 := by omega
  rw [wrapInt_of_lt h0 hx] at h
  exact ⟨hx, h⟩

/-- If the code comes to every member in memory full of zeros, no padding is needed. -/
theorem noPadding_of_readAt {t : TypeTree} (hcounts : t.CountsOk)
    (h : ∀ p path u q, t.memberAt p path = some (u, q) →
      readAt Memory.zero t.datatype p path = .ok (u.datatype, q)) : t.NoPadding := by
  induction t using container_induction with
  | leaf t hleaf => exact .leaf hleaf
  | container t ref ts hc ih =>
    obtain ⟨-, -, hcountsElems, -⟩ := datatype_container hcounts hc
    have hmember : ∀ p i (hi : i < ts.length) path,
        t.memberAt p (i :: path) = ts[i].memberAt (p + t.memberOffset i) path := by
      intro p i hi path
      rw [memberAt, hc]
      dsimp only
      rw [List.getElem?_eq_getElem hi]
    have hread : ∀ p i (hi : i < ts.length), readOffset Memory.zero t.datatype p i =
        .ok (t.memberOffset i) := by
      intro p i hi
      have hread := h p [i] ts[i] (p + t.memberOffset i) (hmember p i hi [])
      obtain ⟨bytes, hbytes, hread⟩ := bind_eq_ok.mp hread
      rw [readType_eq hcounts hc hi, ok_bind] at hread
      have haddr : p + bytes = p + t.memberOffset i := (Prod.mk.inj (Except.ok.inj hread)).2
      rw [hbytes, Int.add_left_cancel haddr]
    have helems : ∀ u ∈ ts, u.NoPadding := by
      intro u hu
      obtain ⟨i, hi, rfl⟩ := List.getElem_of_mem hu
      refine ih _ hu (hcountsElems _ hu) fun p path u q hpath => ?_
      have hpath' := h (p - t.memberOffset i) (i :: path) u q (by
        rw [hmember _ i hi, Int.sub_add_cancel, hpath])
      rwa [readAt, hread _ i hi, ok_bind, readType_eq hcounts hc hi, ok_bind,
        Int.sub_add_cancel] at hpath'
    have hoffset : ∀ i < ts.length, packedSizes (ts.take i) < 2 ^ 31 ∧
        t.memberOffset i = packedSizes (ts.take i) := by
      intro i hi
      obtain ⟨-, -, -, hplace⟩ := member_container hcounts hc
      have hnonneg : 0 ≤ packedSizes (ts.take i) := by
        rw [packedSizes_eq_sum]
        refine List.sum_nonneg fun x hx => ?_
        obtain ⟨u, hu, rfl⟩ := List.mem_map.mp hx
        exact packedSize_nonneg (hcountsElems u (List.mem_of_mem_take hu))
      have hle := Layout.le_place (fun u _ => u.align_pos)
        (fun u hu => packedSize_le (hcountsElems u hu)) 0 hi
      rw [Int.zero_add, ← packedSizes_eq_sum, ← hplace i hi] at hle
      exact eq_of_wrapInt_eq hnonneg hle (readOffset_wrap hcounts hc hi (hread 0 i hi))
    exact .container hc helems
      ((memberOffset_iff hcounts hc helems).mp fun i hi => (hoffset i hi).2)
      fun i hi => (hoffset i hi).1

/-- Without padding, what is recorded for an object shows what the object holds. -/
theorem recorded_of_noPadding {m : Memory} {t : TypeTree} {under : Bool} {p : Addr} {c : Content}
    (hcounts : t.CountsOk) (href : t.RefClosed under) (hsize : t.packedSize < 2 ^ 31)
    (hno : t.NoPadding) (h : ObjectAt m t p c) :
    ∃ v, copyValue m t.datatype p = .ok (v, t.packedSize) ∧
      ∀ fuel, t.height < fuel → readTree m fuel t.datatype v = .ok c := by
  obtain ⟨v, hcopy, hv⟩ := copyValue_represents t hcounts href hsize p c (h.contentsAt hno hcounts)
  exact ⟨v, hcopy, fun fuel hfuel => hv.readTree hfuel⟩

/-- For every type of the grammar, the code comes to every member of the C object exactly if the type
needs no padding. What is recorded then shows what the object holds. -/
theorem findsMembers_iff (e : TypeExpr) (hcounts : (e.tree false).CountsOk) :
    (FindsMembers (e.tree false) ↔ (e.tree false).NoPadding) ∧
      (FindsMembers (e.tree false) → (e.tree false).packedSize < 2 ^ 31 → ∀ m p c,
        ObjectAt m (e.tree false) p c → ∃ v,
          copyValue m (e.tree false).datatype p = .ok (v, (e.tree false).packedSize) ∧
          ∀ fuel, (e.tree false).height < fuel →
            readTree m fuel (e.tree false).datatype v = .ok c) := by
  have hno : FindsMembers (e.tree false) → (e.tree false).NoPadding := fun h =>
    noPadding_of_readAt hcounts fun p path u q hmember => by
      obtain ⟨c, hc⟩ := exists_objectAt (e.tree false) p
      exact h _ p c hc path u q hmember
  exact ⟨⟨hno, findsMembers_of_noPadding hcounts (e.refClosed_tree false)⟩,
    fun h hsize m p c hobject =>
      recorded_of_noPadding hcounts (e.refClosed_tree false) hsize (hno h) hobject⟩

/-- `{(%lld,%s)}` with three elements. -/
theorem findsMembers_list : FindsMembers (TypeTree.coll .list false 3
    (.tuple false [.scalar .longlong, .str .string false])) := by
  refine (findsMembers_iff (.coll .none false .list 3 (.tuple .none false
    [.spec .none false .lld, .spec .comma false .string]))
    (by unfold CountsOk; decide)).1.mpr ?_
  have hpair : (TypeTree.tuple false [.scalar .longlong, .str .string false]).NoPadding := by
    refine .container rfl ?_ ?_ (by decide)
    · simp only [List.forall_mem_cons, List.not_mem_nil]
      exact ⟨.leaf rfl, .leaf rfl, fun _ h => h.elim⟩
    · exact ⟨by decide, fun _ => by decide, by decide, fun _ => by decide, trivial⟩
  refine .container rfl (fun u hu => (List.eq_of_mem_replicate hu) ▸ hpair) ?_ (by decide)
  exact ⟨by decide, fun _ => by decide, by decide, fun _ => by decide, by decide,
    fun _ => by decide, trivial⟩

/-- `(%d,%s,%p)`: the string lies at 8 and is read at 4. -/
theorem findsMembers_not_always :
    ¬ ∀ e : TypeExpr, (e.tree false).CountsOk → FindsMembers (e.tree false) := by
  intro h
  have hfinds := h (.tuple .none false [.spec .none false .d, .spec .comma false .string,
    .spec .comma false .path]) (by unfold CountsOk; decide)
  obtain ⟨c, hc⟩ := exists_objectAt (TypeTree.tuple false [.scalar .int, .str .string false,
    .str .path false]) 0
  have hread := hfinds Memory.zero 0 c hc [1] (.str .string false) 8 rfl
  have hread' : readAt Memory.zero (TypeTree.tuple false [.scalar .int, .str .string false,
    .str .path false]).datatype 0 [1] = .ok (baseString, 4) := rfl
  exact absurd (Prod.mk.inj (Except.ok.inj (hread'.symm.trans hread))).2 (by decide)

end Adiak
