import Adiak.Cpp.Counts
import Adiak.Store.History

/-!
# Reading C++ values back

Which values come back from what `adiak::value` records.

1. `CppType.Shows` compares what a reader sees with a C++ value: the leaves, cast to their C++ type,
   in iteration order.
2. `CppType.Uniform` is the condition: all container values at one node of the type have the same
   length, and no string has a NUL inside.
3. `reads_iff_uniform` is the induction over the type. All values that share a node are taken
   together, since the node holds the length of the last of them.
4. `value_roundtrip_iff` is the round trip through the store.
-/

namespace Adiak

/-! ## What comes back -/

/-- A leaf, cast to the C++ type. -/
def CppScalar.ofLeaf : CppScalar → Leaf → Option CppValue
  | .long, .long x | .longlong, .longlong x | .int, .int x | .short, .int x | .char, .int x =>
    some (.integer x)
  | .ulong, .long x | .date, .long x | .ulonglong, .longlong x => some (.integer (x % 2 ^ 64))
  | .uint, .int x | .ushort, .int x | .uchar, .int x => some (.integer (x % 2 ^ 32))
  | .double, .double x | .float, .double x => some (.floating x)
  | .charPtr, .str s | .string, .str s | .version, .str s | .path, .str s | .catstring, .str s
  | .jsonstring, .str s => some (.str s)
  | .timevalPtr, .timeval tv => some (.timeval tv)
  | _, _ => none

/-- No NUL inside a string. -/
def CppValue.NulFree : CppValue → Prop
  | .str s => nul ∉ s
  | _ => True

namespace CppType

mutual

/-- A content shows a C++ value: as many elements everywhere, and the same leaves in order. -/
def Shows : CppType → Content → CppValue → Prop
  | .scalar s, .leaf dtype l, v => dtype = s.dtype ∧ s.ofLeaf l = some v
  | .container c elem, .node dtype cs, .elems vs =>
    dtype = c.dtype ∧ List.Forall₂ (fun c v => Shows elem c v) cs vs
  | .tuple ts, .node dtype cs, .elems vs => dtype = .tuple ∧ ShowsSeq ts cs vs
  | _, _, _ => False

def ShowsSeq : List CppType → List Content → List CppValue → Prop
  | [], [], [] => True
  | t :: ts, c :: cs, v :: vs => Shows t c v ∧ ShowsSeq ts cs vs
  | _, _, _ => False

end

mutual

/-- All container values that share a node of the type have one length, which is an `int`, and the
strings have no NUL inside. -/
def Uniform : CppType → List CppValue → Prop
  | .scalar _, vs => ∀ v ∈ vs, v.NulFree
  | .other, _ => True
  | .container _ elem, vs =>
    (∃ n : Nat, (n : Int) < 2 ^ 31 ∧ ∀ v ∈ vs, v.elements.length = n) ∧
      Uniform elem (vs.flatMap CppValue.elements)
  | .tuple ts, vs => UniformSeq ts (vs.map CppValue.elements)

def UniformSeq : List CppType → List (List CppValue) → Prop
  | [], _ => True
  | t :: ts, rows => Uniform t (rows.filterMap List.head?) ∧ UniformSeq ts (rows.map List.tail)

end

mutual

/-- The depth of nesting. -/
def height : CppType → Nat
  | .scalar _ | .other => 0
  | .container _ elem => height elem + 1
  | .tuple ts => heights ts + 1

def heights : List CppType → Nat
  | [] => 0
  | t :: ts => max (height t) (heights ts)

end

end CppType

open CppType

/-! ## Leaves -/

theorem cStr_eq_self_iff (s : List Char) : cStr s = s ↔ nul ∉ s := by
  unfold cStr
  rw [List.takeWhile_eq_self_iff]
  constructor
  · intro h hmem
    simpa using h nul hmem
  · intro h c hc
    have hne : c ≠ nul := fun heq => h (heq ▸ hc)
    simpa using hne

theorem bmod_emod_eq {x : Int} {n : Nat} (h0 : 0 ≤ x) (h : x < n) : Int.bmod x n % n = x := by
  rw [Int.bmod_emod, Int.emod_eq_of_lt h0 h]

/-- A leaf comes back unless it is cut at a NUL. -/
theorem scalar_shows (m : Memory) {s : CppScalar} {v : CppValue} (h : s.HasValue v) :
    ∃ l, readLeaf m s.dtype ((CppType.scalar s).stored v) = .ok l ∧
      (s.ofLeaf l = some v ↔ v.NulFree) := by
  cases v with
  | integer x =>
    obtain ⟨k, hk, hx⟩ : ∃ k, s.integral = some k ∧ k.InRange x := by cases s <;> exact h
    have hiff : ∀ y : Int, y = x → (some (CppValue.integer y) = some (.integer x) ↔ True) := by
      rintro y rfl
      exact iff_of_true rfl trivial
    cases s <;> first
      | cases hk; done
      | (obtain rfl := Option.some.inj hk
         refine ⟨_, rfl, hiff _ ?_⟩
         first
           | rfl
           | exact bmod_emod_eq hx.1 hx.2
           | exact Int.emod_eq_of_lt hx.1 (lt_of_lt_of_le hx.2 (by decide)))
  | floating x =>
    cases x <;> cases s <;> first | exact ⟨_, rfl, iff_of_true rfl trivial⟩ | exact h.elim
  | str l =>
    have hiff : some (CppValue.str (cStr l)) = some (.str l) ↔ nul ∉ l := by
      rw [Option.some_inj, CppValue.str.injEq, cStr_eq_self_iff]
    cases s <;> first | exact ⟨_, rfl, hiff⟩ | exact h.elim
  | timeval tv => cases s <;> first | exact ⟨_, rfl, iff_of_true rfl trivial⟩ | exact h.elim
  | pointer p => cases s <;> exact h.elim
  | elems vs => cases s <;> exact h.elim

/-! ## Containers -/

/-- What a reader sees of a container that the library owns: the node says how many elements there
are to be. -/
theorem readTree_owned (m : Memory) (fuel : Nat) (info : TypeNode) (subtype : List AdiakDatatype)
    (xs : List AdiakValue) (subs : Nat → AdiakDatatype) (c : Content)
    (hbase : isBasetype info.dtype = false) (href : info.isReference = false)
    (hnum : info.numRefElements = 0) (hint : wrapInt info.numElements = info.numElements)
    (hsubs : ∀ i < xs.length, subtype[if info.dtype = .tuple then i else 0]? = some (subs i)) :
    readTree m (fuel + 1) (.node info subtype) (.vSubval xs) = .ok c ↔
      ∃ cs, c = .node info.dtype cs ∧ cs.length = info.numElements.toNat ∧ cs.length ≤ xs.length ∧
        ∀ i (hi : i < cs.length) (hx : i < xs.length),
          readTree m fuel (subs i) xs[i] = .ok cs[i] := by
  have hcount : adiakNumSubvals (.node info subtype) = .ok info.numElements := by
    rw [adiakNumSubvals, hnum, Int.add_zero, hint]
  -- an element in range is handed out if the array has it
  have hget : ∀ i : Nat, (i : Int) < info.numElements → ∀ sub x,
      adiakGetSubval m (.node info subtype) (.vSubval xs) i =
          .ok { ret := 0, subtype := sub, subval := x } ↔
        ∃ hx : i < xs.length, sub = subs i ∧ x = xs[i] := by
    intro i hi sub x
    unfold adiakGetSubval
    rw [if_neg (by omega)]
    simp only [if_pos href, if_neg (not_le.mpr hi), Int.toNat_natCast]
    by_cases hx : i < xs.length
    · rw [subtypeAt_eq_ok (hsubs i hx), ok_bind, List.getElem?_eq_getElem hx]
      simp [hx, eq_comm]
    · rw [List.getElem?_eq_none (not_lt.mp hx)]
      cases subtypeAt subtype (if info.dtype = .tuple then i else 0) <;> simp [hx]
  rw [readTree]
  show (if isBasetype info.dtype = true then _ else _) = _ ↔ _
  rw [if_neg (by rw [hbase]; exact Bool.false_ne_true), hcount, ok_bind, bind_eq_ok]
  constructor
  · rintro ⟨cs, hcs, h⟩
    obtain ⟨hlen, hsteps⟩ := readElems_eq_ok.mp hcs
    have hstep : ∀ i (hi : i < cs.length), ∃ hx : i < xs.length,
        readTree m fuel (subs i) xs[i] = .ok cs[i] := by
      intro i hi
      obtain ⟨sub, x, hstep, hread⟩ := hsteps i hi
      rw [Nat.zero_add] at hstep
      obtain ⟨hx, rfl, rfl⟩ := (hget i (by omega) sub x).mp hstep
      exact ⟨hx, hread⟩
    refine ⟨cs, (Except.ok.inj h).symm, hlen, ?_, fun i hi hx => (hstep i hi).2⟩
    by_contra hle
    obtain ⟨hx, -⟩ := hstep xs.length (by omega)
    exact absurd hx (Nat.lt_irrefl _)
  · rintro ⟨cs, rfl, hlen, hle, hread⟩
    refine ⟨cs, readElems_eq_ok.mpr ⟨hlen, fun i hi => ?_⟩, rfl⟩
    rw [Nat.zero_add]
    have hx : i < xs.length := by omega
    exact ⟨subs i, xs[i], (hget i (by omega) _ _).mpr ⟨hx, rfl, rfl⟩, hread i hi hx⟩

/-- A reader that descends far enough sees `v` in what was made for it. -/
def ReadsBack (m : Memory) (fuel : Nat) (t : CppType) (tree : TypeTree) (v : CppValue) : Prop :=
  ∃ c, readTree m fuel tree.datatype (t.stored v) = .ok c ∧ t.Shows c v

/-- A container comes back if its length is the one in the node and its elements come back. -/
theorem readsBack_container {m : Memory} {fuel : Nat} {c : CppContainer} {elem : CppType}
    {n : Int} (hint : wrapInt n = n) {tree : TypeTree} {es : List CppValue} :
    ReadsBack m (fuel + 1) (.container c elem) (.coll c.kind false n tree) (.elems es) ↔
      es.length = n.toNat ∧ ∀ e ∈ es, ReadsBack m fuel elem tree e := by
  have htuple : (containerNode c.kind.dtype false n).dtype ≠ .tuple := by
    cases c <;> (intro h; cases h)
  have hbase : isBasetype c.kind.dtype = false := by cases c <;> rfl
  have hread := fun d => readTree_owned m fuel (containerNode c.kind.dtype false n) [tree.datatype]
    (es.map fun e => elem.stored e) (fun _ => tree.datatype) d hbase rfl rfl hint
    fun i _ => by rw [if_neg htuple]; rfl
  unfold ReadsBack
  constructor
  · rintro ⟨d, hd, hshows⟩
    obtain ⟨cs, rfl, hlen, -, hsteps⟩ := (hread d).mp hd
    obtain ⟨hlen', hall⟩ := List.forall₂_iff_get.mp hshows.2
    refine ⟨hlen'.symm.trans hlen, fun e he => ?_⟩
    obtain ⟨i, hi, rfl⟩ := List.getElem_of_mem he
    have hstep := hsteps i (by omega) (by rwa [List.length_map])
    rw [List.getElem_map] at hstep
    exact ⟨_, hstep, hall i (by omega) hi⟩
  · rintro ⟨hlen, hback⟩
    have : Nonempty Content := ⟨.node .list []⟩
    choose! f hf using hback
    refine ⟨.node c.kind.dtype (es.map f), (hread _).mpr ⟨es.map f, rfl, ?_, ?_, ?_⟩, ?_⟩
    · rw [List.length_map]
      exact hlen
    · rw [List.length_map, List.length_map]
    · intro i hi hx
      rw [List.getElem_map, List.getElem_map]
      exact (hf _ (List.getElem_mem _)).1
    · refine ⟨dtype_kind c, List.forall₂_iff_get.mpr ⟨List.length_map _, fun i hi hx => ?_⟩⟩
      simp only [List.get_eq_getElem, List.getElem_map]
      exact (hf _ (List.getElem_mem _)).2

/-- The components of a tuple come back one by one. -/
def ReadsBackSeq (m : Memory) (fuel : Nat) : List CppType → List TypeTree → List CppValue → Prop
  | t :: ts, tree :: trees, v :: vs => ReadsBack m fuel t tree v ∧ ReadsBackSeq m fuel ts trees vs
  | _, _, _ => True

theorem hasTypes_length {ts : List CppType} {vs : List CppValue} (h : HasTypes ts vs) :
    vs.length = ts.length := by
  induction ts generalizing vs with
  | nil =>
    cases vs with
    | nil => rfl
    | cons v vs => cases h
  | cons t ts ih =>
    cases vs with
    | nil => cases h
    | cons v vs => rw [List.length_cons, ih h.2, List.length_cons]

theorem length_storedSeq {ts : List CppType} {vs : List CppValue} (h : vs.length = ts.length) :
    (storedSeq ts vs).length = ts.length := by
  induction ts generalizing vs with
  | nil => rfl
  | cons t ts ih =>
    cases vs with
    | nil => cases h
    | cons v vs => rw [storedSeq, List.length_cons, ih (Nat.succ.inj h), List.length_cons]

/-- Contents read one by one from the components of a tuple. -/
theorem readsBackSeq_iff {m : Memory} {fuel : Nat} {ts : List CppType} {trees : List TypeTree}
    {vs : List CppValue} (htrees : trees.length = ts.length) (hvs : vs.length = ts.length) :
    ReadsBackSeq m fuel ts trees vs ↔ ∃ cs : List Content, cs.length = ts.length ∧
      (∀ i (hi : i < cs.length) (hx : i < (storedSeq ts vs).length) (ht : i < trees.length),
        readTree m fuel trees[i].datatype (storedSeq ts vs)[i] = .ok cs[i]) ∧
      ShowsSeq ts cs vs := by
  induction ts generalizing trees vs with
  | nil =>
    obtain rfl := List.length_eq_zero_iff.mp htrees
    obtain rfl := List.length_eq_zero_iff.mp hvs
    exact iff_of_true trivial ⟨[], rfl, fun i hi => absurd hi (Nat.not_lt_zero i), trivial⟩
  | cons t ts ih =>
    cases trees with
    | nil => cases htrees
    | cons tree trees =>
      cases vs with
      | nil => cases hvs
      | cons v vs =>
        rw [ReadsBackSeq, ih (Nat.succ.inj htrees) (Nat.succ.inj hvs)]
        constructor
        · rintro ⟨⟨c, hread, hshows⟩, cs, hlen, hreads, hseq⟩
          refine ⟨c :: cs, congrArg Nat.succ hlen, fun i hi hx ht => ?_, hshows, hseq⟩
          cases i with
          | zero => exact hread
          | succ i =>
            exact hreads i (Nat.lt_of_succ_lt_succ hi) (Nat.lt_of_succ_lt_succ hx)
              (Nat.lt_of_succ_lt_succ ht)
        · rintro ⟨cs, hlen, hreads, hseq⟩
          cases cs with
          | nil => cases hlen
          | cons c cs =>
            refine ⟨⟨c, hreads 0 (Nat.succ_pos _) (Nat.succ_pos _) (Nat.succ_pos _), hseq.1⟩, cs,
              Nat.succ.inj hlen, fun i hi hx ht => ?_, hseq.2⟩
            exact hreads (i + 1) (Nat.succ_lt_succ hi) (Nat.succ_lt_succ hx) (Nat.succ_lt_succ ht)

/-- A tuple comes back if its components do. -/
theorem readsBack_tuple {m : Memory} {fuel : Nat} {ts : List CppType} {trees : List TypeTree}
    {vs : List CppValue} (harity : (ts.length : Int) < 2 ^ 31) (htrees : trees.length = ts.length)
    (hvs : vs.length = ts.length) :
    ReadsBack m (fuel + 1) (.tuple ts) (.tuple false trees) (.elems vs) ↔
      ReadsBackSeq m fuel ts trees vs := by
  have hlen := length_storedSeq hvs
  have hdtype : (containerNode .tuple false trees.length).dtype = .tuple := rfl
  have hnum : (containerNode .tuple false trees.length).numElements = trees.length := rfl
  have hsub : ∀ i (hi : i < trees.length),
      (TypeTree.datatypes trees)[i]? = some trees[i].datatype := by
    intro i hi
    rw [TypeTree.datatypes_eq_map, List.getElem?_map, List.getElem?_eq_getElem hi]
    rfl
  have hsubs : ∀ i < (storedSeq ts vs).length,
      (TypeTree.datatypes trees)[if (containerNode .tuple false trees.length).dtype = .tuple then i
        else 0]? = some ((TypeTree.datatypes trees)[i]?.getD .null) := by
    intro i hi
    rw [if_pos hdtype, hsub i (by omega), Option.getD_some]
  have hread := fun d => readTree_owned m fuel _ _ (storedSeq ts vs) _ d (congrArg isBasetype hdtype)
    rfl rfl (by rw [hnum, wrapInt_of_lt (by omega) (by omega)]) hsubs
  rw [readsBackSeq_iff htrees hvs]
  unfold ReadsBack
  constructor
  · rintro ⟨d, hd, hshows⟩
    obtain ⟨cs, rfl, hcs, -, hsteps⟩ := (hread d).mp hd
    rw [hnum, Int.toNat_natCast] at hcs
    refine ⟨cs, hcs.trans htrees, fun i hi hx ht => ?_, hshows.2⟩
    have hstep := hsteps i hi hx
    rwa [hsub i ht] at hstep
  · rintro ⟨cs, hcs, hsteps, hshows⟩
    refine ⟨.node .tuple cs, (hread _).mpr ⟨cs, rfl, by rw [hnum]; omega, by omega, ?_⟩, rfl, hshows⟩
    intro i hi hx
    have ht : i < trees.length := by omega
    rw [hsub i ht]
    exact hsteps i hi hx ht

/-! ## All values at a node -/

theorem wrapInt_lastLength (vs : List CppValue) : wrapInt (lastLength vs) = lastLength vs := by
  unfold lastLength
  cases vs.getLast? with
  | none => rfl
  | some v => exact Int.bmod_bmod

/-- The node holds the length of the last value, so all of them agree with it exactly if they have
one length, which is an `int`. -/
theorem forall_lastLength_iff {vs : List CppValue} :
    (∀ v ∈ vs, v.elements.length = (lastLength vs).toNat) ↔
      ∃ n : Nat, (n : Int) < 2 ^ 31 ∧ ∀ v ∈ vs, v.elements.length = n := by
  unfold lastLength
  cases hlast : vs.getLast? with
  | none =>
    obtain rfl := List.getLast?_eq_none_iff.mp hlast
    exact iff_of_true (fun v hv => by cases hv) ⟨0, by omega, fun v hv => by cases hv⟩
  | some w =>
    have hw : w ∈ vs := List.mem_of_getLast? hlast
    constructor
    · intro h
      refine ⟨w.elements.length, ?_, fun v hv => (h v hv).trans (h w hw).symm⟩
      have hwrap := h w hw
      have hle : wrapInt w.elements.length < 2 ^ 31 := by
        unfold wrapInt
        exact Int.bmod_lt (by omega)
      simp only at hwrap
      omega
    · rintro ⟨n, hn, h⟩ v hv
      simp only
      rw [h w hw, h v hv, wrapInt_of_lt (by omega) hn, Int.toNat_natCast]

theorem height_le_heights {t : CppType} {ts : List CppType} (h : t ∈ ts) :
    t.height ≤ CppType.heights ts := by
  induction ts with
  | nil => cases h
  | cons u ts ih =>
    rw [CppType.heights]
    rcases List.mem_cons.mp h with rfl | h
    · exact Nat.le_max_left _ _
    · exact (ih h).trans (Nat.le_max_right _ _)

/-- The rows of tuples, column by column. -/
theorem readsBackSeq_iff_uniformSeq (m : Memory) (fuel : Nat) {ts : List CppType}
    (hts : ∀ t ∈ ts, ∀ vs : List CppValue, (∀ v ∈ vs, HasType t v) →
      ((∀ v ∈ vs, ReadsBack m fuel t (t.tree vs) v) ↔ t.Uniform vs))
    {rows : List (List CppValue)} (hrows : ∀ row ∈ rows, HasTypes ts row) :
    (∀ row ∈ rows, ReadsBackSeq m fuel ts (trees ts rows) row) ↔ UniformSeq ts rows := by
  induction ts generalizing rows with
  | nil => exact iff_of_true (fun row _ => by cases row <;> trivial) trivial
  | cons t ts ih =>
    have hcons : ∀ row ∈ rows, ∃ v vs, row = v :: vs ∧ HasType t v ∧ HasTypes ts vs := by
      intro row hrow
      have htypes := hrows row hrow
      cases row with
      | nil => cases htypes
      | cons v vs => exact ⟨v, vs, rfl, htypes.1, htypes.2⟩
    have hheads : ∀ v ∈ rows.filterMap List.head?, HasType t v := by
      intro v hv
      obtain ⟨row, hrow, hhead⟩ := List.mem_filterMap.mp hv
      obtain ⟨u, us, rfl, hu, -⟩ := hcons row hrow
      obtain rfl := Option.some.inj hhead
      exact hu
    have htails : ∀ row ∈ rows.map List.tail, HasTypes ts row := by
      intro tail htail
      obtain ⟨row, hrow, rfl⟩ := List.mem_map.mp htail
      obtain ⟨u, us, rfl, -, hus⟩ := hcons row hrow
      exact hus
    rw [UniformSeq, trees, ← hts t List.mem_cons_self _ hheads,
      ← ih (fun u hu => hts u (List.mem_cons_of_mem t hu)) htails]
    constructor
    · intro h
      constructor
      · intro v hv
        obtain ⟨row, hrow, hhead⟩ := List.mem_filterMap.mp hv
        obtain ⟨u, us, rfl, -, -⟩ := hcons row hrow
        obtain rfl := Option.some.inj hhead
        exact (h _ hrow).1
      · intro tail htail
        obtain ⟨row, hrow, rfl⟩ := List.mem_map.mp htail
        obtain ⟨u, us, rfl, -, -⟩ := hcons row hrow
        exact (h _ hrow).2
    · rintro ⟨hfirst, hrest⟩ row hrow
      obtain ⟨u, us, rfl, -, -⟩ := hcons row hrow
      exact ⟨hfirst u (List.mem_filterMap.mpr ⟨_, hrow, rfl⟩),
        hrest us (List.mem_map.mpr ⟨_, hrow, rfl⟩)⟩

/-- All values that share a type come back exactly if they are uniform. -/
theorem reads_iff_uniform (m : Memory) {t : CppType} (ht : t.Supported) {vs : List CppValue}
    (hvs : ∀ v ∈ vs, HasType t v) {fuel : Nat} (hfuel : t.height < fuel) :
    (∀ v ∈ vs, ReadsBack m fuel t (t.tree vs) v) ↔ t.Uniform vs := by
  induction t generalizing vs fuel with
  | scalar s =>
    obtain ⟨fuel, rfl⟩ : ∃ k, fuel = k + 1 := ⟨fuel - 1, by omega⟩
    rw [Uniform]
    refine forall₂_congr fun v hv => ?_
    obtain ⟨l, hl, hshows⟩ := scalar_shows m (hvs v hv)
    have hdtype : s.tree.datatype.dtype = s.dtype := by cases s <;> rfl
    have hbase : isBasetype s.dtype = true := by cases s <;> rfl
    have hread : readTree m (fuel + 1) s.tree.datatype ((CppType.scalar s).stored v) =
        .ok (.leaf s.dtype l) := by
      rw [readTree, hdtype, if_pos hbase, hl]
      rfl
    rw [← hshows]
    constructor
    · rintro ⟨c, hc, hshow⟩
      obtain rfl := Except.ok.inj (hread.symm.trans hc)
      exact hshow.2
    · intro h
      exact ⟨_, hread, rfl, h⟩
  | other => cases ht
  | container c elem ih =>
    obtain ⟨fuel, rfl⟩ : ∃ k, fuel = k + 1 := ⟨fuel - 1, by omega⟩
    cases ht with
    | container _ helem =>
      have helems : ∀ v ∈ vs, ∃ es, v = .elems es ∧ ∀ e ∈ es, HasType elem e := by
        intro v hv
        have htype := hvs v hv
        cases v with
        | elems es => exact ⟨es, rfl, htype.2⟩
        | _ => cases htype
      have hflat : ∀ e ∈ vs.flatMap CppValue.elements, HasType elem e := by
        intro e he
        obtain ⟨v, hv, he⟩ := List.mem_flatMap.mp he
        obtain ⟨es, rfl, hes⟩ := helems v hv
        exact hes e he
      rw [Uniform, tree, ← ih helem hflat (Nat.lt_of_succ_lt_succ hfuel), ← forall_lastLength_iff]
      have hvalue : ∀ v ∈ vs, (ReadsBack m (fuel + 1) (.container c elem)
          (.coll c.kind false (lastLength vs) (elem.tree (vs.flatMap CppValue.elements))) v ↔
          v.elements.length = (lastLength vs).toNat ∧ ∀ e ∈ v.elements,
            ReadsBack m fuel elem (elem.tree (vs.flatMap CppValue.elements)) e) := by
        intro v hv
        obtain ⟨es, rfl, -⟩ := helems v hv
        exact readsBack_container (wrapInt_lastLength vs)
      constructor
      · intro h
        refine ⟨fun v hv => ((hvalue v hv).mp (h v hv)).1, fun e he => ?_⟩
        obtain ⟨v, hv, he⟩ := List.mem_flatMap.mp he
        exact ((hvalue v hv).mp (h v hv)).2 e he
      · rintro ⟨hlen, hback⟩ v hv
        exact (hvalue v hv).mpr ⟨hlen v hv,
          fun e he => hback e (List.mem_flatMap.mpr ⟨v, hv, he⟩)⟩
  | tuple ts ih =>
    obtain ⟨fuel, rfl⟩ : ∃ k, fuel = k + 1 := ⟨fuel - 1, by omega⟩
    cases ht with
    | tuple harity hts =>
      have helems : ∀ v ∈ vs, ∃ es, v = .elems es ∧ HasTypes ts es := by
        intro v hv
        have htype := hvs v hv
        cases v with
        | elems es => exact ⟨es, rfl, htype⟩
        | _ => cases htype
      have hrows : ∀ row ∈ vs.map CppValue.elements, HasTypes ts row := by
        intro row hrow
        obtain ⟨v, hv, rfl⟩ := List.mem_map.mp hrow
        obtain ⟨es, rfl, hes⟩ := helems v hv
        exact hes
      have hseq := readsBackSeq_iff_uniformSeq m fuel (fun t ht us hus =>
        ih t ht (hts t ht) hus ((height_le_heights ht).trans_lt (Nat.lt_of_succ_lt_succ hfuel))) hrows
      rw [Uniform, tree, ← hseq]
      have hvalue : ∀ v ∈ vs, (ReadsBack m (fuel + 1) (.tuple ts)
          (.tuple false (trees ts (vs.map CppValue.elements))) v ↔
          ReadsBackSeq m fuel ts (trees ts (vs.map CppValue.elements)) v.elements) := by
        intro v hv
        obtain ⟨es, rfl, hes⟩ := helems v hv
        exact readsBack_tuple harity (length_trees ts _) (hasTypes_length hes)
      constructor
      · intro h row hrow
        obtain ⟨v, hv, rfl⟩ := List.mem_map.mp hrow
        exact (hvalue v hv).mp (h v hv)
      · intro h v hv
        exact (hvalue v hv).mpr (h _ (List.mem_map_of_mem hv))

/-! ## Through the store -/

/-- A content shows what was passed. -/
def CppArg.Shows (t : CppType) (c : Content) : CppArg → Prop
  | .one v => t.Shows c v
  | .range a b => ∃ ca cb, c = .node .range [ca, cb] ∧ t.Shows ca a ∧ t.Shows cb b

/-- What is recorded for two objects shows them if both come back. -/
theorem readTree_range {m : Memory} {fuel : Nat} {t : CppType} {tree : TypeTree} {a b : CppValue} :
    (∃ c, readTree m (fuel + 1) (.node cppRangeNode [tree.datatype])
        (.vSubval [t.stored a, t.stored b]) = .ok c ∧ (CppArg.range a b).Shows t c) ↔
      ReadsBack m fuel t tree a ∧ ReadsBack m fuel t tree b := by
  have hread := fun d => readTree_owned m fuel cppRangeNode [tree.datatype]
    [t.stored a, t.stored b] (fun _ => tree.datatype) d rfl rfl rfl rfl fun _ _ => rfl
  constructor
  · rintro ⟨c, hc, ca, cb, rfl, ha, hb⟩
    obtain ⟨cs, hcs, -, -, hsteps⟩ := (hread _).mp hc
    obtain ⟨-, rfl⟩ := Content.node.inj hcs
    exact ⟨⟨ca, hsteps 0 (Nat.succ_pos _) (Nat.succ_pos _), ha⟩,
      ⟨cb, hsteps 1 (Nat.lt_succ_self _) (Nat.lt_succ_self _), hb⟩⟩
  · rintro ⟨⟨ca, hca, ha⟩, ⟨cb, hcb, hb⟩⟩
    refine ⟨.node .range [ca, cb], (hread _).mpr ⟨[ca, cb], rfl, rfl, le_rfl, fun i hi hx => ?_⟩,
      ca, cb, rfl, ha, hb⟩
    match i, hi with
    | 0, _ => exact hca
    | 1, _ => exact hcb

/-- What `adiak::value` records shows what it was passed exactly if that is uniform. -/
theorem valueArgs_shows_iff (m : Memory) {t : CppType} {arg : CppArg} (ht : t.Supported)
    (harg : ∀ v ∈ arg.values, HasType t v) :
    ∃ avalue datatype, valueArgs t arg = .ok (avalue, datatype) ∧
      ∀ fuel, t.height + 1 < fuel →
        ((∃ c, readTree m fuel datatype avalue = .ok c ∧ arg.Shows t c) ↔
          t.Uniform arg.values) := by
  cases arg with
  | one v =>
    have hv := harg v List.mem_cons_self
    refine ⟨_, _, valueArgs_one ht hv, fun fuel hfuel => ?_⟩
    have hiff := reads_iff_uniform m ht harg (Nat.lt_of_succ_lt hfuel)
    rw [← hiff]
    simp only [CppArg.values, List.forall_mem_singleton]
    rfl
  | range a b =>
    have ha := harg a List.mem_cons_self
    have hb := harg b (List.mem_cons_of_mem a List.mem_cons_self)
    refine ⟨_, _, valueArgs_range ht ha hb, fun fuel hfuel => ?_⟩
    obtain ⟨fuel, rfl⟩ : ∃ k, fuel = k + 1 := ⟨fuel - 1, by omega⟩
    have hiff := reads_iff_uniform m ht harg (Nat.lt_of_succ_lt_succ hfuel)
    rw [← hiff, readTree_range]
    simp [CppArg.values]

/-- After `adiak::value` the store holds what was recorded. -/
theorem value_eq_ok {s s' : AdiakState} {rs : List (Nat × Record)} (hs : Holds s rs)
    {name subcategory : List Char} {t : CppType} {arg : CppArg} {category : Int} {ret : Bool}
    {avalue : AdiakValue} {datatype : AdiakDatatype} (hcat : category ≠ adiakControl)
    (hargs : valueArgs t arg = .ok (avalue, datatype))
    (h : value s name t arg category subcategory = .ok (ret, s')) :
    ret = true ∧ adiakGetNameval s' (cStr name) =
      .ok (some ⟨category, some (cStr subcategory), avalue, datatype⟩) := by
  unfold value at h
  rw [hargs] at h
  obtain ⟨s₁, hraw, h⟩ := bind_eq_ok.mp h
  obtain ⟨rfl, rfl⟩ : true = ret ∧ s₁ = s' := by simpa using h
  exact ⟨rfl, adiakRawNamevalue_getNameval hs hcat hraw⟩

/-- A value comes back from the store exactly if, at every container of its type, all container
values have one length below 2^31, and its strings have no NUL inside. -/
theorem value_roundtrip_iff {minimumVersion : Int} {reportableRank : Bool} {calls : List Call}
    {s s' : AdiakState} (hrun : run (initialState minimumVersion reportableRank) calls = .ok s)
    (m : Memory) {t : CppType} {arg : CppArg} (ht : t.Supported)
    (harg : ∀ v ∈ arg.values, HasType t v) {name subcategory : List Char} {category : Int}
    {ret : Bool} (hcat : category ≠ adiakControl)
    (hvalue : value s name t arg category subcategory = .ok (ret, s')) :
    ret = true ∧ ∃ r, adiakGetNameval s' (cStr name) = .ok (some r) ∧
      ∀ fuel, t.height + 1 < fuel →
        ((∃ c, readTree m fuel r.dtype r.value = .ok c ∧ arg.Shows t c) ↔ t.Uniform arg.values) := by
  obtain ⟨rs, hs, -⟩ := (inv_run (inv_initialState minimumVersion reportableRank) hrun).store
  obtain ⟨avalue, datatype, hargs, hiff⟩ := valueArgs_shows_iff m ht harg
  obtain ⟨hret, hget⟩ := value_eq_ok hs hcat hargs hvalue
  exact ⟨hret, _, hget, hiff⟩

/-- A vector of tuples of an `int` and a string. -/
theorem value_roundtrip_vector : ∃ s' r c,
    value (initialState 1 true) ['v']
      (.container .vector (.tuple [.scalar .int, .scalar .string]))
      (.one (.elems [.elems [.integer 1, .str ['a']], .elems [.integer 2, .str []]])) 2 [] =
        .ok (true, s') ∧
    adiakGetNameval s' ['v'] = .ok (some r) ∧ readTree .empty 4 r.dtype r.value = .ok c ∧
    CppArg.Shows (.container .vector (.tuple [.scalar .int, .scalar .string])) c
      (.one (.elems [.elems [.integer 1, .str ['a']], .elems [.integer 2, .str []]])) := by
  have ht : (CppType.container .vector (.tuple [.scalar .int, .scalar .string])).Supported :=
    .container _ (.tuple (by show (2 : Int) < 2 ^ 31; decide) fun t ht => by
      simp only [List.mem_cons, List.not_mem_nil, or_false] at ht
      rcases ht with rfl | rfl
      · exact .scalar _
      · exact .scalar _)
  have hint : ∀ x : Int, -256 ^ 4 ≤ 2 * x ∧ 2 * x < 256 ^ 4 →
      CppScalar.HasValue .int (.integer x) := fun x hx => ⟨.int, rfl, hx⟩
  obtain ⟨⟨ret, s'⟩, hvalue⟩ := exists_of_isOk (x := value (initialState 1 true) ['v']
    (.container .vector (.tuple [.scalar .int, .scalar .string]))
    (.one (.elems [.elems [.integer 1, .str ['a']], .elems [.integer 2, .str []]])) 2 [])
    (by decide +kernel)
  have hrun : run (initialState 1 true) [] = .ok (initialState 1 true) := rfl
  obtain ⟨rfl, r, hget, hiff⟩ := value_roundtrip_iff hrun .empty ht (by
      simp only [CppArg.values, List.forall_mem_singleton]
      refine ⟨trivial, ?_⟩
      simp only [List.forall_mem_cons, List.not_mem_nil]
      exact ⟨⟨hint 1 (by decide), trivial, trivial⟩, ⟨hint 2 (by decide), trivial, trivial⟩,
        fun _ h => h.elim⟩) (by decide) hvalue
  obtain ⟨c, hread, hshows⟩ := (hiff 4 (by decide)).mpr (by
    simp [CppArg.values, Uniform, UniformSeq, CppValue.elements, CppValue.NulFree, nul])
  exact ⟨s', r, c, hvalue, hget, hread, hshows⟩

/-- A vector of the vectors `{1, 2}` and `{3}`: the node of the inner vectors holds `1`. -/
theorem value_roundtrip_not_always : ¬ ∀ (minimumVersion : Int) (reportableRank : Bool)
    (calls : List Call) (s s' : AdiakState) (m : Memory) (t : CppType) (arg : CppArg)
    (name subcategory : List Char) (category : Int) (ret : Bool),
    run (initialState minimumVersion reportableRank) calls = .ok s → t.Supported →
    (∀ v ∈ arg.values, HasType t v) → category ≠ adiakControl →
    value s name t arg category subcategory = .ok (ret, s') →
    ∃ r, adiakGetNameval s' (cStr name) = .ok (some r) ∧ ∀ fuel, t.height + 1 < fuel →
      ∃ c, readTree m fuel r.dtype r.value = .ok c ∧ arg.Shows t c := by
  intro h
  have ht : (CppType.container .vector (.container .vector (.scalar .int))).Supported :=
    .container _ (.container _ (.scalar _))
  have hint : ∀ x : Int, -256 ^ 4 ≤ 2 * x ∧ 2 * x < 256 ^ 4 →
      CppScalar.HasValue .int (.integer x) := fun x hx => ⟨.int, rfl, hx⟩
  have harg : ∀ v ∈ (CppArg.one (.elems [.elems [.integer 1, .integer 2],
      .elems [.integer 3]])).values,
      HasType (.container .vector (.container .vector (.scalar .int))) v := by
    simp only [CppArg.values, List.forall_mem_singleton]
    refine ⟨trivial, ?_⟩
    simp only [List.forall_mem_cons, List.not_mem_nil, HasType]
    exact ⟨⟨trivial, hint 1 (by decide), hint 2 (by decide), fun _ h => h.elim⟩,
      ⟨trivial, hint 3 (by decide), fun _ h => h.elim⟩, fun _ h => h.elim⟩
  obtain ⟨⟨ret, s'⟩, hvalue⟩ := exists_of_isOk (x := value (initialState 1 true) ['v']
    (.container .vector (.container .vector (.scalar .int)))
    (.one (.elems [.elems [.integer 1, .integer 2], .elems [.integer 3]])) 2 []) (by decide +kernel)
  obtain ⟨r, hget, hreads⟩ := h 1 true [] _ s' .empty _ _ ['v'] [] 2 ret rfl ht harg (by decide) hvalue
  obtain ⟨rs, hs, -⟩ := (inv_initialState 1 true).store
  obtain ⟨avalue, datatype, hargs, hiff⟩ := valueArgs_shows_iff .empty ht harg
  obtain ⟨-, hget'⟩ := value_eq_ok hs (by decide) hargs hvalue
  obtain rfl := Option.some.inj (Except.ok.inj (hget.symm.trans hget'))
  obtain ⟨-, ⟨n, -, hn⟩, -⟩ := (hiff 4 (by decide)).mp (hreads 4 (by decide))
  have h2 := hn (.elems [.integer 1, .integer 2]) (by simp [CppValue.elements, CppArg.values])
  have h1 := hn (.elems [.integer 3]) (by simp [CppValue.elements, CppArg.values])
  exact absurd (h2.trans h1.symm) (show ¬ 2 = 1 by decide)

end Adiak
