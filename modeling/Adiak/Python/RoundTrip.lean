import Adiak.Cpp.RoundTrip
import Adiak.Python.Readers

/-!
# Python values through the library

`value` and `get_nameval` of the Python module.

1. `PyKind` is an overload of `value` in `pyadiak.cpp`, by the C++ type of its elements.
   `PyKind.toAdiak` is what `adiak::value` gets for an object, after `to_adiak` of `types.cpp`.
2. `pyadiakValue` and `pyadiakGetNameval` go through the store.
3. A text that is cut at a NUL is a text (`isUtf8_cStr`), so that a `str` is decoded again.
4. `getNameval_pyadiakValue`: the object comes back, times cut to what Adiak records of them and strings
   to what stands before a NUL.

Which overload takes an object is left to the caller.
-/

namespace Adiak

/-! ## Recording -/

/-- The element types of the overloads of `value`. -/
inductive PyKind where
  | int
  | uint
  | double
  | str
  | timepoint
  | date
  | version
  | path
  | catStr
  | jsonStr
  deriving DecidableEq

/-- The C++ type that `adiak::value` is called with. -/
def PyKind.scalar : PyKind → CppScalar
  | .int => .int
  | .uint => .uint
  | .double => .double
  | .str => .string
  | .timepoint => .timevalPtr
  | .date => .date
  | .version => .version
  | .path => .path
  | .catStr => .catstring
  | .jsonStr => .jsonstring

instance (x : Int) : Decidable (Fits64 x) := by unfold Fits64; infer_instance

/-- The object as the overload's C++ value, after `to_adiak`; `none` if it is of another type. -/
def PyKind.toAdiak : PyKind → PyObject → Option CppValue
  | .int, .int x => if -2 ^ 31 ≤ x ∧ x < 2 ^ 31 then some (.integer x) else none
  | .uint, .int x => if 0 ≤ x ∧ x < 2 ^ 32 then some (.integer x) else none
  | .double, .float (.f64 bits) => some (.floating (.f64 bits))
  | .str, .str s => if IsUtf8 s then some (.str s) else none
  | .version, .version s | .path, .path s | .catStr, .catStr s
  | .jsonStr, .jsonStr s => some (.str s)
  | .timepoint, .timepoint ns =>
    let count := ns.tdiv 1000
    if Fits64 ns then some (.timeval ⟨count.tdiv 1000000, count.tmod 1000000⟩) else none
  | .date, .date ns =>
    -- the seconds go through an `unsigned long`
    if Fits64 ns then some (.integer (ns.tdiv (10 ^ 9) % 2 ^ 64)) else none
  | _, _ => none

/-- One object, or the objects of a `std::vector` or a `std::set` in iteration order. -/
inductive PyArg where
  | one (x : PyObject)
  | vector (xs : List PyObject)
  | set (xs : List PyObject)

def PyArg.elems : PyArg → List PyObject
  | .one x => [x]
  | .vector xs | .set xs => xs

/-- What `adiak::value` is called with. The order of a `std::set<Timepoint>` rests on fields that are
not set. -/
def PyArg.cpp (k : PyKind) : PyArg → Option (CppType × CppValue)
  | .one x => do
    let v ← k.toAdiak x
    some (.scalar k.scalar, v)
  | .vector xs => do
    let vs ← xs.mapM k.toAdiak
    some (.container .vector (.scalar k.scalar), .elems vs)
  | .set xs =>
    if k = .timepoint then none
    else do
      let vs ← xs.mapM k.toAdiak
      some (.container .set (.scalar k.scalar), .elems vs)

/-- `value`. -/
def pyadiakValue (s : AdiakState) (name : List Char) (k : PyKind) (arg : PyArg) (category : Int)
    (subcategory : List Char) : Except PyError (Bool × AdiakState) :=
  match arg.cpp k with
  | none => .error .undefined
  | some (t, v) => toPy (value s name t (.one v) category subcategory)

/-- `pyadiak_get_nameval`; the subcategory is a `const char *`, of which `py::cast` makes a `str` or
`None`. -/
def pyadiakGetNameval (py : PySets) (m : Memory) (s : AdiakState) (name : CStr) :
    Except PyError (AdiakDatatype × PyObject × Int × Option CStr) := do
  match ← toPy (adiakGetNameval s name) with
  | none => .error (.runtimeError "Failed to get value for name")
  | some r => do
    let x ← convertAdiakValueToPython py m r.dtype (.value r.value)
    let subcategory ← r.subcategory.mapM decode
    .ok (r.dtype, x, r.category, subcategory)

/-! ## What is recorded -/

/-- What is recorded of an object: whole microseconds of a time, whole seconds of a date, a string up to
a NUL. -/
def PyObject.recorded : PyObject → PyObject
  | .timepoint ns => .timepoint (ns.tdiv 1000 * 1000)
  | .date ns => .date (ns.tdiv (10 ^ 9) * 10 ^ 9)
  | .str s => .str (cStr s)
  | .version s => .version (cStr s)
  | .path s => .path (cStr s)
  | .catStr s => .catStr (cStr s)
  | .jsonStr s => .jsonStr (cStr s)
  | x => x

/-- What is recorded of an argument. -/
def PyArg.recorded (py : PySets) : PyArg → Except PyError PyObject
  | .one x => .ok x.recorded
  | .vector xs => .ok (.list (xs.map PyObject.recorded))
  | .set xs => py.container .set (xs.map fun x => .ok x.recorded)

/-! ## Texts -/

/-- No byte of a character is zero, except for NUL. -/
theorem zero_not_mem_utf8EncodeChar {c : Char} (hc : c ≠ nul) : 0 ∉ String.utf8EncodeChar c := by
  have hval : c.val.toNat ≠ 0 := fun h => hc (Char.ext (UInt32.toNat_inj.mp h))
  have hofNat : ∀ {n : Nat}, n % 256 ≠ 0 → (0 : UInt8) ≠ UInt8.ofNat n := by
    intro n hn h
    apply hn
    rw [← UInt8.toNat_ofNat', ← h]
    rfl
  unfold String.utf8EncodeChar
  simp only
  split_ifs <;>
    simp only [List.mem_cons, List.not_mem_nil, or_false, not_or]
  · exact hofNat (by omega)
  · exact ⟨hofNat (by omega), hofNat (by omega)⟩
  · exact ⟨hofNat (by omega), hofNat (by omega), hofNat (by omega)⟩
  · exact ⟨hofNat (by omega), hofNat (by omega), hofNat (by omega), hofNat (by omega)⟩

/-- What stands before a zero byte of a text is a text. -/
theorem exists_text_before {m : List Char} {p q : List UInt8}
    (h : m.flatMap String.utf8EncodeChar = p ++ 0 :: q) :
    ∃ m' : List Char, m'.flatMap String.utf8EncodeChar = p := by
  induction m generalizing p with
  | nil => exact absurd h.symm (by simp)
  | cons c m ih =>
    rw [List.flatMap_cons] at h
    by_cases hc : c = nul
    · subst hc
      cases p with
      | nil => exact ⟨[], rfl⟩
      | cons b p =>
        obtain ⟨rfl, htail⟩ := List.cons.inj h
        obtain ⟨m', rfl⟩ := ih htail
        exact ⟨nul :: m', rfl⟩
    · -- the zero byte is not in `c`, so `c` lies before it
      obtain ⟨rest, rfl, hrest⟩ | ⟨rest, hchar, hrest⟩ := List.append_eq_append_iff.mp h
      · obtain ⟨m', rfl⟩ := ih hrest
        exact ⟨c :: m', List.flatMap_cons⟩
      · cases rest with
        | nil => exact ⟨[c], by rw [List.flatMap_singleton, hchar, List.append_nil]⟩
        | cons b rest =>
          obtain ⟨rfl, -⟩ := List.cons.inj hrest
          refine absurd ?_ (zero_not_mem_utf8EncodeChar hc)
          rw [hchar]
          exact List.mem_append_right _ List.mem_cons_self

/-- Cutting a text at a NUL leaves a text. -/
theorem isUtf8_cStr {s : CStr} (h : IsUtf8 s) : IsUtf8 (cStr s) := by
  obtain ⟨m, hm⟩ := h
  have hsplit := List.takeWhile_append_dropWhile (p := (· ≠ nul)) (l := s)
  cases hrest : s.dropWhile (· ≠ nul) with
  | nil =>
    rw [hrest, List.append_nil] at hsplit
    exact ⟨m, by rwa [cStr, hsplit]⟩
  | cons c rest =>
    have hc : c = nul := by
      have hhead := List.head?_dropWhile_not (· ≠ nul) s
      rw [hrest] at hhead
      simpa using hhead
    have hbytes : m.flatMap String.utf8EncodeChar =
        (cStr s).map Char.toUInt8 ++ 0 :: rest.map Char.toUInt8 := by
      rw [hrest, hc] at hsplit
      rw [← List.toByteArray_inj.mp hm]
      exact (congrArg (List.map Char.toUInt8) hsplit).symm.trans List.map_append
    obtain ⟨m', hm'⟩ := exists_text_before hbytes
    exact ⟨m', by rw [← hm']; rfl⟩

/-! ## Times -/

/-- Cutting towards zero, and multiplying again. -/
theorem tdiv_between (x : Int) {n : Int} (hn : 0 < n) :
    (0 ≤ x → 0 ≤ x.tdiv n ∧ x.tdiv n ≤ x ∧ 0 ≤ x.tdiv n * n ∧ x.tdiv n * n ≤ x) ∧
      (x ≤ 0 → x.tdiv n ≤ 0 ∧ x ≤ x.tdiv n ∧ x.tdiv n * n ≤ 0 ∧ x ≤ x.tdiv n * n) := by
  have hpos : ∀ y : Int, 0 ≤ y → 0 ≤ y.tdiv n ∧ y.tdiv n ≤ y ∧ 0 ≤ y.tdiv n * n ∧ y.tdiv n * n ≤ y := by
    intro y hy
    rw [Int.tdiv_eq_ediv_of_nonneg hy]
    have hdiv := Int.ediv_nonneg hy hn.le
    exact ⟨hdiv, Int.ediv_le_self n hy, Int.mul_nonneg hdiv hn.le, Int.ediv_mul_le y hn.ne'⟩
  refine ⟨hpos x, fun hx => ?_⟩
  have h := hpos (-x) (by omega)
  rw [Int.neg_tdiv, Int.neg_mul] at h
  omega

theorem Fits64.tdiv {x : Int} (h : Fits64 x) {n : Int} (hn : 0 < n) :
    Fits64 (x.tdiv n) ∧ Fits64 (x.tdiv n * n) := by
  have hbetween := tdiv_between x hn
  unfold Fits64 at h ⊢
  omega

theorem toPy_eq_ok {α : Type} {x : Except Stop α} {a : α} : toPy x = .ok a ↔ x = .ok a := by
  cases x with
  | error e => exact iff_of_false (fun h => by cases h) fun h => by cases h
  | ok b => exact ⟨fun h => congrArg _ (Except.ok.inj h), fun h => congrArg _ (Except.ok.inj h)⟩

theorem int64_of_fits {x : Int} (h : Fits64 x) : int64 x = .ok x := int64_eq_ok.mpr ⟨h, rfl⟩

/-- A point in time goes through a `struct timeval`. -/
theorem convert_timepoint (py : PySets) (m : Memory) {ns : Int} (h : Fits64 ns) :
    convertAdiakValueToPython py m baseTimeval (.value (.vPtr (.timeval
      ⟨(ns.tdiv 1000).tdiv 1000000, (ns.tdiv 1000).tmod 1000000⟩))) =
      .ok (.timepoint (ns.tdiv 1000 * 1000)) := by
  obtain ⟨hcount, hns⟩ := h.tdiv (n := 1000) (by decide)
  have hsec := (hcount.tdiv (n := 1000000) (by decide)).2
  have hsum := Int.tdiv_mul_add_tmod (ns.tdiv 1000) 1000000
  show (int64 _ >>= _) = _
  rw [int64_of_fits hsec, ok_bind, hsum, int64_of_fits hcount, ok_bind, int64_of_fits hns]
  rfl

/-- A date goes through an `unsigned long`. -/
theorem convert_date (py : PySets) (m : Memory) {ns : Int} (h : Fits64 ns) :
    convertAdiakValueToPython py m baseDate
      (.value (.vLong (Int.bmod (ns.tdiv (10 ^ 9) % 2 ^ 64) (2 ^ 64)))) =
      .ok (.date (ns.tdiv (10 ^ 9) * 10 ^ 9)) := by
  obtain ⟨hcount, hns⟩ := h.tdiv (n := 10 ^ 9) (by decide)
  have hbmod : Int.bmod (ns.tdiv (10 ^ 9) % 2 ^ 64) (2 ^ 64) = ns.tdiv (10 ^ 9) := by
    have hemod := Int.emod_bmod (x := ns.tdiv (10 ^ 9)) (n := 2 ^ 64)
    unfold Fits64 at hcount
    exact hemod.trans (Int.bmod_eq_of_le (by omega) (by omega))
  rw [hbmod]
  show (int64 _ >>= _) = _
  rw [int64_of_fits hns]
  rfl

/-- An object that an overload takes has a value of its C++ type, from which the reader makes it again. -/
theorem toAdiak_some {k : PyKind} {x : PyObject} {v : CppValue} (h : k.toAdiak x = some v)
    (py : PySets) (m : Memory) :
    k.scalar.HasValue v ∧ convertAdiakValueToPython py m k.scalar.tree.datatype
      (.value ((CppType.scalar k.scalar).stored v)) = .ok x.recorded := by
  cases x with
  | int x =>
    cases k with
    | int =>
      obtain ⟨hx, h⟩ := Option.ite_none_right_eq_some.mp h
      obtain rfl := Option.some.inj h
      refine ⟨⟨.int, rfl, ?_⟩, rfl⟩
      show -256 ^ 4 ≤ 2 * x ∧ 2 * x < 256 ^ 4
      omega
    | uint =>
      obtain ⟨hx, h⟩ := Option.ite_none_right_eq_some.mp h
      obtain rfl := Option.some.inj h
      have hmod : wrapInt x % 2 ^ 32 = x := bmod_emod_eq hx.1 hx.2
      refine ⟨⟨.uint, rfl, ?_⟩, congrArg (fun y => Except.ok (PyObject.int y)) hmod⟩
      show 0 ≤ x ∧ x < 256 ^ 4
      omega
    | _ => cases h
  | float x =>
    cases x with
    | f64 bits =>
      cases k with
      | double =>
        obtain rfl := Option.some.inj h
        exact ⟨trivial, rfl⟩
      | _ => cases h
    | ofFloat bits => cases k <;> cases h
  | timepoint ns =>
    cases k with
    | timepoint =>
      obtain ⟨hns, h⟩ := Option.ite_none_right_eq_some.mp h
      obtain rfl := Option.some.inj h
      exact ⟨trivial, convert_timepoint py m hns⟩
    | _ => cases h
  | date ns =>
    cases k with
    | date =>
      obtain ⟨hns, h⟩ := Option.ite_none_right_eq_some.mp h
      obtain rfl := Option.some.inj h
      refine ⟨⟨.ulong, rfl, ?_⟩, convert_date py m hns⟩
      show 0 ≤ _ % 2 ^ 64 ∧ _ % 2 ^ 64 < 256 ^ 8
      omega
    | _ => cases h
  | str s =>
    cases k with
    | str =>
      obtain ⟨hs, h⟩ := Option.ite_none_right_eq_some.mp h
      obtain rfl := Option.some.inj h
      refine ⟨trivial, ?_⟩
      show (decode (cStr s) >>= _) = _
      rw [decode_of_utf8 (isUtf8_cStr hs)]
      rfl
    | _ => cases h
  | version s | path s | catStr s | jsonStr s =>
    cases k <;> first
      | (cases h; done)
      | (obtain rfl := Option.some.inj h
         exact ⟨trivial, rfl⟩)
  | set xs | list xs | tuple xs => cases k <;> cases h

/-! ## Containers -/

/-- A collection that the library owns is converted value by value. -/
theorem convert_owned (py : PySets) (m : Memory) (k : CollKind) (elem : TypeTree)
    (vs : List AdiakValue) :
    convertAdiakValueToPython py m (TypeTree.coll k false vs.length elem).datatype
        (.value (.vSubval vs)) =
      py.container k.dtype (vs.map fun v => convertAdiakValueToPython py m elem.datatype (.value v)) := by
  have hlen : (List.replicate (vs.length : Int).toNat elem).length = vs.length := by
    rw [List.length_replicate, Int.toNat_natCast]
  have hdtype : k.dtype ≠ .tuple := by cases k <;> decide
  have hrange : (TypeTree.coll k false vs.length elem).dtype ≠ .range := by
    cases k <;> (intro h; cases h)
  have hdatatype : (TypeTree.coll k false vs.length elem).datatype = .node (containerNode k.dtype false
      (List.replicate (vs.length : Int).toNat elem).length) [elem.datatype] := by rw [hlen]; rfl
  rw [convert_container (t := .coll k false vs.length elem) py m rfl hrange
    (.inr ⟨hdtype, _, _, rfl, rfl⟩) hdatatype]
  congr 1
  refine List.ext_getElem (by rw [List.length_map, List.length_range, List.length_map, hlen])
    fun i hi hx => ?_
  rw [List.length_map] at hx
  have hindex : (if (TypeTree.coll k false vs.length elem).dtype = .tuple then i else 0) = 0 :=
    if_neg hdtype
  have helem : (convertersAt py m [elem.datatype])[0]? =
      some (convertAdiakValueToPython py m elem.datatype) := rfl
  rw [List.getElem_map, List.getElem_map, List.getElem_range, hindex]
  unfold convertElem
  rw [helem]
  simp only [Slot.vSubval, List.getElem?_eq_getElem hx, ok_bind]

theorem mapM_some {α β : Type} {f : α → Option β} {l : List α} {l' : List β}
    (h : l.mapM f = some l') : List.Forall₂ (fun a b => f a = some b) l l' := by
  induction l generalizing l' with
  | nil =>
    obtain rfl := Option.some.inj h
    exact .nil
  | cons a l ih =>
    rw [List.mapM_cons] at h
    obtain ⟨b, hb, h⟩ := Option.bind_eq_some_iff.mp h
    obtain ⟨bs, hbs, h⟩ := Option.bind_eq_some_iff.mp h
    obtain rfl := Option.some.inj h
    exact .cons hb (ih hbs)

/-- The objects of a collection. -/
theorem toAdiak_elems {k : PyKind} {xs : List PyObject} {vs : List CppValue}
    (h : xs.mapM k.toAdiak = some vs) (py : PySets) (m : Memory) :
    (∀ v ∈ vs, k.scalar.HasValue v) ∧
      (vs.map fun v => convertAdiakValueToPython py m k.scalar.tree.datatype
        (.value ((CppType.scalar k.scalar).stored v))) = xs.map fun x => .ok x.recorded := by
  have hall := mapM_some h
  clear h
  induction hall with
  | nil => exact ⟨fun v hv => absurd hv List.not_mem_nil, rfl⟩
  | cons hx _ ih =>
    obtain ⟨hvalue, hconvert⟩ := toAdiak_some hx py m
    rw [List.map_cons, List.map_cons, hconvert, ih.2]
    exact ⟨List.forall_mem_cons.mpr ⟨hvalue, ih.1⟩, rfl⟩

/-- A collection of objects. -/
theorem convert_collection {k : PyKind} {xs : List PyObject} {vs : List CppValue}
    (h : xs.mapM k.toAdiak = some vs) (hlen : (xs.length : Int) < 2 ^ 31) (c : CppContainer)
    (hc : c.HasLength vs.length) (py : PySets) (m : Memory) :
    HasType (.container c (.scalar k.scalar)) (.elems vs) ∧
      convertAdiakValueToPython py m
        ((CppType.container c (.scalar k.scalar)).tree [.elems vs]).datatype
        (.value ((CppType.container c (.scalar k.scalar)).stored (.elems vs))) =
      py.container c.kind.dtype (xs.map fun x => .ok x.recorded) := by
  obtain ⟨hvalues, hconvert⟩ := toAdiak_elems h py m
  have hvs : vs.length = xs.length := (mapM_some h).length_eq.symm
  have hcount : lastLength [.elems vs] =
      (vs.map fun v => (CppType.scalar k.scalar).stored v).length := by
    show wrapInt vs.length = _
    rw [List.length_map, wrapInt_of_lt (by omega) (by omega)]
  refine ⟨⟨hc, hvalues⟩, ?_⟩
  rw [CppType.tree, hcount, CppType.stored]
  refine (convert_owned py m c.kind k.scalar.tree _).trans ?_
  rw [← hconvert, List.map_map]
  rfl

/-- What the overloads record. -/
theorem cpp_some {k : PyKind} {arg : PyArg} {t : CppType} {v : CppValue} (h : arg.cpp k = some (t, v))
    (hlen : (arg.elems.length : Int) < 2 ^ 31) (py : PySets) (m : Memory) :
    t.Supported ∧ HasType t v ∧ convertAdiakValueToPython py m (t.tree [v]).datatype
      (.value (t.stored v)) = arg.recorded py := by
  cases arg with
  | one x =>
    obtain ⟨w, hw, h⟩ := Option.bind_eq_some_iff.mp h
    obtain ⟨rfl, rfl⟩ := Prod.mk.inj (Option.some.inj h)
    obtain ⟨hvalue, hconvert⟩ := toAdiak_some hw py m
    exact ⟨.scalar _, hvalue, hconvert⟩
  | vector xs =>
    obtain ⟨vs, hvs, h⟩ := Option.bind_eq_some_iff.mp h
    obtain ⟨rfl, rfl⟩ := Prod.mk.inj (Option.some.inj h)
    obtain ⟨htype, hconvert⟩ := convert_collection hvs hlen .vector trivial py m
    refine ⟨.container _ (.scalar _), htype, hconvert.trans ?_⟩
    have hmap : (xs.map fun x => Except.ok (ε := PyError) x.recorded) =
        (xs.map PyObject.recorded).map .ok := by rw [List.map_map]; rfl
    rw [hmap]
    unfold PySets.container
    simp only [CppContainer.kind, CollKind.dtype, gather_pushBack_eq_ok.mpr ⟨_, rfl, rfl⟩, ok_bind]
    rfl
  | set xs =>
    unfold PyArg.cpp at h
    simp only at h
    split_ifs at h with hk
    obtain ⟨vs, hvs, h⟩ := Option.bind_eq_some_iff.mp h
    obtain ⟨rfl, rfl⟩ := Prod.mk.inj (Option.some.inj h)
    obtain ⟨htype, hconvert⟩ := convert_collection hvs hlen .set trivial py m
    exact ⟨.container _ (.scalar _), htype, hconvert⟩

/-! ## Through the store -/

/-- An object that an overload of `value` takes is what `get_nameval` gives back, after any run, up to
what is not recorded of times and strings. A set comes back as far as Python can compare what is in it. -/
theorem getNameval_pyadiakValue {minimumVersion : Int} {reportableRank : Bool} {calls : List Call}
    {s s' : AdiakState} (hrun : run (initialState minimumVersion reportableRank) calls = .ok s)
    {k : PyKind} {arg : PyArg} (hlen : (arg.elems.length : Int) < 2 ^ 31)
    {name subcategory : List Char} {category : Int} {ret : Bool} (hcat : category ≠ adiakControl)
    (hsub : IsUtf8 subcategory) (hvalue : pyadiakValue s name k arg category subcategory = .ok (ret, s')) (py : PySets)
    (m : Memory) :
    ret = true ∧ ∃ t, pyadiakGetNameval py m s' (cStr name) =
      (arg.recorded py).map fun x => (t, x, category, some (cStr subcategory)) := by
  obtain ⟨rs, hs, -⟩ := (inv_run (inv_initialState minimumVersion reportableRank) hrun).store
  unfold pyadiakValue at hvalue
  cases hcpp : arg.cpp k with
  | none => rw [hcpp] at hvalue; cases hvalue
  | some r =>
    obtain ⟨t, v⟩ := r
    obtain ⟨ht, hv, hconvert⟩ := cpp_some hcpp hlen py m
    rw [hcpp] at hvalue
    obtain ⟨rfl, hget⟩ := value_eq_ok hs hcat (valueArgs_one ht hv) (toPy_eq_ok.mp hvalue)
    refine ⟨rfl, (t.tree [v]).datatype, ?_⟩
    unfold pyadiakGetNameval
    rw [hget]
    show (convertAdiakValueToPython py m _ _ >>= fun x =>
      (decode (cStr subcategory) >>= fun a => pure (some a)) >>= _) = _
    rw [hconvert, decode_of_utf8 (isUtf8_cStr hsub)]
    cases arg.recorded py <;> rfl

/-- Sets of objects of a class without `<`. -/
def PySets.unordered : PySets where
  insert := fun vals x => if vals.isEmpty then .ok [x] else .error .python
  cast := fun vals => .ok (.set vals)

/-- A list of two dates, 1.5 s before and 2.5 s after the epoch, and a set of two versions, which are not
compared. -/
theorem getNameval_pyadiakValue_elems :
    (∃ s' t, pyadiakValue (initialState 1 true) ['d'] .date
        (.vector [.date (-1500000000), .date 2500000000]) 2 [] = .ok (true, s') ∧
      pyadiakGetNameval .plain .empty s' ['d'] =
        .ok (t, .list [.date (-1000000000), .date 2000000000], 2, some [])) ∧
    ∃ s', pyadiakValue (initialState 1 true) ['v'] .version
        (.set [.version ['1'], .version ['2']]) 2 [] = .ok (true, s') ∧
      pyadiakGetNameval .unordered .empty s' ['v'] = .error .python := by
  have hrun : run (initialState 1 true) [] = .ok (initialState 1 true) := rfl
  have hsub : IsUtf8 [] := by decide
  constructor
  · obtain ⟨⟨ret, s'⟩, hvalue⟩ := exists_of_isOk (x := pyadiakValue (initialState 1 true) ['d'] .date
      (.vector [.date (-1500000000), .date 2500000000]) 2 []) (by decide +kernel)
    obtain ⟨rfl, t, hget⟩ := getNameval_pyadiakValue hrun (by decide) (by decide) hsub hvalue .plain .empty
    exact ⟨s', t, hvalue, hget⟩
  · obtain ⟨⟨ret, s'⟩, hvalue⟩ := exists_of_isOk (x := pyadiakValue (initialState 1 true) ['v'] .version
      (.set [.version ['1'], .version ['2']]) 2 []) (by decide +kernel)
    obtain ⟨rfl, t, hget⟩ :=
      getNameval_pyadiakValue hrun (by decide) (by decide) hsub hvalue .unordered .empty
    exact ⟨s', hvalue, hget⟩

end Adiak
