import Adiak.Store.History
import Adiak.Typestring.Refusal
import Adiak.Typestring.Toplevel
import Adiak.Values.Copied
import Adiak.Values.Recorded
import Adiak.Values.References

/-!
# What `adiak_namevalue` leaves unwritten

The value is allocated as it comes and filled by the `switch`, from `string_ptr`, or from
`container_ptr`.

1. `storeFetched_written`: what is stored has been written unless a pointer is `NULL` or `copy_value`
   gives up.
2. `adiakNamevalue_written` says the same of all that is recorded with the result `0`.
-/

namespace Adiak

open TypeTree

/-! ## What is fetched -/

/-- The types of which `adiak_namevalue` keeps a pointer, to test it for `NULL`. -/
def AdiakType.fetchesPointer (t : AdiakType) : Bool := t.isString || !isBasetype t

theorem fetchesPointer_of_isString {t : AdiakType} (h : t.isString = true) :
    t.fetchesPointer = true := by
  rw [AdiakType.fetchesPointer, h, Bool.true_or]

theorem fetchesPointer_of_container {t : AdiakType} (h : isBasetype t = false) :
    t.fetchesPointer = true := by
  rw [AdiakType.fetchesPointer, h, Bool.not_false, Bool.or_true]

/-- The value argument by its type: a scalar is written at once, of the others a pointer is kept. -/
theorem fetchArg_cases {m : Memory} {top : AdiakType} {ap ap' : List VArg} {f : Fetched}
    (h : fetchArg m top ap = .ok (f, ap')) :
    (∃ a v, ap = a :: ap' ∧ f = .ofValue v ∧ top.fetchesPointer = false ∧
        top.memberBytes ≤ v.writtenBytes) ∨
      (∃ p, ap = .ptr p :: ap' ∧ f = ⟨.indeterminate, p, 0⟩ ∧ top.isString = true ∧
        isBasetype top = true) ∨
      (∃ p, ap = .ptr p :: ap' ∧ f = ⟨.indeterminate, 0, p⟩ ∧ isBasetype top = false) := by
  cases ap with
  | nil => cases top <;> cases h
  | cons a ap =>
    cases top <;> cases a <;> first
      | cases h; done
      | (obtain ⟨rfl, rfl⟩ := Prod.mk.inj (Except.ok.inj h)
         first
          | exact .inl ⟨_, _, rfl, rfl, rfl, le_rfl⟩
          | exact .inr (.inl ⟨_, rfl, rfl, rfl, rfl⟩)
          | exact .inr (.inr ⟨_, rfl, rfl, rfl⟩))
      | skip
    obtain ⟨tv, -, h⟩ := bind_eq_ok.mp h
    obtain ⟨rfl, rfl⟩ := Prod.mk.inj (Except.ok.inj h)
    exact .inl ⟨_, _, rfl, rfl, rfl, le_rfl⟩

/-! ## What is stored -/

/-- A value as it was allocated is of no use at any type. -/
theorem not_written_indeterminate (t : TypeTree) : ¬ Written t .indeterminate := by
  intro h
  cases h with
  | leaf hleaf h =>
    replace h : t.dtype.memberBytes = 0 := Nat.le_zero.mp h
    cases t with
    | scalar s => cases s <;> cases h
    | str k ref => cases k <;> cases h
    | coll | range | tuple => cases hleaf

theorem exists_container {t : TypeTree} (h : isBasetype t.dtype = false) :
    ∃ ref ts, t.container = some (ref, ts) := by
  cases hc : t.container with
  | none => rw [isBasetype_leaf hc] at h; cases h
  | some r => exact ⟨r.1, r.2, rfl⟩

theorem container_of_basetype {t : TypeTree} (h : isBasetype t.dtype = true) :
    t.container = none := by
  cases hc : t.container with
  | none => rfl
  | some r =>
    obtain ⟨hbase, -⟩ := datatype_shape hc
    rw [h] at hbase
    cases hbase

theorem isReference_datatype {t : TypeTree} {ref : Bool} {ts : List TypeTree}
    (hc : t.container = some (ref, ts)) : t.datatype.isReference = ref := by
  obtain ⟨-, n, subs, -, -, hdatatype, -⟩ := datatype_shape hc
  rw [hdatatype]
  rfl

/-- What was fetched for the type of a tree and stored has been written unless a pointer is `NULL` or
`copy_value` gives up. -/
theorem storeFetched_written {m : Memory} {t : TypeTree} {a : VArg} {ap ap' : List VArg}
    {f : Fetched} {v : AdiakValue} (hfetch : fetchArg m t.dtype (a :: ap) = .ok (f, ap'))
    (hstore : storeFetched m f t.datatype = .ok v) :
    Written t v ↔ (t.dtype.fetchesPointer = true → a ≠ .ptr 0) ∧ ¬ t.GivesUp := by
  rcases fetchArg_cases hfetch with ⟨_, v', -, rfl, hscalar, hbytes⟩ |
    ⟨p, hap, rfl, hstring, hbase⟩ | ⟨p, hap, rfl, hbase⟩
  · have hbase : isBasetype t.dtype = true := by
      simpa using (Bool.or_eq_false_iff.mp hscalar).2
    have hleaf := container_of_basetype hbase
    obtain rfl : v' = v := by simpa [storeFetched, Fetched.ofValue] using hstore
    refine iff_of_true (.leaf hleaf hbytes) ⟨fun h => ?_, not_givesUp fun ts hc => ?_⟩
    · rw [hscalar] at h
      cases h
    · rw [hleaf] at hc
      cases hc
  · have hleaf := container_of_basetype hbase
    have hno : ¬ t.GivesUp := not_givesUp fun ts hc => by rw [hleaf] at hc; cases hc
    have hpointer := fetchesPointer_of_isString hstring
    obtain rfl : a = .ptr p := (List.cons.inj hap).1
    unfold storeFetched at hstore
    by_cases hp : p = 0
    · obtain rfl := hp
      obtain rfl : AdiakValue.indeterminate = v := by simpa using hstore
      exact iff_of_false (not_written_indeterminate t) fun h => h.1 hpointer rfl
    · have hwritten : Written t v := by
        have hbytes : ∀ q : Pointer, Written t (.vPtr q) := fun q =>
          .leaf hleaf (memberBytes_le _)
        simp only [ne_eq, hp, not_false_eq_true, if_true] at hstore
        split_ifs at hstore
        · obtain rfl := Except.ok.inj hstore
          exact hbytes _
        · obtain ⟨s, -, hstore⟩ := bind_eq_ok.mp hstore
          obtain rfl := Except.ok.inj hstore
          exact hbytes _
      refine iff_of_true hwritten ⟨fun _ h => hp ?_, hno⟩
      exact VArg.ptr.inj h
  · obtain ⟨ref, ts, hc⟩ := exists_container hbase
    have hpointer := fetchesPointer_of_container hbase
    obtain rfl : a = .ptr p := (List.cons.inj hap).1
    unfold storeFetched at hstore
    by_cases hp : p = 0
    · obtain rfl := hp
      obtain rfl : AdiakValue.indeterminate = v := by simpa using hstore
      exact iff_of_false (not_written_indeterminate t) fun h => h.1 hpointer rfl
    simp only [ne_eq, hp, not_true_eq_false, not_false_eq_true, if_true, if_false,
      isReference_datatype hc] at hstore
    have hptr : t.dtype.fetchesPointer = true → VArg.ptr p ≠ .ptr 0 := fun _ h =>
      hp (VArg.ptr.inj h)
    cases ref with
    | true =>
      obtain rfl := Except.ok.inj hstore
      refine iff_of_true (.referenced hc) ⟨hptr, not_givesUp fun ts' hc' => ?_⟩
      rw [hc] at hc'
      cases hc'
    | false =>
      simp only [Bool.false_eq_true, if_false] at hstore
      have hyields := copyValue_yields (m := m) t p
      cases hcopy : copyValue m t.datatype p with
      | ok r =>
        rw [hcopy] at hstore
        obtain rfl := Except.ok.inj hstore
        obtain ⟨-, hwritten, hno⟩ := hyields.ok hcopy
        exact iff_of_true hwritten ⟨hptr, hno⟩
      | error e =>
        rw [hcopy] at hstore
        cases e with
        | null =>
          obtain rfl := Except.ok.inj hstore
          exact iff_of_false (not_written_indeterminate t) fun h => h.2 (hyields.null hcopy)
        | undefined => cases hstore
        | fuel => cases hstore

/-! ## What is recorded -/

/-- With the result `0`, a value of the type that the parser gives has been recorded. All of it has
been written exactly if no string or container is `NULL` and `copy_value` does not give up. -/
theorem adiakNamevalue_written {s s' : AdiakState} {m : Memory} {name : CStr} {category : Int}
    {subcategory : Option CStr} {typestr : List Char} {ap : List VArg}
    (h : adiakNamevalue s m name category subcategory typestr ap = .ok (0, s')) :
    ∃ a ap' rest value tree, ap = a :: ap' ∧
      parseTypestr typestr ap' = .ok (TypeTree.datatype tree, rest) ∧
      adiakRawNamevalue s { name, category, subcategory, value, dtype := tree.datatype } = .ok s' ∧
      (Written tree value ↔
        (tree.dtype.fetchesPointer = true → a ≠ .ptr 0) ∧ ¬ tree.GivesUp) := by
  unfold adiakNamevalue at h
  cases hargs : namevalueArgs m typestr ap with
  | error e =>
    rw [hargs] at h
    cases e with
    | null =>
      obtain ⟨hret, -⟩ := Prod.mk.inj (Except.ok.inj h)
      exact absurd hret (by decide)
    | undefined => cases h
    | fuel => cases h
  | ok r =>
    obtain ⟨value, dtype⟩ := r
    rw [hargs] at h
    obtain ⟨s₁, hraw, h⟩ := bind_eq_ok.mp h
    obtain ⟨-, rfl⟩ := Prod.mk.inj (Except.ok.inj h)
    unfold namevalueArgs at hargs
    obtain ⟨top, htop, hargs⟩ := bind_eq_ok.mp hargs
    obtain ⟨⟨f, ap'⟩, hfetch, hargs⟩ := bind_eq_ok.mp hargs
    obtain ⟨⟨t, rest⟩, hparse, hargs⟩ := bind_eq_ok.mp hargs
    obtain ⟨v, hstore, hargs⟩ := bind_eq_ok.mp hargs
    obtain ⟨rfl, rfl⟩ := Prod.mk.inj (Except.ok.inj hargs)
    have hset : top ≠ .unset := by
      rintro rfl
      cases hfetch
    obtain ⟨tree, rfl⟩ : ∃ tree : TypeTree, t = tree.datatype := by
      rcases parseTypestr_takes hparse with ⟨tree, -, ht, -⟩ | ⟨hblank, -⟩
      · exact ⟨tree, ht⟩
      · exact absurd (Except.ok.inj (htop.symm.trans (toplevelType_blank hblank))) hset
    obtain ⟨a, hap⟩ : ∃ a, ap = a :: ap' := by
      rcases fetchArg_cases hfetch with ⟨a, -, hap, -⟩ | ⟨p, hap, -⟩ | ⟨p, hap, -⟩
      · exact ⟨a, hap⟩
      · exact ⟨_, hap⟩
      · exact ⟨_, hap⟩
    refine ⟨a, ap', rest, v, tree, hap, hparse, hraw, ?_⟩
    obtain rfl := hap
    by_cases heq : top = tree.datatype.dtype
    · rw [dtype_datatype] at heq
      obtain rfl := heq
      exact storeFetched_written hfetch hstore
    · obtain ⟨hlong, hunsigned⟩ := toplevel_of_ne hparse htop hset heq
      rw [dtype_datatype] at hunsigned
      have hleaf : tree.container = none := container_of_basetype (by
        rcases hunsigned with hd | hd <;> rw [hd] <;> rfl)
      have hno : ¬ tree.GivesUp := not_givesUp fun ts hc => by rw [hleaf] at hc; cases hc
      -- the argument is no pointer, and what it writes is as large as any member
      have ha : a ≠ .ptr 0 := by
        rintro rfl
        rcases hlong with rfl | rfl <;> cases hfetch
      rcases fetchArg_cases hfetch with ⟨_, v', -, rfl, -, hbytes⟩ | ⟨p, -, -, hstring, -⟩ |
        ⟨p, -, -, hbase⟩
      · obtain rfl : v' = v := by simpa [storeFetched, Fetched.ofValue] using hstore
        have hlarge : top.memberBytes = 8 := by rcases hlong with rfl | rfl <;> rfl
        rw [hlarge] at hbytes
        exact iff_of_true (.leaf hleaf ((memberBytes_le _).trans hbytes)) ⟨fun _ => ha, hno⟩
      · rcases hlong with rfl | rfl <;> cases hstring
      · rcases hlong with rfl | rfl <;> cases hbase

/-- `%s` with a string. -/
theorem adiakNamevalue_written_string : ∃ s' value,
    adiakRawNamevalue (initialState 0 true) ⟨['n'], adiakGeneral, none, value, baseString⟩ =
      .ok s' ∧
    Written (.str .string false) value := by
  have hrun : ∃ s', adiakNamevalue (initialState 0 true)
      { Memory.empty with cstr := fun _ => some ['x'] } ['n'] adiakGeneral none ['%', 's'] [.ptr 1] =
        .ok (0, s') := by
    have hargs : namevalueArgs { Memory.empty with cstr := fun _ => some ['x'] } ['%', 's'] [.ptr 1] =
        .ok (.vPtr (.strdup ['x']), baseString) := namevalueArgs_spec (s := .string) rfl rfl
    unfold adiakNamevalue
    rw [hargs]
    exact ⟨_, rfl⟩
  obtain ⟨s', hrun⟩ := hrun
  obtain ⟨a, ap', rest, value, tree, hap, hparse, hraw, hwritten⟩ := adiakNamevalue_written hrun
  obtain ⟨rfl, rfl⟩ := List.cons.inj hap
  rw [show parseTypestr ['%', 's'] [] = .ok (baseString, []) by
    rw [parseTypestr_of_lt (by decide)]
    rfl] at hparse
  obtain ⟨htree, -⟩ := Prod.mk.inj (Except.ok.inj hparse)
  have htree : (TypeTree.str .string false).datatype = tree.datatype := htree
  obtain rfl := datatype_injective htree
  refine ⟨s', value, hraw, hwritten.mpr ⟨fun _ h => ?_, not_givesUp fun ts hc => by cases hc⟩⟩
  exact absurd (VArg.ptr.inj h) (by decide)

/-- `%s` with `NULL`: the result is `0`, and the record is left with a value as it was allocated. -/
theorem adiakNamevalue_written_not_always : ¬ ∀ (s s' : AdiakState) (m : Memory) (name : CStr)
    (category : Int) (subcategory : Option CStr) (typestr : List Char) (ap : List VArg),
    adiakNamevalue s m name category subcategory typestr ap = .ok (0, s') →
      ∃ value tree, adiakRawNamevalue s
        { name, category, subcategory, value, dtype := TypeTree.datatype tree } = .ok s' ∧
        Written tree value := by
  intro h
  have hrun : ∃ s', adiakNamevalue (initialState 0 true) Memory.empty ['n'] adiakGeneral none
      ['%', 's'] [.ptr 0] = .ok (0, s') ∧ (s'.records 0).map Record.value = some .indeterminate := by
    have hargs : namevalueArgs Memory.empty ['%', 's'] [.ptr 0] = .ok (.indeterminate, baseString) :=
      namevalueArgs_spec (s := .string) rfl rfl
    unfold adiakNamevalue
    rw [hargs]
    exact ⟨_, rfl, rfl⟩
  obtain ⟨s', hrun, hrecord⟩ := hrun
  obtain ⟨value, tree, hraw, hwritten⟩ := h _ _ _ _ _ _ _ _ hrun
  have hvalue : (s'.records 0).map Record.value = some value := by
    rw [← Except.ok.inj hraw]
    rfl
  obtain rfl := Option.some.inj (hrecord.symm.trans hvalue)
  exact not_written_indeterminate tree hwritten

end Adiak
