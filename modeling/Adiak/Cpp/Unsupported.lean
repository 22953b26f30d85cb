import Adiak.Cpp.Counts

/-!
# Unsupported types in the C++ interface

A leaf without a specialisation of `element_type` has no datatype. The `NULL` it stands for has to be
handed on by every constructor around it: containers and ranges do so, tuples store it.

1. `makeType_eq_null` and `makeType_whole` say what `make_type` makes of such a leaf.
2. `makeValue_ne_null`: `make_value` never fails, so `adiak::value` returns `false` only for want of a
   datatype.
3. `refusesUnsupported_iff` is the result for whole types.
-/

namespace Adiak

namespace CppType

/-- An unsupported leaf occurs in the type. -/
inductive HasOther : CppType → Prop
  | other : HasOther .other
  | container (c : CppContainer) {elem : CppType} (h : HasOther elem) : HasOther (.container c elem)
  | tuple {ts : List CppType} {t : CppType} (hmem : t ∈ ts) (h : HasOther t) : HasOther (.tuple ts)

/-- An unsupported leaf occurs inside a tuple of the type. -/
inductive TupleHasOther : CppType → Prop
  | container (c : CppContainer) {elem : CppType} (h : TupleHasOther elem) :
      TupleHasOther (.container c elem)
  | tuple {ts : List CppType} {t : CppType} (hmem : t ∈ ts) (h : HasOther t) :
      TupleHasOther (.tuple ts)

theorem TupleHasOther.hasOther {t : CppType} (h : TupleHasOther t) : HasOther t := by
  induction h with
  | container c h ih => exact .container c ih
  | tuple hmem h => exact .tuple hmem h

end CppType

open CppType

mutual

/-- No subtype is `NULL`. -/
def Whole : AdiakDatatype → Prop
  | .null => False
  | .node _ subtype => WholeSeq subtype

def WholeSeq : List AdiakDatatype → Prop
  | [] => True
  | t :: ts => Whole t ∧ WholeSeq ts

end

theorem wholeSeq_iff {ts : List AdiakDatatype} : WholeSeq ts ↔ ∀ t ∈ ts, Whole t := by
  induction ts with
  | nil => simp [WholeSeq]
  | cons t ts ih => rw [WholeSeq, ih, List.forall_mem_cons]

/-! ## Datatypes -/

theorem makeTypes_eq_map (ts : List CppType) : makeTypes ts = ts.map makeType := by
  induction ts with
  | nil => rfl
  | cons t ts ih => rw [makeTypes, ih, List.map_cons]

theorem scalar_ne_null (s : CppScalar) : makeType (.scalar s) ≠ .null := by
  cases s <;> rintro ⟨⟩

/-- A container has a datatype if its element type has one. -/
theorem container_eq_null {c : CppContainer} {elem : CppType} :
    makeType (.container c elem) = .null ↔ makeType elem = .null := by
  rw [makeType]
  split
  · rename_i h
    exact iff_of_true rfl h
  · rename_i h
    rw [h]
    exact iff_of_false (by rintro ⟨⟩) (by rintro ⟨⟩)

theorem makeRangeT_eq_null {t : CppType} : makeRangeT t = .null ↔ makeType t = .null := by
  unfold makeRangeT
  split
  · rename_i h
    exact iff_of_true rfl h
  · rename_i h
    rw [h]
    exact iff_of_false (by rintro ⟨⟩) (by rintro ⟨⟩)

/-- The `NULL` of an unsupported leaf gets through to the top unless a tuple is on the way. -/
theorem makeType_eq_null {t : CppType} :
    makeType t = .null ↔ t.HasOther ∧ ¬ t.TupleHasOther := by
  induction t with
  | scalar s => exact iff_of_false (scalar_ne_null s) (by rintro ⟨⟨⟩, -⟩)
  | other => exact iff_of_true rfl ⟨.other, by rintro ⟨⟩⟩
  | container c elem ih =>
    rw [container_eq_null, ih]
    constructor
    · rintro ⟨hother, htuple⟩
      refine ⟨.container c hother, ?_⟩
      rintro ⟨⟩
      contradiction
    · rintro ⟨⟨⟩, htuple⟩
      exact ⟨by assumption, fun h => htuple (.container c h)⟩
  | tuple ts ih =>
    refine iff_of_false (by rw [makeType]; rintro ⟨⟩) ?_
    rintro ⟨hother, htuple⟩
    cases hother with
    | tuple hmem h => exact htuple (.tuple hmem h)

/-- Without an unsupported leaf the tree is whole. -/
theorem makeType_whole {t : CppType} (h : ¬ t.HasOther) : Whole (makeType t) := by
  induction t with
  | scalar s => cases s <;> trivial
  | other => exact absurd .other h
  | container c elem ih =>
    have helem := ih fun hother => h (.container c hother)
    rw [makeType]
    split
    · rename_i hnull
      rw [hnull] at helem
      exact helem
    · rename_i hnode
      rw [hnode] at helem
      exact ⟨helem, trivial⟩
  | tuple ts ih =>
    rw [makeType, makeTypes_eq_map]
    refine wholeSeq_iff.mpr fun u hu => ?_
    obtain ⟨t, ht, rfl⟩ := List.mem_map.mp hu
    exact ih t ht fun hother => h (.tuple ht hother)

theorem makeRangeT_whole {t : CppType} (h : ¬ t.HasOther) : Whole (makeRangeT t) := by
  have hwhole := makeType_whole h
  unfold makeRangeT
  split
  · rename_i hnull
    rw [hnull] at hwhole
    exact hwhole
  · rename_i hnode
    rw [hnode] at hwhole
    exact ⟨hwhole, trivial⟩

/-! ## Values -/

theorem set_ne_null (s : CppScalar) (v : CppValue) : s.set v ≠ .error .null := by
  cases s <;> cases v <;> rintro ⟨⟩

theorem bind_ne_null {α β : Type} {x : Except Stop α} {f : α → Except Stop β}
    (hx : x ≠ .error .null) (hf : ∀ a, f a ≠ .error .null) : x >>= f ≠ .error .null := by
  cases x with
  | error e =>
    rintro ⟨⟩
    exact hx rfl
  | ok a => exact hf a

theorem makeElems_ne_null {make : CppValue → AdiakDatatype → Except Stop (AdiakValue × AdiakDatatype)}
    (hmake : ∀ v d, make v d ≠ .error .null) (vs : List CppValue) (dtype : AdiakDatatype) :
    makeElems make vs dtype ≠ .error .null := by
  induction vs generalizing dtype with
  | nil => rintro ⟨⟩
  | cons v vs ih =>
    rw [makeElems]
    refine bind_ne_null (hmake v dtype) fun r => bind_ne_null (ih r.2) fun r' => ?_
    rintro ⟨⟩

theorem makeComps_ne_null {ts : List CppType}
    (hts : ∀ t ∈ ts, ∀ v d, makeValue t v d ≠ .error .null) (vs : List CppValue)
    (subtype : List AdiakDatatype) : makeComps ts vs subtype ≠ .error .null := by
  induction ts generalizing vs subtype with
  | nil => cases vs <;> rintro ⟨⟩
  | cons t ts ih =>
    cases vs with
    | nil => cases subtype <;> rintro ⟨⟩
    | cons v vs =>
      cases subtype with
      | nil => rintro ⟨⟩
      | cons sub subtype =>
        rw [makeComps]
        refine bind_ne_null (hts t List.mem_cons_self v sub) fun r =>
          bind_ne_null (ih (fun u hu => hts u (List.mem_cons_of_mem t hu)) vs subtype) fun r' => ?_
        rintro ⟨⟩

/-- `make_value` always returns `true`. -/
theorem makeValue_ne_null (t : CppType) (v : CppValue) (dtype : AdiakDatatype) :
    makeValue t v dtype ≠ .error .null := by
  induction t generalizing v dtype with
  | scalar s =>
    rw [makeValue]
    exact bind_ne_null (set_ne_null s v) fun x => by rintro ⟨⟩
  | other => cases v <;> rintro ⟨⟩
  | container c elem ih =>
    cases v with
    | elems vs =>
      rcases dtype with _ | ⟨info, _ | ⟨sub, subtype⟩⟩
      · rintro ⟨⟩
      · rintro ⟨⟩
      · rw [makeValue]
        exact bind_ne_null (makeElems_ne_null ih vs sub) fun r => by rintro ⟨⟩
    | _ => rcases dtype with _ | ⟨info, _ | ⟨sub, subtype⟩⟩ <;> rintro ⟨⟩
  | tuple ts ih =>
    cases v with
    | elems vs =>
      rcases dtype with _ | ⟨info, subtype⟩
      · rintro ⟨⟩
      · rw [makeValue]
        exact bind_ne_null (makeComps_ne_null ih vs subtype) fun r => by rintro ⟨⟩
    | _ => rcases dtype with _ | ⟨info, subtype⟩ <;> rintro ⟨⟩

/-- `adiak::value` is out of arguments for the store only if there is no datatype. -/
theorem valueArgs_eq_null {t : CppType} {arg : CppArg} :
    valueArgs t arg = .error .null ↔ makeType t = .null := by
  cases arg with
  | one v =>
    rw [valueArgs]
    split
    · rename_i hnull
      exact iff_of_true rfl hnull
    · rename_i hnode
      rw [hnode]
      exact iff_of_false (makeValue_ne_null t v _) (by rintro ⟨⟩)
  | range a b =>
    rw [valueArgs, makeRangeT]
    split
    · rename_i hnode
      split at hnode
      · cases hnode
      · rename_i hmake
        rw [hmake]
        refine iff_of_false (bind_ne_null (makeValue_ne_null t a _) fun r =>
          bind_ne_null (makeValue_ne_null t b _) fun r' => ?_) (by rintro ⟨⟩)
        rintro ⟨⟩
    · rename_i hnode
      cases hmake : makeType t with
      | null => exact iff_of_true rfl rfl
      | node info subtype =>
        rw [hmake] at hnode
        exact absurd rfl (hnode _ _ _)

/-! ## Whole types -/

/-- A type is turned down if and only if an unsupported leaf occurs in it, and else it gives a whole
tree. -/
structure RefusesUnsupported (t : CppType) : Prop where
  makeType : makeType t = .null ↔ t.HasOther
  makeRangeT : makeRangeT t = .null ↔ t.HasOther
  value : ∀ s name arg category subcategory r s',
    value s name t arg category subcategory = .ok (r, s') →
      (r = false ↔ t.HasOther) ∧ (r = false → s' = s)
  refused : t.HasOther → ∀ s name arg category subcategory,
    Adiak.value s name t arg category subcategory = .ok (false, s)
  whole : ¬ t.HasOther → Whole (Adiak.makeType t) ∧ Whole (Adiak.makeRangeT t)

/-- A type is turned down as it should if and only if no tuple in it has an unsupported leaf. -/
theorem refusesUnsupported_iff (t : CppType) : RefusesUnsupported t ↔ ¬ t.TupleHasOther := by
  constructor
  · intro h htuple
    exact (makeType_eq_null.mp (h.makeType.mpr htuple.hasOther)).2 htuple
  · intro htuple
    have hnull : makeType t = .null ↔ t.HasOther :=
      makeType_eq_null.trans ⟨And.left, fun h => ⟨h, htuple⟩⟩
    have hrefused : t.HasOther → ∀ s name arg category subcategory,
        value s name t arg category subcategory = .ok (false, s) := by
      intro h s name arg category subcategory
      unfold value
      rw [valueArgs_eq_null.mpr (hnull.mpr h)]
    refine ⟨hnull, makeRangeT_eq_null.trans hnull, ?_, hrefused,
      fun h => ⟨makeType_whole h, makeRangeT_whole h⟩⟩
    intro s name arg category subcategory r s' h
    by_cases hother : t.HasOther
    · rw [hrefused hother] at h
      obtain ⟨rfl, rfl⟩ := Prod.mk.inj (Except.ok.inj h)
      exact ⟨iff_of_true rfl hother, fun _ => rfl⟩
    · unfold value at h
      cases hargs : valueArgs t arg with
      | error e =>
        rw [hargs] at h
        cases e with
        | null => exact absurd (hnull.mp (valueArgs_eq_null.mp hargs)) hother
        | undefined => cases h
        | fuel => cases h
      | ok r' =>
        rw [hargs] at h
        obtain ⟨s₁, -, h⟩ := bind_eq_ok.mp h
        obtain ⟨rfl, -⟩ := Prod.mk.inj (Except.ok.inj h)
        exact ⟨iff_of_false (by rintro ⟨⟩) hother, by rintro ⟨⟩⟩

/-- A tuple with an unsupported component is recorded, with `NULL` for a subtype. -/
theorem refusesUnsupported_not_always : ¬ ∀ t, RefusesUnsupported t := by
  intro h
  have hnull := (h (.tuple [.other])).makeType.mpr (.tuple List.mem_cons_self .other)
  cases hnull

end Adiak
