import Adiak.Cpp.Types

/-!
# What `make_value` leaves in the datatype

All elements of a container share one subtype, so `make_value` writes the length of every container
value to the same node and the last one stays.

1. `CppType.tree t vs` is the type after the values `vs` of `t` have been made, `CppType.stored` is
   the value made for one of them.
2. `makeType_eq` and `makeValue_eq` say that the code does that.
3. `valueArgs_one` and `valueArgs_range` are what `adiak::value` records.
-/

namespace Adiak

def CppValue.elements : CppValue → List CppValue
  | .elems vs => vs
  | _ => []

/-- The number of elements written last. -/
def lastLength (vs : List CppValue) : Int :=
  match vs.getLast? with
  | some v => wrapInt v.elements.length
  | none => 0

def CppScalar.tree : CppScalar → TypeTree
  | .long => .scalar .long
  | .ulong => .scalar .ulong
  | .longlong => .scalar .longlong
  | .ulonglong => .scalar .ulonglong
  | .int | .short | .char => .scalar .int
  | .uint | .ushort | .uchar => .scalar .uint
  | .double | .float => .scalar .double
  | .charPtr | .string => .str .string false
  | .timevalPtr => .scalar .timeval
  | .date => .scalar .date
  | .version => .str .version false
  | .path => .str .path false
  | .catstring => .str .catstring false
  | .jsonstring => .str .jsonstring false

def CppContainer.kind : CppContainer → CollKind
  | .set | .unorderedSet | .multiset => .set
  | .vector | .list | .array _ | .deque => .list

namespace CppType

@[elab_as_elim, induction_eliminator]
theorem induction {P : CppType → Prop} (scalar : ∀ s, P (.scalar s)) (other : P .other)
    (container : ∀ c elem, P elem → P (.container c elem))
    (tuple : ∀ ts, (∀ t ∈ ts, P t) → P (.tuple ts)) : ∀ t, P t :=
  @CppType.rec P (fun l => ∀ t ∈ l, P t) scalar other container tuple
    (fun _ h => absurd h (List.not_mem_nil)) (fun _ _ hs hl => List.forall_mem_cons.mpr ⟨hs, hl⟩)

mutual

/-- The type after the values `vs` have been made, one after another. -/
def tree : CppType → List CppValue → TypeTree
  | .scalar s, _ => s.tree
  | .other, _ => .scalar .date
  | .container c elem, vs => .coll c.kind false (lastLength vs) (tree elem (vs.flatMap CppValue.elements))
  | .tuple ts, vs => .tuple false (trees ts (vs.map CppValue.elements))

/-- The same for the components of tuples, given by their rows. -/
def trees : List CppType → List (List CppValue) → List TypeTree
  | [], _ => []
  | t :: ts, rows => tree t (rows.filterMap List.head?) :: trees ts (rows.map List.tail)

end

mutual

/-- The value that is made, apart from the type. -/
def stored : CppType → CppValue → AdiakValue
  | .scalar s, v =>
    match s.set v with
    | .ok x => x
    | .error _ => .indeterminate
  | .other, _ => .indeterminate
  | .container _ elem, v => .vSubval (v.elements.map fun e => stored elem e)
  | .tuple ts, v => .vSubval (storedSeq ts v.elements)

def storedSeq : List CppType → List CppValue → List AdiakValue
  | [], _ => []
  | _, [] => []
  | t :: ts, v :: vs => stored t v :: storedSeq ts vs

end

end CppType

open CppType

/-! ## Datatypes -/

theorem scalar_datatype (s : CppScalar) : adiakGetBasetype s.dtype = s.tree.datatype := by
  cases s <;> rfl

theorem TypeTree.exists_node (t : TypeTree) : ∃ info subtype, t.datatype = .node info subtype := by
  cases t with
  | scalar s => cases s <;> exact ⟨_, _, rfl⟩
  | str k ref => cases k <;> cases ref <;> exact ⟨_, _, rfl⟩
  | coll | range | tuple => exact ⟨_, _, rfl⟩

theorem dtype_kind (c : CppContainer) : c.kind.dtype = c.dtype := by cases c <;> rfl

theorem cppNode_eq (c : CppContainer) (n : Int) : cppNode c.dtype n = containerNode c.dtype false n := by
  cases c <;> rfl

/-- A container that is no reference, with its count written again. -/
theorem containerNode_setCount (d : AdiakType) (n k : Int) :
    { containerNode d false n with numElements := k } = containerNode d false k := rfl

theorem length_trees (ts : List CppType) (rows : List (List CppValue)) :
    (trees ts rows).length = ts.length := by
  induction ts generalizing rows with
  | nil => rfl
  | cons t ts ih => rw [trees, List.length_cons, ih, List.length_cons]

/-- `make_type` gives the type before any value is made. -/
theorem makeType_eq {t : CppType} (h : t.Supported) : makeType t = (t.tree []).datatype := by
  induction t with
  | scalar s => exact scalar_datatype s
  | other => cases h
  | container c elem ih =>
    cases h with
    | container _ helem =>
      obtain ⟨info, subtype, hnode⟩ := (elem.tree []).exists_node
      rw [makeType, ih helem, hnode, tree, TypeTree.datatype, dtype_kind, cppNode_eq]
      simp only [List.flatMap_nil, hnode]
      rfl
  | tuple ts ih =>
    cases h with
    | tuple hlen hts =>
      have hcomps : makeTypes ts = TypeTree.datatypes (trees ts []) := by
        clear hlen
        induction ts with
        | nil => rfl
        | cons t ts ihts =>
          rw [makeTypes, trees, TypeTree.datatypes, ih t List.mem_cons_self (hts t List.mem_cons_self)]
          congr 1
          exact ihts (fun u hu => ih u (List.mem_cons_of_mem t hu))
            fun u hu => hts u (List.mem_cons_of_mem t hu)
      rw [makeType, tree, TypeTree.datatype, List.map_nil, length_trees, hcomps]
      rfl

/-! ## Values -/

theorem set_eq {s : CppScalar} {v : CppValue} (h : s.HasValue v) :
    s.set v = .ok ((CppType.scalar s).stored v) := by
  have hok : ∃ x, s.set v = .ok x := by
    cases v with
    | integer x =>
      obtain ⟨k, hk, -⟩ : ∃ k, s.integral = some k ∧ k.InRange x := by
        cases s <;> exact h
      cases s <;> first | cases hk; done | exact ⟨_, rfl⟩
    | floating x => cases x <;> cases s <;> first | exact ⟨_, rfl⟩ | exact h.elim
    | str l => cases s <;> first | exact ⟨_, rfl⟩ | exact h.elim
    | timeval tv => cases s <;> first | exact ⟨_, rfl⟩ | exact h.elim
    | pointer p => cases s <;> exact h.elim
    | elems vs => cases s <;> exact h.elim
  obtain ⟨x, hx⟩ := hok
  rw [stored, hx]

theorem lastLength_append (vs : List CppValue) (v : CppValue) :
    lastLength (vs ++ [v]) = wrapInt v.elements.length := by
  unfold lastLength
  rw [List.getLast?_concat]

/-- The loop over the elements of a container. -/
theorem makeElems_eq {elem : CppType}
    (hmake : ∀ v ws, HasType elem v → makeValue elem v (elem.tree ws).datatype =
      .ok (elem.stored v, (elem.tree (ws ++ [v])).datatype))
    {vs : List CppValue} (hvs : ∀ v ∈ vs, HasType elem v) (ws : List CppValue) :
    makeElems (fun v d => makeValue elem v d) vs (elem.tree ws).datatype =
      .ok (vs.map fun v => elem.stored v, (elem.tree (ws ++ vs)).datatype) := by
  induction vs generalizing ws with
  | nil =>
    rw [makeElems, List.append_nil]
    rfl
  | cons v vs ih =>
    rw [makeElems, hmake v ws (hvs v List.mem_cons_self)]
    simp only [ok_bind]
    rw [ih (fun u hu => hvs u (List.mem_cons_of_mem v hu)) (ws ++ [v])]
    simp only [ok_bind, List.append_assoc, List.singleton_append, List.map_cons]

/-- The components of a tuple. -/
theorem makeComps_eq {ts : List CppType}
    (hmake : ∀ t ∈ ts, ∀ v ws, HasType t v → makeValue t v (t.tree ws).datatype =
      .ok (t.stored v, (t.tree (ws ++ [v])).datatype))
    {vs : List CppValue} (hvs : HasTypes ts vs) (rows : List (List CppValue)) :
    makeComps ts vs ((trees ts rows).map TypeTree.datatype) =
      .ok (storedSeq ts vs, (trees ts (rows ++ [vs])).map TypeTree.datatype) := by
  induction ts generalizing vs rows with
  | nil =>
    cases vs with
    | nil => rfl
    | cons v vs => cases hvs
  | cons t ts ih =>
    cases vs with
    | nil => cases hvs
    | cons v vs =>
      obtain ⟨hv, hvs⟩ := hvs
      have hrest := ih (fun u hu => hmake u (List.mem_cons_of_mem t hu)) hvs (rows.map List.tail)
      rw [trees, List.map_cons, makeComps, hmake t List.mem_cons_self v _ hv]
      simp only [ok_bind, hrest]
      rw [trees, List.map_cons, storedSeq, List.filterMap_append, List.map_append]
      rfl

/-- `make_value` makes the value and leaves its lengths in the type. -/
theorem makeValue_eq {t : CppType} {v : CppValue} (h : HasType t v) (vs : List CppValue) :
    makeValue t v (t.tree vs).datatype = .ok (t.stored v, (t.tree (vs ++ [v])).datatype) := by
  induction t generalizing v vs with
  | scalar s =>
    rw [makeValue, set_eq h]
    rfl
  | other => cases v <;> cases h
  | container c elem ih =>
    cases v with
    | elems es =>
      have hloop := makeElems_eq (fun v ws hv => ih hv ws) h.2 (vs.flatMap CppValue.elements)
      rw [tree, TypeTree.datatype, makeValue, hloop]
      simp only [ok_bind]
      rw [tree, TypeTree.datatype, lastLength_append, List.flatMap_append, containerNode_setCount,
        List.flatMap_singleton, stored]
      simp only [CppValue.elements]
    | _ => cases h
  | tuple ts ih =>
    cases v with
    | elems es =>
      have hcomps := makeComps_eq (fun t ht v ws hv => ih t ht hv ws) h (vs.map CppValue.elements)
      rw [tree, TypeTree.datatype, TypeTree.datatypes_eq_map, makeValue, hcomps]
      simp only [ok_bind]
      rw [tree, TypeTree.datatype, TypeTree.datatypes_eq_map, List.map_append, length_trees,
        length_trees]
      rfl
    | _ => cases h

/-! ## What `adiak::value` records -/

theorem valueArgs_one {t : CppType} {v : CppValue} (ht : t.Supported) (hv : HasType t v) :
    valueArgs t (.one v) = .ok (t.stored v, (t.tree [v]).datatype) := by
  have hmake := makeValue_eq hv []
  obtain ⟨info, subtype, hnode⟩ := (t.tree []).exists_node
  rw [hnode] at hmake
  unfold valueArgs
  simp only [makeType_eq ht, hnode]
  exact hmake

theorem valueArgs_range {t : CppType} {a b : CppValue} (ht : t.Supported) (ha : HasType t a)
    (hb : HasType t b) :
    valueArgs t (.range a b) =
      .ok (.vSubval [t.stored a, t.stored b], .node cppRangeNode [(t.tree [a, b]).datatype]) := by
  have hmake := makeValue_eq ha []
  have hmake' := makeValue_eq hb [a]
  obtain ⟨info, subtype, hnode⟩ := (t.tree []).exists_node
  rw [hnode] at hmake
  unfold valueArgs makeRangeT
  simp only [makeType_eq ht, hnode, hmake, ok_bind, List.nil_append, hmake']
  rfl

end Adiak
