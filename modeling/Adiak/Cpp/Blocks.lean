import Adiak.Cpp.Counts
import Adiak.Typestring.Blocks
import Adiak.Values.Freed

/-!
# The blocks of the C++ interface

What the templates of `adiak_internal.hpp` allocate. The library releases it later, as it releases what
`adiak.c` allocates itself.

1. `makeTypePtr` is `make_type` with the blocks of the nodes and of their arrays.
2. `makeValueBlocks` is `make_value` with the blocks of the copies and of the arrays. It writes the counts
   through the same pointer.
3. `makeTypePtr_owns`: what hangs from the type is what was allocated. `makeValueBlocks_gives`: what hangs
   from the value is what was taken, in this order.
-/

namespace Adiak

open Heap (TypePtr Access)

open Traced (spec_pure)

/-! ## Types -/

/-- A static type, or `NULL`. -/
def staticType : AdiakDatatype → TypePtr
  | .null => .null
  | .node info subtype => .static (.node info subtype)

/-- The end of `make_type` for a node with one subtype: without it only the node is released. -/
def makeNode (info : TypeNode) (block array : Nat) : TypePtr → Heap.Run TypePtr
  | .null => do
    Traced.tell (.free block)
    pure .null
  | sub => pure (.node block info (some array) [sub])

mutual

/-- `parse<T>::make_type`. -/
def makeTypePtr : CppType → Heap.Run TypePtr
  | .scalar s => pure (staticType (adiakGetBasetype s.dtype))
  | .other => pure (staticType (adiakGetBasetype .unset))
  | .container c elem => do
    let block ← Heap.mallocNode
    let array ← Heap.mallocNode
    let sub ← makeTypePtr elem
    makeNode (cppNode c.dtype 0) block array sub
  | .tuple ts => do
    let block ← Heap.mallocNode
    let array ← Heap.mallocArray true ts.length
    let subtype ← makeTypePtrs ts
    pure (.node block (cppNode .tuple ts.length) array subtype)

/-- `set_tuple_type<T, I>::settype` begins with the last component. -/
def makeTypePtrs : List CppType → Heap.Run (List TypePtr)
  | [] => pure []
  | t :: ts => do
    let subtype ← makeTypePtrs ts
    let sub ← makeTypePtr t
    pure (sub :: subtype)

end

/-- `make_range_t`. -/
def makeRangePtr (t : CppType) : Heap.Run TypePtr := do
  let block ← Heap.mallocNode
  let array ← Heap.mallocNode
  let sub ← makeTypePtr t
  makeNode cppRangeNode block array sub

/-! ## Values -/

/-- What `element_type<T>::set` writes, with the block of a copy. -/
def copyToBlock : AdiakValue → Supply Stop BlockValue
  | .indeterminate => pure .indeterminate
  | .vLong x => pure (.vLong x)
  | .vInt x => pure (.vInt x)
  | .vDouble x => pure (.vDouble x)
  | .vLonglong x => pure (.vLonglong x)
  | .vPtr (.caller p) => pure (.vPtr (.caller p))
  | .vPtr (.strdup s) => do
    let b ← Supply.fresh
    pure (.vPtr (.strdup b s))
  | .vPtr (.timeval tv) => do
    let b ← Supply.fresh
    pure (.vPtr (.timeval b tv))
  | .vSubval _ => Supply.lift (.error .undefined)

/-- The loop of `create_container_type<T>::make_value`. -/
def makeElemsBlocks (make : CppValue → TypePtr → Supply Stop (BlockValue × TypePtr)) :
    List CppValue → TypePtr → Supply Stop (List BlockValue × TypePtr)
  | [], dtype => pure ([], dtype)
  | v :: vs, dtype => do
    let (x, dtype) ← make v dtype
    let (xs, dtype) ← makeElemsBlocks make vs dtype
    pure (x :: xs, dtype)

mutual

/-- `parse<T>::make_value`. -/
def makeValueBlocks : CppType → CppValue → TypePtr → Supply Stop (BlockValue × TypePtr)
  | .scalar s, v, dtype => do
    let x ← Supply.lift (s.set v)
    let x ← copyToBlock x
    pure (x, dtype)
  | .other, .pointer p, dtype => pure (.vPtr (.caller p), dtype)
  | .container _ elem, .elems vs, .node block info array (sub :: subtype) => do
    let valarray ← Supply.fresh
    let (xs, sub) ← makeElemsBlocks (fun v d => makeValueBlocks elem v d) vs sub
    pure (.vSubval (some valarray) xs,
      .node block { info with numElements := wrapInt vs.length } array (sub :: subtype))
  | .tuple ts, .elems vs, .node block info array subtype => do
    let valarray ← Supply.fresh
    let (xs, subtype) ← makeCompsBlocks ts vs subtype
    pure (.vSubval (some valarray) xs, .node block info array subtype)
  | _, _, _ => Supply.lift (.error .undefined)

/-- `set_tuple_type<T, I>::setvalue`. -/
def makeCompsBlocks : List CppType → List CppValue → List TypePtr →
    Supply Stop (List BlockValue × List TypePtr)
  | [], [], subtype => pure ([], subtype)
  | t :: ts, v :: vs, sub :: subtype => do
    let (x, sub) ← makeValueBlocks t v sub
    let (xs, subtype) ← makeCompsBlocks ts vs subtype
    pure (x :: xs, sub :: subtype)
  | _, _, _ => Supply.lift (.error .undefined)

end

/-- The type of what `adiak::value` is passed. -/
def makeArgPtr (t : CppType) : CppArg → Heap.Run TypePtr
  | .one _ => makeTypePtr t
  | .range _ _ => makeRangePtr t

/-- Its value: the two ends of a range are made with one type. -/
def makeArgBlocks (t : CppType) : CppArg → TypePtr → Supply Stop (BlockValue × TypePtr)
  | .one v, dtype => makeValueBlocks t v dtype
  | .range a b, .node block info array (sub :: subtype) => do
    let values ← Supply.fresh
    let (x, sub) ← makeValueBlocks t a sub
    let (y, sub) ← makeValueBlocks t b sub
    pure (.vSubval (some values) [x, y], .node block info array (sub :: subtype))
  | _, _ => Supply.lift (.error .undefined)

/-! ## What hangs from a type -/

namespace CppType

mutual

/-- The shape of what `make_type` returns. -/
def Made : CppType → TypePtr → Prop
  | .scalar s, ptr => ptr = .static (adiakGetBasetype s.dtype)
  | .container c elem, .node _ info (some _) [sub] => info.dtype = c.dtype ∧ Made elem sub
  | .tuple ts, .node _ info (some _) subtype => info.dtype = .tuple ∧ MadeEach ts subtype
  | _, _ => False

def MadeEach : List CppType → List TypePtr → Prop
  | [], [] => True
  | t :: ts, sub :: subtype => Made t sub ∧ MadeEach ts subtype
  | _, _ => False

end

mutual

/-- No `std::tuple<>` inside. -/
def NoEmptyTuple : CppType → Prop
  | .scalar _ | .other => True
  | .container _ elem => NoEmptyTuple elem
  | .tuple ts => ts ≠ [] ∧ NoEmptyTuples ts

def NoEmptyTuples : List CppType → Prop
  | [] => True
  | t :: ts => NoEmptyTuple t ∧ NoEmptyTuples ts

end

end CppType

open CppType

theorem Made.container {c : CppContainer} {elem : CppType} {ptr : TypePtr}
    (h : Made (.container c elem) ptr) : ∃ block info array sub,
      ptr = .node block info (some array) [sub] ∧ info.dtype = c.dtype ∧ elem.Made sub := by
  unfold Made at h
  split at h
  · cases ‹CppType.container c elem = .scalar _›
  · obtain ⟨rfl, rfl⟩ := CppType.container.inj ‹_›
    exact ⟨_, _, _, _, rfl, h⟩
  · cases ‹CppType.container c elem = .tuple _›
  · exact h.elim

theorem Made.tuple {ts : List CppType} {ptr : TypePtr} (h : Made (.tuple ts) ptr) :
    ∃ block info array subtype, ptr = .node block info (some array) subtype ∧
      info.dtype = .tuple ∧ MadeEach ts subtype := by
  unfold Made at h
  split at h
  · cases ‹CppType.tuple ts = .scalar _›
  · cases ‹CppType.tuple ts = .container _ _›
  · obtain rfl := CppType.tuple.inj ‹_›
    exact ⟨_, _, _, _, rfl, h⟩
  · exact h.elim

theorem Made.ne_null {t : CppType} {ptr : TypePtr} (h : Made t ptr) : ptr ≠ .null := by
  rintro rfl
  cases t <;> cases h

theorem makeNode_of_ne_null {ptr : TypePtr} (h : ptr ≠ .null) (info : TypeNode) (block array : Nat) :
    makeNode info block array ptr = pure (.node block info (some array) [ptr]) := by
  cases ptr with
  | null => exact absurd rfl h
  | static t => rfl
  | node block' info' array' subtype => rfl

theorem CppType.MadeEach.exists_of_mem {ts : List CppType} {subtype : List TypePtr}
    (h : MadeEach ts subtype) {sub : TypePtr} (hsub : sub ∈ subtype) : ∃ t ∈ ts, Made t sub := by
  induction ts generalizing subtype with
  | nil =>
    cases subtype with
    | nil => cases hsub
    | cons sub' subtype => cases h
  | cons t ts ih =>
    cases subtype with
    | nil => cases h
    | cons sub' subtype =>
      rcases List.mem_cons.mp hsub with rfl | hsub
      · exact ⟨t, List.mem_cons_self, h.1⟩
      · obtain ⟨u, hu, hmade⟩ := ih h.2 hsub
        exact ⟨u, List.mem_cons_of_mem t hu, hmade⟩

theorem CppType.MadeEach.length {ts : List CppType} {subtype : List TypePtr}
    (h : MadeEach ts subtype) : subtype.length = ts.length := by
  induction ts generalizing subtype with
  | nil =>
    cases subtype with
    | nil => rfl
    | cons sub subtype => cases h
  | cons t ts ih =>
    cases subtype with
    | nil => cases h
    | cons sub subtype => rw [List.length_cons, ih h.2, List.length_cons]

/-- No static type is released with it. -/
theorem Made.static {t : CppType} {ptr : TypePtr} (h : Made t ptr) :
    Access.freeStatic ∉ ptr.released := by
  induction t generalizing ptr with
  | scalar s =>
    obtain rfl : ptr = .static (adiakGetBasetype s.dtype) := h
    cases s <;> exact List.not_mem_nil
  | other => cases h
  | container c elem ih =>
    obtain ⟨block, info, array, sub, rfl, hdtype, hsub⟩ := Made.container h
    have hbase : isBasetype info.dtype = false := by
      rw [hdtype]
      cases c <;> rfl
    unfold TypePtr.released
    rw [if_neg (by rw [hbase]; exact Bool.false_ne_true)]
    simp [Heap.releasedAll, ih hsub]
  | tuple ts ih =>
    obtain ⟨block, info, array, subtype, rfl, hdtype, hsub⟩ := Made.tuple h
    have hall : Access.freeStatic ∉ Heap.releasedAll subtype := by
      rw [Heap.releasedAll_eq_flatMap, List.mem_flatMap]
      rintro ⟨sub, hmem, hfree⟩
      obtain ⟨t, ht, hmade⟩ := hsub.exists_of_mem hmem
      exact ih t ht hmade hfree
    unfold TypePtr.released
    rw [if_neg (by rw [hdtype]; exact Bool.false_ne_true)]
    cases subtype <;> simp [hall]

/-- The array of an empty tuple is lost, and nothing else. -/
theorem Made.lost {t : CppType} {ptr : TypePtr} (h : Made t ptr) :
    ptr.lost = [] ↔ t.NoEmptyTuple := by
  induction t generalizing ptr with
  | scalar s =>
    obtain rfl : ptr = .static (adiakGetBasetype s.dtype) := h
    exact iff_of_true rfl trivial
  | other => cases h
  | container c elem ih =>
    obtain ⟨block, info, array, sub, rfl, hdtype, hsub⟩ := Made.container h
    have hbase : isBasetype info.dtype = false := by
      rw [hdtype]
      cases c <;> rfl
    have hlost : (TypePtr.node block info (some array) [sub]).lost = sub.lost := by
      simp [TypePtr.lost, hbase, Heap.lostAll]
    rw [NoEmptyTuple, hlost, ih hsub]
  | tuple ts ih =>
    obtain ⟨block, info, array, subtype, rfl, hdtype, hsub⟩ := Made.tuple h
    have hall : ∀ subtype, MadeEach ts subtype →
        (subtype = [] ↔ ts = []) ∧ (Heap.lostAll subtype = [] ↔ NoEmptyTuples ts) := by
      clear h hsub
      induction ts with
      | nil =>
        intro subtype hsub
        cases subtype with
        | nil => exact ⟨iff_of_true rfl rfl, iff_of_true rfl trivial⟩
        | cons sub subtype => cases hsub
      | cons t ts ihts =>
        intro subtype hsub
        cases subtype with
        | nil => cases hsub
        | cons sub subtype =>
          have hrest := ihts (fun u hu => ih u (List.mem_cons_of_mem t hu)) subtype hsub.2
          refine ⟨by simp, ?_⟩
          rw [Heap.lostAll, NoEmptyTuples, List.append_eq_nil_iff, ih t List.mem_cons_self hsub.1,
            hrest.2]
    obtain ⟨hnil, hlost⟩ := hall subtype hsub
    rw [NoEmptyTuple, Ne, ← hnil, ← hlost]
    unfold TypePtr.lost
    rw [if_neg (by rw [hdtype]; exact Bool.false_ne_true)]
    cases subtype <;> simp

/-! ## `make_type` -/

section MakeType

variable (log : List Access)

theorem mallocNode_owns :
    Traced.Spec Heap.mallocNode log fun added r =>
      ∃ block, r = .ok block ∧ Heap.Owns log added [block] :=
  ⟨_, rfl, _, rfl, Heap.owns_malloc log⟩

theorem mallocArray_owns (n : Nat) :
    Traced.Spec (Heap.mallocArray true n) log fun added r =>
      ∃ array, r = .ok array ∧ ∃ b, array = some b ∧ Heap.Owns log added [b] := by
  unfold Heap.mallocArray
  rw [if_neg (by simp)]
  refine (mallocNode_owns log).bind_ok fun added array howns => spec_pure ?_
  rw [List.append_nil]
  exact ⟨_, rfl, array, rfl, howns⟩

/-- Without blocks, it is `makeType`. -/
theorem makeTypePtr_erase (t : CppType) (log : List Access) :
    Traced.Spec (makeTypePtr t) log fun _ r => ∃ ptr, r = .ok ptr ∧ ptr.erase = makeType t ∧
      (makeType t = .null → ptr = .null) := by
  induction t generalizing log with
  | scalar s =>
    have herase : (staticType (adiakGetBasetype s.dtype)).erase = adiakGetBasetype s.dtype := by
      cases s <;> rfl
    refine spec_pure ⟨_, rfl, herase, fun hnull => ?_⟩
    have hnotnull : adiakGetBasetype s.dtype ≠ .null := by cases s <;> intro h <;> cases h
    exact absurd hnull hnotnull
  | other => exact spec_pure ⟨_, rfl, rfl, fun _ => rfl⟩
  | container c elem ih =>
    rw [makeTypePtr]
    apply (mallocNode_owns log).bind_ok
    intro _ block _
    apply (mallocNode_owns _).bind_ok
    intro _ array _
    apply (ih _).bind_ok
    rintro _ sub ⟨herase, hnull⟩
    rw [makeType]
    cases hmake : makeType elem with
    | null =>
      rw [hnull hmake]
      exact ⟨_, rfl, _, rfl, rfl, fun _ => rfl⟩
    | node info subtype =>
      have hsub : sub ≠ .null := by
        rintro rfl
        rw [hmake] at herase
        cases herase
      rw [makeNode_of_ne_null hsub]
      refine spec_pure ⟨_, rfl, ?_, fun h => by cases h⟩
      rw [TypePtr.erase, Heap.eraseAll, Heap.eraseAll, herase, hmake]
  | tuple ts ih =>
    have hcomps : ∀ log, Traced.Spec (makeTypePtrs ts) log fun _ r =>
        ∃ subtype, r = .ok subtype ∧ Heap.eraseAll subtype = makeTypes ts := by
      clear log
      induction ts with
      | nil => exact fun log => spec_pure ⟨[], rfl, rfl⟩
      | cons t ts ihts =>
        intro log
        rw [makeTypePtrs]
        apply (ihts (fun u hu => ih u (List.mem_cons_of_mem t hu)) log).bind_ok
        intro _ subtype herase
        apply (ih t List.mem_cons_self _).bind_ok
        rintro _ sub ⟨herase', -⟩
        refine spec_pure ⟨_, rfl, ?_⟩
        rw [Heap.eraseAll, makeTypes, herase', herase]
    rw [makeTypePtr]
    apply (mallocNode_owns log).bind_ok
    intro _ block _
    apply (mallocArray_owns _ _).bind_ok
    intro _ array _
    apply (hcomps _).bind_ok
    intro _ subtype herase
    refine spec_pure ⟨_, rfl, ?_, fun hnull => ?_⟩
    · rw [TypePtr.erase, makeType, herase]
    · rw [makeType] at hnull
      cases hnull

/-- What is allocated hangs from the pointer, and nothing is released. -/
theorem makeTypePtr_owns {t : CppType} (ht : t.Supported) (log : List Access) :
    Traced.Spec (makeTypePtr t) log fun added r =>
      ∃ ptr, r = .ok ptr ∧ Heap.Owns log added ptr.blocks ∧ Made t ptr := by
  induction t generalizing log with
  | scalar s =>
    refine spec_pure ⟨_, rfl, ?_, ?_⟩
    · cases s <;> exact Heap.owns_quiet log fun a ha => absurd ha List.not_mem_nil
    · cases s <;> rfl
  | other => cases ht
  | container c elem ih =>
    cases ht with
    | container _ helem =>
      rw [makeTypePtr]
      apply (mallocNode_owns log).bind_ok
      intro added block hblock
      apply (mallocNode_owns _).bind_ok
      intro added' array harray
      apply (ih helem _).bind_ok
      rintro added'' sub ⟨hsub, hmade⟩
      rw [makeNode_of_ne_null (Made.ne_null hmade)]
      have howns := hblock.append (harray.append hsub)
      refine spec_pure ⟨_, rfl, ?_, rfl, hmade⟩
      rw [TypePtr.blocks, Heap.blocksAll, Heap.blocksAll, List.append_nil, List.append_nil]
      exact howns
  | tuple ts ih =>
    cases ht with
    | tuple hlen hts =>
      have hcomps : ∀ log, Traced.Spec (makeTypePtrs ts) log fun added r =>
          ∃ subtype, r = .ok subtype ∧ Heap.Owns log added (Heap.blocksAll subtype) ∧
            MadeEach ts subtype := by
        clear log hlen
        induction ts with
        | nil =>
          exact fun log => spec_pure ⟨[], rfl, Heap.owns_quiet log fun a ha => absurd ha List.not_mem_nil,
            trivial⟩
        | cons t ts ihts =>
          intro log
          rw [makeTypePtrs]
          apply (ihts (fun u hu => ih u (List.mem_cons_of_mem t hu))
            (fun u hu => hts u (List.mem_cons_of_mem t hu)) log).bind_ok
          rintro added subtype ⟨hsubtype, hmadeEach⟩
          apply (ih t List.mem_cons_self (hts t List.mem_cons_self) _).bind_ok
          rintro added' sub ⟨hsub, hmade⟩
          refine spec_pure ⟨_, rfl, ?_, hmade, hmadeEach⟩
          rw [List.append_nil, Heap.blocksAll]
          exact (hsubtype.append hsub).of_perm List.perm_append_comm
      rw [makeTypePtr]
      apply (mallocNode_owns log).bind_ok
      intro added block hblock
      apply (mallocArray_owns _ _).bind_ok
      rintro added' _ ⟨array, rfl, harray⟩
      apply (hcomps _).bind_ok
      rintro added'' subtype ⟨hsubtype, hmade⟩
      refine spec_pure ⟨_, rfl, ?_, rfl, hmade⟩
      rw [List.append_nil]
      exact hblock.append (harray.append hsubtype)

end MakeType

/-! ## `make_value` -/

mutual

/-- Every array has a block. -/
def BlockValue.Filled : BlockValue → Prop
  | .vSubval block elems => block.isSome ∧ FilledEach elems
  | _ => True

def FilledEach : List BlockValue → Prop
  | [] => True
  | v :: vs => v.Filled ∧ FilledEach vs

end

/-- `x` is the value `a` with its blocks: all arrays have one, and they are those that were taken. -/
structure Fills (a : AdiakValue) (x : BlockValue) (ns : List Nat) : Prop where
  value : x.erase = a
  filled : x.Filled
  taken : x.blocks = ns

structure FillsEach (as : List AdiakValue) (xs : List BlockValue) (ns : List Nat) : Prop where
  values : eraseAll xs = as
  filled : FilledEach xs
  taken : blocksOfEach xs = ns

theorem FillsEach.nil : FillsEach [] [] [] := ⟨rfl, trivial, rfl⟩

theorem Fills.cons {a : AdiakValue} {x : BlockValue} {ns : List Nat} {as : List AdiakValue}
    {xs : List BlockValue} {ns' : List Nat} (h : Fills a x ns) (h' : FillsEach as xs ns') :
    FillsEach (a :: as) (x :: xs) (ns ++ ns') := by
  refine ⟨?_, ⟨h.filled, h'.filled⟩, ?_⟩
  · rw [eraseAll, h.value, h'.values]
  · rw [blocksOfEach, h.taken, h'.taken]

theorem FillsEach.array {as : List AdiakValue} {xs : List BlockValue} {ns : List Nat}
    (h : FillsEach as xs ns) (b : Nat) : Fills (.vSubval as) (.vSubval (some b) xs) (b :: ns) := by
  refine ⟨?_, ⟨rfl, h.filled⟩, ?_⟩
  · rw [BlockValue.erase, h.values]
  · rw [BlockValue.blocks, h.taken]
    rfl

/-- What the values `vs` have left of the pointer that `make_type` returned: the counts are theirs, and the
blocks are the same. -/
structure CppType.Counted (t : CppType) (ptr : TypePtr) (vs : List CppValue) (ptr' : TypePtr) : Prop where
  made : t.Made ptr'
  tree : ptr'.erase = (t.tree vs).datatype
  blocks : ptr'.blocks = ptr.blocks
  lost : ptr'.lost = ptr.lost

/-- The copy of a pointer takes a block. -/
theorem copyToBlock_gives {a : AdiakValue} (h : ∀ as, a ≠ .vSubval as) :
    Supply.Gives (Fills a) (copyToBlock a) := by
  cases a with
  | indeterminate => exact Supply.gives_pure ⟨rfl, trivial, rfl⟩
  | vLong x => exact Supply.gives_pure ⟨rfl, trivial, rfl⟩
  | vInt x => exact Supply.gives_pure ⟨rfl, trivial, rfl⟩
  | vDouble x => exact Supply.gives_pure ⟨rfl, trivial, rfl⟩
  | vLonglong x => exact Supply.gives_pure ⟨rfl, trivial, rfl⟩
  | vPtr p =>
    cases p with
    | caller p => exact Supply.gives_pure ⟨rfl, trivial, rfl⟩
    | strdup s => exact Supply.gives_fresh_bind fun b => Supply.gives_pure ⟨rfl, trivial, rfl⟩
    | timeval tv => exact Supply.gives_fresh_bind fun b => Supply.gives_pure ⟨rfl, trivial, rfl⟩
  | vSubval as => exact absurd rfl (h as)

theorem set_ne_vSubval {s : CppScalar} {v : CppValue} {a : AdiakValue} (h : s.set v = .ok a)
    (as : List AdiakValue) : a ≠ .vSubval as := by
  rintro rfl
  unfold CppScalar.set at h
  split at h <;> cases h

/-- `make_value` on a pointer from `make_type` that has made the values `ws` before. -/
def CppType.Makes (t : CppType) : Prop :=
  ∀ {v : CppValue} {ws : List CppValue} {ptr ptr' : TypePtr}, HasType t v → t.Counted ptr ws ptr' →
    Supply.Gives (fun r ns => Fills (t.stored v) r.1 ns ∧ t.Counted ptr (ws ++ [v]) r.2)
      (makeValueBlocks t v ptr')

theorem makeElemsBlocks_gives {elem : CppType} (hmake : elem.Makes) {vs : List CppValue}
    (hvs : ∀ v ∈ vs, HasType elem v) {ws : List CppValue} {ptr ptr' : TypePtr}
    (h : elem.Counted ptr ws ptr') :
    Supply.Gives (fun r ns => FillsEach (vs.map fun v => elem.stored v) r.1 ns ∧
        elem.Counted ptr (ws ++ vs) r.2)
      (makeElemsBlocks (fun v d => makeValueBlocks elem v d) vs ptr') := by
  induction vs generalizing ws ptr' with
  | nil =>
    refine Supply.gives_pure ⟨.nil, ?_⟩
    rwa [List.append_nil]
  | cons v vs ih =>
    obtain ⟨hv, hvs⟩ := List.forall_mem_cons.mp hvs
    rw [makeElemsBlocks]
    apply (hmake hv h).bind
    rintro ⟨x, ptr₁⟩ ns ⟨hx, h₁⟩
    apply (ih hvs h₁).bind
    rintro ⟨xs, ptr₂⟩ ns' ⟨hxs, h₂⟩
    refine Supply.gives_pure ⟨?_, ?_⟩
    · rw [List.append_nil, List.map_cons]
      exact hx.cons hxs
    · rwa [List.append_assoc] at h₂

/-- The same for the pointers to the components of a tuple. -/
structure CountedEach (ts : List CppType) (subtype : List TypePtr) (rows : List (List CppValue))
    (subtype' : List TypePtr) : Prop where
  made : MadeEach ts subtype'
  trees : Heap.eraseAll subtype' = (trees ts rows).map TypeTree.datatype
  blocks : Heap.blocksAll subtype' = Heap.blocksAll subtype
  lost : Heap.lostAll subtype' = Heap.lostAll subtype

theorem makeCompsBlocks_gives {ts : List CppType} (hmake : ∀ t ∈ ts, t.Makes) {vs : List CppValue}
    (hvs : HasTypes ts vs) {rows : List (List CppValue)} {subtype : List TypePtr}
    (h : CountedEach ts subtype rows subtype) :
    Supply.Gives (fun r ns => FillsEach (storedSeq ts vs) r.1 ns ∧
        CountedEach ts subtype (rows ++ [vs]) r.2)
      (makeCompsBlocks ts vs subtype) := by
  induction ts generalizing vs rows subtype with
  | nil =>
    cases vs with
    | nil => exact Supply.gives_pure ⟨.nil, h.made, h.trees, rfl, rfl⟩
    | cons v vs => cases hvs
  | cons t ts ih =>
    cases vs with
    | nil => cases hvs
    | cons v vs =>
      cases subtype with
      | nil => cases h.made
      | cons sub subtype =>
        have htrees := h.trees
        rw [Heap.eraseAll, CppType.trees, List.map_cons] at htrees
        obtain ⟨hsub, hsubtype⟩ := List.cons.inj htrees
        rw [makeCompsBlocks]
        apply (hmake t List.mem_cons_self hvs.1 ⟨h.made.1, hsub, rfl, rfl⟩).bind
        rintro ⟨x, sub'⟩ ns ⟨hx, hcounted⟩
        apply (ih (fun u hu => hmake u (List.mem_cons_of_mem t hu)) hvs.2
          ⟨h.made.2, hsubtype, rfl, rfl⟩).bind
        rintro ⟨xs, subtype'⟩ ns' ⟨hxs, hcountedEach⟩
        refine Supply.gives_pure ⟨?_, ?_⟩
        · rw [List.append_nil, storedSeq]
          exact hx.cons hxs
        · refine ⟨⟨hcounted.made, hcountedEach.made⟩, ?_, ?_, ?_⟩
          · rw [Heap.eraseAll, CppType.trees, List.map_cons, List.filterMap_append, List.map_append,
              hcounted.tree, hcountedEach.trees]
            rfl
          · rw [Heap.blocksAll, Heap.blocksAll, hcounted.blocks, hcountedEach.blocks]
          · rw [Heap.lostAll, Heap.lostAll, hcounted.lost, hcountedEach.lost]

/-- `make_value` makes the value, counts in the type, and leaves the blocks of the type as they are. -/
theorem makeValueBlocks_gives (t : CppType) : t.Makes := by
  induction t with
  | scalar s =>
    intro v ws ptr ptr' hv h
    rw [makeValueBlocks]
    refine Supply.gives_lift_bind (set_eq hv) ?_
    refine (copyToBlock_gives (set_ne_vSubval (set_eq hv))).bind fun x ns hx => Supply.gives_pure ?_
    rw [List.append_nil]
    exact ⟨hx, h.made, h.tree, h.blocks, h.lost⟩
  | other =>
    intro v ws ptr ptr' hv
    cases v <;> cases hv
  | container c elem ih =>
    intro v ws ptr ptr' hv h
    cases v with
    | elems es =>
      obtain ⟨block, info, array, sub, rfl, hdtype, hsub⟩ := Made.container h.made
      have htree := h.tree
      rw [TypePtr.erase, tree, TypeTree.datatype] at htree
      obtain ⟨rfl, helem⟩ := AdiakDatatype.node.inj htree
      have hcounted : elem.Counted sub (ws.flatMap CppValue.elements) sub :=
        ⟨hsub, (List.cons.inj helem).1, rfl, rfl⟩
      rw [makeValueBlocks]
      refine Supply.gives_fresh_bind fun valarray => ?_
      apply (makeElemsBlocks_gives ih hv.2 hcounted).bind
      rintro ⟨xs, sub'⟩ ns ⟨hxs, hsub'⟩
      refine Supply.gives_pure ⟨?_, ?_⟩
      · rw [List.append_nil, stored]
        exact hxs.array valarray
      · refine ⟨⟨hdtype, hsub'.made⟩, ?_, ?_, ?_⟩
        · rw [TypePtr.erase, tree, TypeTree.datatype, Heap.eraseAll, Heap.eraseAll, hsub'.tree,
            lastLength_append, List.flatMap_append, containerNode_setCount, List.flatMap_singleton]
          rfl
        · rw [← h.blocks]
          simp only [TypePtr.blocks, Heap.blocksAll, hsub'.blocks]
        · rw [← h.lost]
          simp only [TypePtr.lost, Heap.lostAll, Heap.blocksAll, hsub'.blocks, hsub'.lost]
    | _ => cases hv
  | tuple ts ih =>
    intro v ws ptr ptr' hv h
    cases v with
    | elems es =>
      obtain ⟨block, info, array, subtype, rfl, hdtype, hsub⟩ := Made.tuple h.made
      have htree := h.tree
      rw [TypePtr.erase, tree, TypeTree.datatype, TypeTree.datatypes_eq_map] at htree
      obtain ⟨rfl, hcomps⟩ := AdiakDatatype.node.inj htree
      rw [makeValueBlocks]
      refine Supply.gives_fresh_bind fun valarray => ?_
      apply (makeCompsBlocks_gives ih hv ⟨hsub, hcomps, rfl, rfl⟩).bind
      rintro ⟨xs, subtype'⟩ ns ⟨hxs, hsub'⟩
      refine Supply.gives_pure ⟨?_, ?_⟩
      · rw [List.append_nil, stored]
        exact hxs.array valarray
      · refine ⟨⟨hdtype, hsub'.made⟩, ?_, ?_, ?_⟩
        · rw [TypePtr.erase, tree, TypeTree.datatype, TypeTree.datatypes_eq_map, List.map_append,
            length_trees, length_trees, hsub'.trees]
          rfl
        · rw [← h.blocks]
          simp only [TypePtr.blocks, hsub'.blocks]
        · rw [← h.lost]
          have hlen := hsub'.made.length.trans hsub.length.symm
          cases subtype with
          | nil =>
            obtain rfl := List.length_eq_zero_iff.mp hlen
            rfl
          | cons sub subtype =>
            cases subtype' with
            | nil => cases hlen
            | cons sub' subtype' => simp only [TypePtr.lost, hsub'.blocks, hsub'.lost]
    | _ => cases hv

end Adiak
