import Adiak.Cpp.Balanced
import Adiak.Store.Owned

/-!
# What `adiak::value` hands over

1. `MadeArg` is what is made of the objects passed: the value and the datatype of `valueArgs`, with the
   blocks that were taken for them.
2. `makeArg_gives`: it is made, and the value releases all its blocks if and only if the objects are
   balanced.
3. `Offered` are the requests of `adiak::value` with what it hands over (`valueRequests_offered`).
-/

namespace Adiak

open Allocator (Request)

open Heap (TypePtr Access)

open Traced (spec_pure)

open CppType

/-! ## The type -/

/-- What is allocated hangs from the pointer, which no value has been counted in. -/
theorem makeTypePtr_counted {t : CppType} (ht : t.Supported) (log : List Access) :
    Traced.Spec (makeTypePtr t) log fun added r =>
      ∃ ptr, r = .ok ptr ∧ Heap.Owns log added ptr.blocks ∧ t.Counted ptr [] ptr := by
  obtain ⟨added, hlog, ptr, hok, howns, hmade⟩ := makeTypePtr_owns ht log
  obtain ⟨-, -, ptr', hok', herase, -⟩ := makeTypePtr_erase t log
  obtain rfl := Except.ok.inj (hok.symm.trans hok')
  exact ⟨added, hlog, ptr, hok, howns, hmade, herase.trans (makeType_eq ht), rfl, rfl⟩

theorem makeRangePtr_counted {t : CppType} (ht : t.Supported) (log : List Access) :
    Traced.Spec (makeRangePtr t) log fun added r => ∃ block array sub,
      r = .ok (.node block cppRangeNode (some array) [sub]) ∧
        Heap.Owns log added (TypePtr.node block cppRangeNode (some array) [sub]).blocks ∧
        t.Counted sub [] sub := by
  unfold makeRangePtr
  apply (mallocNode_owns log).bind_ok
  intro added block hblock
  apply (mallocNode_owns _).bind_ok
  intro added' array harray
  apply (makeTypePtr_counted ht _).bind_ok
  rintro added'' sub ⟨hsub, hcounted⟩
  rw [makeNode_of_ne_null (Made.ne_null hcounted.made)]
  refine spec_pure ⟨_, _, _, rfl, ?_, hcounted⟩
  rw [TypePtr.blocks, Heap.blocksAll, Heap.blocksAll, List.append_nil, List.append_nil]
  exact hblock.append (harray.append hsub)

/-! ## The value -/

/-- What is made of the objects passed to `adiak::value`, from a pointer that `make_type` returned. -/
structure MadeArg (t : CppType) (arg : CppArg) (ptr ptr' : TypePtr) (x : BlockValue) (ns : List Nat) :
    Prop where
  args : valueArgs t arg = .ok (x.erase, ptr'.erase)
  taken : x.blocks = ns
  blocks : ptr'.blocks = ptr.blocks
  static : Access.freeStatic ∉ ptr'.released
  lost : ptr'.lost = [] ↔ t.NoEmptyTuple
  releases : Releases ptr'.erase x x.blocks ↔ t.Balanced arg.values
  none : x.blocks = [] → t.Balanced arg.values

theorem madeArg_one {t : CppType} (ht : t.Supported) {v : CppValue} (hv : HasType t v)
    {ptr ptr' : TypePtr} {x : BlockValue} {ns : List Nat} (hx : Fills (t.stored v) x ns)
    (hptr : t.Counted ptr [v] ptr') : MadeArg t (.one v) ptr ptr' x ns where
  args := by rw [valueArgs_one ht hv, hx.value, hptr.tree]
  taken := hx.taken
  blocks := hptr.blocks
  static := Made.static hptr.made
  lost := Made.lost hptr.made
  releases := by
    rw [hptr.tree, releases_iff_covers hv hx, CppArg.values,
      ← covers_iff_balanced (List.forall_mem_singleton.mpr hv), List.forall_mem_singleton]
  none := by
    intro hnone
    rw [CppArg.values, ← covers_iff_balanced (List.forall_mem_singleton.mpr hv), List.forall_mem_singleton]
    exact covers_of_not_takesBlocks ((fills_blocks hv hx).mp hnone) _ _

theorem madeArg_range {t : CppType} (ht : t.Supported) {a b : CppValue} (ha : HasType t a)
    (hb : HasType t b) {block array values : Nat} {sub sub' : TypePtr} {x y : BlockValue}
    {ns ns' : List Nat} (hx : Fills (t.stored a) x ns) (hy : Fills (t.stored b) y ns')
    (hsub : t.Counted sub [a, b] sub') :
    MadeArg t (.range a b) (.node block cppRangeNode (some array) [sub])
      (.node block cppRangeNode (some array) [sub']) (.vSubval (some values) [x, y])
      (values :: (ns ++ ns')) where
  args := by
    rw [valueArgs_range ht ha hb, BlockValue.erase, eraseAll, eraseAll, eraseAll, hx.value, hy.value,
      TypePtr.erase, Heap.eraseAll, Heap.eraseAll, hsub.tree]
  taken := by
    rw [BlockValue.blocks, blocksOfEach, blocksOfEach, blocksOfEach, hx.taken, hy.taken, List.append_nil]
    rfl
  blocks := by simp only [TypePtr.blocks, Heap.blocksAll, hsub.blocks]
  static := by
    have hbase : isBasetype cppRangeNode.dtype = false := rfl
    simp [TypePtr.released, Heap.releasedAll, hbase, Made.static hsub.made]
  lost := by
    have hbase : isBasetype cppRangeNode.dtype = false := rfl
    rw [← Made.lost hsub.made]
    simp [TypePtr.lost, Heap.lostAll, hbase]
  releases := by
    have hab : ∀ v ∈ [a, b], HasType t v := by simp [ha, hb]
    have hrange : (TypePtr.node block cppRangeNode (some array) [sub']).erase =
        .node { containerNode .range false 2 with numerical := .unset } [(t.tree [a, b]).datatype] := by
      rw [TypePtr.erase, Heap.eraseAll, Heap.eraseAll, hsub.tree]
      rfl
    have hnode := releases_container_iff (t := .range false (t.tree [a, b])) rfl values [x, y]
    unfold Releases at hnode ⊢
    rw [hrange, releaseBlocks_numerical, CppArg.values, ← covers_iff_balanced hab]
    refine hnode.trans ?_
    rw [ReleasesEach, ReleasesEach, List.headD_cons, List.tail_cons, List.headD_cons, List.tail_cons,
      releases_iff_covers ha hx, releases_iff_covers hb hy]
    simp [ReleasesEach]
  none := fun hnone => absurd hnone (List.cons_ne_nil _ _)

/-- What is passed to `adiak::value` is made with blocks of its own. -/
theorem makeArg_gives {t : CppType} {arg : CppArg} (ht : t.Supported)
    (harg : ∀ v ∈ arg.values, HasType t v) (log : List Access) :
    Traced.Spec (makeArgPtr t arg) log fun added r => ∃ ptr, r = .ok ptr ∧ ptr ≠ .null ∧
      Heap.Owns log added ptr.blocks ∧
      Supply.Gives (fun r ns => MadeArg t arg ptr r.2 r.1 ns) (makeArgBlocks t arg ptr) := by
  cases arg with
  | one v =>
    have hv := harg v List.mem_cons_self
    refine (makeTypePtr_counted ht log).mono ?_
    rintro added r ⟨ptr, rfl, howns, hptr⟩
    refine ⟨ptr, rfl, Made.ne_null hptr.made, howns, ?_⟩
    exact (makeValueBlocks_gives t hv hptr).mono fun ⟨x, ptr'⟩ ns ⟨hx, hptr'⟩ =>
      madeArg_one ht hv hx hptr'
  | range a b =>
    have ha := harg a List.mem_cons_self
    have hb := harg b (List.mem_cons_of_mem a List.mem_cons_self)
    refine (makeRangePtr_counted ht log).mono ?_
    rintro added r ⟨block, array, sub, rfl, howns, hsub⟩
    refine ⟨_, rfl, nofun, howns, ?_⟩
    unfold makeArgBlocks
    refine Supply.gives_fresh_bind fun values => ?_
    refine (makeValueBlocks_gives t ha hsub).bind fun ⟨x, sub₁⟩ ns ⟨hx, hsub₁⟩ => ?_
    refine (makeValueBlocks_gives t hb hsub₁).bind fun ⟨y, sub₂⟩ ns' ⟨hy, hsub₂⟩ =>
      Supply.gives_pure ?_
    rw [List.append_nil]
    exact madeArg_range ht ha hb hx hy hsub₂

/-! ## The requests -/

/-- What `adiak::value` hands over, and how it came by it. -/
structure Offered (t : CppType) (arg : CppArg) (call : Nat) (requests : List (Request StoreBlock))
    (offer : Offer) : Prop where
  args : valueArgs t arg = .ok (offer.value.erase, offer.dtype.erase)
  run : Allocator.run 0 requests = some (offer.blocks call : Multiset StoreBlock)
  mallocs : (Allocator.mallocs requests).Perm (offer.blocks call)
  sound : offer.Sound
  lost : offer.dtype.lost = [] ↔ t.NoEmptyTuple
  left : offer.left = [] ↔ t.Balanced arg.values
  releases : Releases offer.dtype.erase offer.value (List.range offer.taken) ↔ t.Balanced arg.values

theorem valueRequests_offered {t : CppType} {arg : CppArg} (ht : t.Supported)
    (harg : ∀ v ∈ arg.values, HasType t v) (call : Nat) :
    ∃ requests offer, valueRequests call t arg = .ok (requests, some offer) ∧
      Offered t arg call requests offer := by
  obtain ⟨added, hlog, ptr, hok, hne, howns, hgives⟩ := makeArg_gives ht harg []
  rw [List.nil_append] at hlog
  obtain ⟨⟨x, ptr'⟩, k, hmake, hmade⟩ := hgives 0
  rw [Nat.zero_add] at hmake
  let offer : Offer := { value := x, taken := k, dtype := ptr' }
  let requests := (Heap.requests added).map (Request.map (StoreBlock.dtype call)) ++
    (valueMallocs call k arg).map .malloc
  have hrequests : valueRequests call t arg = .ok (requests, some offer) := by
    unfold valueRequests
    dsimp only
    rw [hlog, hok]
    cases ptr with
    | null => exact absurd rfl hne
    | static t' =>
      dsimp only
      rw [hmake]
    | node block info array subtype =>
      dsimp only
      rw [hmake]
  have hblocks : (valueMallocs call k arg ++ ptr.blocks.map (StoreBlock.dtype call)).Perm (offer.blocks call) := by
    unfold Offer.blocks
    rw [hmade.blocks, ← List.cons_append]
    refine List.Perm.append_right _ ?_
    cases arg with
    | one v => exact .refl _
    | range a b => exact List.perm_append_comm
  have hrun : Allocator.run 0 requests = some (offer.blocks call : Multiset StoreBlock) := by
    have htypes := Allocator.run_map (StoreBlock.dtype call) howns.accepted
    rw [Multiset.map_zero, Multiset.map_coe] at htypes
    rw [← Multiset.coe_eq_coe.mpr hblocks, ← Multiset.coe_add]
    exact Allocator.run_trans htypes (Allocator.run_mallocs _ _)
  have hsound : offer.Sound := by
    refine ⟨fun bs hbs => ?_, ?_, hmade.static⟩
    · rw [List.range_eq_range', ← hmade.taken]
      exact releaseBlocks_subperm hbs
    · rw [hmade.blocks]
      apply howns.mallocs.nodup_iff.mp
      rw [howns.numbered]
      exact List.nodup_range'
  have hvalues : x.blocks = List.range k := hmade.taken.trans List.range_eq_range'.symm
  refine ⟨requests, offer, hrequests, hmade.args, hrun, ?_, hsound, hmade.lost, ?_, hvalues ▸ hmade.releases⟩
  · have hfrees : Allocator.frees requests = [] := by
      have hkept : Allocator.frees (Heap.requests _) = [] := howns.kept
      rw [Allocator.frees_append, Allocator.frees_map, hkept, Allocator.frees_map_malloc]
      rfl
    have hbalance := Allocator.run_balance hrun
    rw [hfrees, Multiset.coe_nil, zero_add, zero_add] at hbalance
    exact Multiset.coe_eq_coe.mp hbalance
  · rw [hsound.left_iff, ← hmade.releases]
    dsimp only [offer]
    rw [← hvalues]
    refine or_iff_left_of_imp fun hnone => hmade.releases.mpr (hmade.none ?_)
    rw [hvalues, hnone]
    rfl

/-- `free_adiak_value` and `free_adiak_type` on what `adiak::value` hands over release everything that it has
allocated, each block once, if and only if at every node of the type whose elements take blocks all
containers have one length, and no tuple is empty. -/
theorem value_releases_iff {t : CppType} {arg : CppArg} (ht : t.Supported)
    (harg : ∀ v ∈ arg.values, HasType t v) (call : Nat) :
    ∃ requests offer, valueRequests call t arg = .ok (requests, some offer) ∧
      valueArgs t arg = .ok (offer.value.erase, offer.dtype.erase) ∧
      Allocator.run 0 requests = some (offer.blocks call : Multiset StoreBlock) ∧
      ((∃ bs, (Holding.mk call call true offer).releaseValue = .ok bs ∧
          Allocator.run 0 (requests ++ bs.map .free) = some 0) ↔
        t.Balanced arg.values ∧ t.NoEmptyTuple) := by
  obtain ⟨requests, offer, hrequests, h⟩ := valueRequests_offered ht harg call
  refine ⟨requests, offer, hrequests, h.args, h.run, ?_⟩
  let holding : Holding := ⟨call, call, true, offer⟩
  -- what is released leaves what is lost of the offer
  have hlost : ∀ bs, holding.releaseValue = .ok bs →
      Allocator.run 0 (requests ++ bs.map .free) = some (offer.lost call : Multiset StoreBlock) := by
    intro bs hbs
    have hperm : bs.Perm holding.valueBlocks := by
      obtain ⟨bs₁, hvalue, -⟩ := bind_eq_ok.mp hbs
      obtain ⟨bs₂, hbs₂, hperm⟩ := Holding.releaseValue_perm (h := holding) h.sound hvalue
      obtain rfl := Except.ok.inj (hbs.symm.trans hbs₂)
      exact hperm
    have hall := (blocks_perm holding h.sound).trans (hperm.symm.append_right _)
    have hrun := h.run
    rw [Multiset.coe_eq_coe.mpr hall, ← Multiset.coe_add] at hrun
    exact Allocator.run_trans hrun (Allocator.run_frees _ _)
  have hiff : (offer.lost call : Multiset StoreBlock) = 0 ↔ t.Balanced arg.values ∧ t.NoEmptyTuple := by
    rw [Multiset.coe_eq_zero, Offer.lost_eq_nil, h.left, h.lost]
  rw [← hiff]
  constructor
  · rintro ⟨bs, hbs, hrun⟩
    exact Option.some.inj ((hlost bs hbs).symm.trans hrun)
  · intro hzero
    obtain ⟨bs, hbs, -⟩ := h.releases.mpr (hiff.mp hzero).1
    obtain ⟨bs', hbs', -⟩ := Holding.releaseValue_perm (h := holding) h.sound hbs
    refine ⟨bs', hbs', (hlost bs' hbs').trans ?_⟩
    rw [hzero]

/-- Vectors of one and of two integers in a vector: the worker forms the address of a second integer of
the first one, and does not read it. -/
theorem value_releases_iff_vector : ∃ requests offer,
    valueRequests 0 (.container .vector (.container .vector (.scalar .int)))
      (.one (.elems [.elems [.integer 1], .elems [.integer 1, .integer 2]])) = .ok (requests, some offer) ∧
    ∃ bs, (Holding.mk 0 0 true offer).releaseValue = .ok bs ∧
      Allocator.run 0 (requests ++ bs.map .free) = some 0 := by
  have hint : ∀ x : Int, x = 1 ∨ x = 2 → CppScalar.HasValue .int (.integer x) := fun x hx =>
    ⟨.int, rfl, by
      show (-256 ^ 4 : Int) ≤ 2 * x ∧ (2 * x : Int) < 256 ^ 4
      omega⟩
  have harg : ∀ v ∈ (CppArg.one (.elems [.elems [.integer 1], .elems [.integer 1, .integer 2]])).values,
      HasType (.container .vector (.container .vector (.scalar .int))) v := by
    simp [CppArg.values, HasType, CppContainer.HasLength, hint]
  obtain ⟨requests, offer, hrequests, -, -, hiff⟩ :=
    value_releases_iff (.container _ (.container _ (.scalar _))) harg 0
  refine ⟨requests, offer, hrequests, hiff.mpr ⟨⟨fun _ => ⟨2, by decide, ?_⟩,
    fun h => absurd h Bool.false_ne_true, trivial⟩, trivial⟩⟩
  simp [CppArg.values, CppValue.elements]

end Adiak
