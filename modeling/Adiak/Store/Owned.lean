import Mathlib.Tactic.Abel
import Adiak.Store.Handed

/-!
# Every block has one owner

What is allocated at any time is what the records on the list own, the tools, and what was lost on the
way.

1. `Holding.blocks` are the blocks of a record. What is released with it are these
   (`Holding.Fits.releaseValue`).
2. `Owned` is the invariant.
3. Recording keeps it, and adds to what is lost the blocks of the datatype that no release comes to
   (`Owned.rawNamevalue`).
-/

namespace Adiak

open Allocator (Request)

open Heap (Access)

/-! ## What a record owns -/

/-- The value and the datatype, but for what is lost of it. -/
def Holding.valueBlocks (h : Holding) : List StoreBlock :=
  .cell h.written :: (h.offer.owned.map (.value h.written) ++
    (Heap.frees h.offer.dtype.released).map (.dtype h.written))

/-- The blocks of a record. -/
def Holding.blocks (h : Holding) : List StoreBlock :=
  .record h.created :: .name h.created :: (h.valueBlocks ++ infoBlocks h.written h.subcategory)

/-- The blocks of an offer that no release comes to. -/
def Offer.lost (offer : Offer) (call : Nat) : List StoreBlock :=
  offer.left.map (.value call) ++ offer.dtype.lost.map (.dtype call)

theorem Offer.lost_eq_nil {offer : Offer} {call : Nat} :
    offer.lost call = [] ↔ offer.left = [] ∧ offer.dtype.lost = [] := by
  unfold Offer.lost
  rw [List.append_eq_nil_iff, List.map_eq_nil_iff, List.map_eq_nil_iff]

theorem blocks_perm (h : Holding) (hsound : h.offer.Sound) :
    (h.offer.blocks h.written).Perm (h.valueBlocks ++ h.offer.lost h.written) := by
  have hvalue := hsound.owned_perm.map (StoreBlock.value h.written)
  have hdtype := (Heap.frees_released h.offer.dtype).map (StoreBlock.dtype h.written)
  rw [List.map_append] at hvalue hdtype
  unfold Offer.blocks Holding.valueBlocks Offer.lost
  rw [List.cons_append]
  refine List.Perm.cons _ ((hvalue.symm.append hdtype.symm).trans ?_)
  rw [List.append_assoc, List.append_assoc]
  exact (List.perm_append_comm_assoc _ _ _).append_left _

theorem Offer.Sound.nodup_blocks {offer : Offer} (h : offer.Sound) (call : Nat) :
    (offer.blocks call).Nodup := nodup_handed List.nodup_range h.nodup

/-- The record is that of the value and the datatype. -/
structure Holding.Fits (h : Holding) (r : Record) : Prop where
  value : h.offer.value.erase = r.value
  dtype : h.offer.dtype.erase = r.dtype
  sound : h.offer.Sound

/-- Where the value may be released, it is, with its datatype. -/
theorem Holding.releaseValue_perm {h : Holding} (hsound : h.offer.Sound) {bs : List Nat}
    (hbs : releaseBlocks h.offer.dtype.erase h.offer.value = .ok bs) :
    ∃ bs, h.releaseValue = .ok bs ∧ bs.Perm h.valueBlocks := by
  refine ⟨bs.map (.value h.written) ++
    .cell h.written :: (Heap.frees h.offer.dtype.released).map (.dtype h.written), ?_, ?_⟩
  · unfold Holding.releaseValue releaseType
    rw [hbs, ok_bind, if_neg hsound.static, ok_bind]
  · rw [Holding.valueBlocks, Offer.owned_eq hbs]
    exact List.perm_middle

theorem Holding.Fits.releaseValue {h : Holding} {r : Record} (hfits : h.Fits r)
    (hfree : freeAdiakValue r.dtype r.value = .ok ()) :
    ∃ bs, h.releaseValue = .ok bs ∧ bs.Perm h.valueBlocks := by
  have hok : (releaseBlocks h.offer.dtype.erase h.offer.value).isOk = true := by
    rw [releaseBlocks_isOk, hfits.value, hfits.dtype]
    unfold freeAdiakValue at hfree
    split_ifs at hfree with hworker
    exact hworker
  obtain ⟨bs, hbs⟩ := exists_of_isOk hok
  exact Holding.releaseValue_perm hfits.sound hbs

/-- The blocks of the records at these addresses. -/
def blocksOf (holding : Nat → Option Holding) (ps : List Nat) : List StoreBlock :=
  ps.flatMap fun p => (holding p).elim [] Holding.blocks

section BlocksOf

variable {holding : Nat → Option Holding} {ps : List Nat} {p : Nat}

theorem blocksOf_update (x : Option Holding) (hp : p ∉ ps) :
    blocksOf (Function.update holding p x) ps = blocksOf holding ps := by
  unfold blocksOf
  refine List.flatMap_congr fun q hq => ?_
  rw [Function.update_of_ne]
  rintro rfl
  exact hp hq

/-- The blocks of one record, and those of the others. -/
theorem blocksOf_mem (holding : Nat → Option Holding) (hnodup : ps.Nodup) (hp : p ∈ ps) :
    ∃ others, ∀ (h : Holding) (holding' : Nat → Option Holding), holding' p = some h →
      (∀ q, q ≠ p → holding' q = holding q) → (blocksOf holding' ps).Perm (h.blocks ++ others) := by
  obtain ⟨before, after, rfl⟩ := List.append_of_mem hp
  obtain ⟨hbefore, hafter⟩ : p ∉ before ∧ p ∉ after := by
    have hall := List.nodup_middle.mp hnodup
    have hnot := (List.nodup_cons.mp hall).1
    exact ⟨fun h => hnot (List.mem_append_left _ h), fun h => hnot (List.mem_append_right _ h)⟩
  refine ⟨blocksOf holding before ++ blocksOf holding after, fun h holding' hself hother => ?_⟩
  have hsame : ∀ qs : List Nat, p ∉ qs → blocksOf holding' qs = blocksOf holding qs := by
    intro qs hqs
    refine List.flatMap_congr fun q hq => ?_
    rw [hother q]
    rintro rfl
    exact hqs hq
  show (blocksOf holding' (before ++ p :: after)).Perm _
  have hsplit : blocksOf holding' (before ++ p :: after) =
      blocksOf holding' before ++ (h.blocks ++ blocksOf holding' after) := by
    unfold blocksOf
    rw [List.flatMap_append, List.flatMap_cons, hself]
    rfl
  rw [hsplit, hsame before hbefore, hsame after hafter]
  exact List.perm_append_comm_assoc _ _ _

end BlocksOf

/-! ## The invariant -/

/-- The blocks of the records at these addresses, those of the tools, and what was lost. -/
def OwnedState.allocated (o : OwnedState) (ps : List Nat) (lost : Multiset StoreBlock) :
    Multiset StoreBlock :=
  (blocksOf o.holding ps : Multiset StoreBlock) + (o.state.toolBlocks : Multiset StoreBlock) + lost

/-- The records `rs` are the list, they own their blocks, and `lost` is what else is allocated besides
the tools. -/
structure Owned (o : OwnedState) (rs : List (Nat × Record)) (lost : Multiset StoreBlock) : Prop where
  holds : Holds o.state rs
  fits : ∀ x ∈ rs, ∃ h, o.holding x.1 = some h ∧ h.Fits x.2
  sound : Allocator.Sound o.log (o.allocated (rs.map Prod.fst) lost)
  calls : ∀ b ∈ Allocator.mallocs o.log, ∀ call, b.call = some call → call < o.calls
  tools : ∀ id, .tool id ∈ Allocator.mallocs o.log → id < o.state.toolBrk

section Owned

variable {o : OwnedState} {rs : List (Nat × Record)} {lost : Multiset StoreBlock}

theorem Owned.nodup (h : Owned o rs lost) : (rs.map Prod.fst).Nodup := h.holds.list.nodup

/-- A block of a new registration is new. -/
theorem Owned.not_mem (h : Owned o rs lost) {b : StoreBlock} (hb : b.call = some o.calls) :
    b ∉ Allocator.mallocs o.log := fun hmem => Nat.lt_irrefl _ (h.calls b hmem _ hb)

/-- A call that asks for blocks of its own registration only. -/
theorem Owned.extend (h : Owned o rs lost) {o' : OwnedState} {rs' : List (Nat × Record)}
    {lost' : Multiset StoreBlock} {requests : List (Request StoreBlock)}
    (hholds : Holds o'.state rs') (hfits : ∀ x ∈ rs', ∃ h, o'.holding x.1 = some h ∧ h.Fits x.2)
    (hrun : Allocator.run (o.allocated (rs.map Prod.fst) lost) requests =
      some (o'.allocated (rs'.map Prod.fst) lost'))
    (hnodup : (Allocator.mallocs requests).Nodup)
    (hnew : ∀ b ∈ Allocator.mallocs requests, b.call = some o.calls)
    (hlog : o'.log = o.log ++ requests) (hcalls : o'.calls = o.calls + 1)
    (htoolBrk : o'.state.toolBrk = o.state.toolBrk) : Owned o' rs' lost' := by
  refine ⟨hholds, hfits, ?_, ?_, ?_⟩
  · rw [hlog]
    exact h.sound.append hrun hnodup fun b hb => h.not_mem (hnew b hb)
  · intro b hb call hcall
    rw [hlog, Allocator.mallocs_append] at hb
    rw [hcalls]
    rcases List.mem_append.mp hb with hb | hb
    · exact Nat.lt_succ_of_lt (h.calls b hb call hcall)
    · rw [hnew b hb] at hcall
      obtain rfl := Option.some.inj hcall
      exact Nat.lt_succ_self _
  · intro id hb
    rw [hlog, Allocator.mallocs_append] at hb
    rw [htoolBrk]
    rcases List.mem_append.mp hb with hb | hb
    · exact h.tools id hb
    · cases hnew _ hb

/-! ## Recording -/

/-- A new name, or a known one whose value may be released. -/
theorem recordNameval_cases {s s' : AdiakState} {e : Event} {info : RecordInfo} (h : Holds s rs)
    (hrec : recordNameval s e = .ok (s', info)) :
    (s.findRecordByName e.name = .ok none ∧ e.name ∉ rs.map (fun x => x.2.name) ∧ s' = addRecord s e) ∨
      ∃ x ∈ rs, s.findRecordByName e.name = .ok (some x.1) ∧ x.2.name = e.name ∧
        freeAdiakValue x.2.dtype x.2.value = .ok () ∧ s' = overwriteRecord s x.1 x.2 e := by
  unfold recordNameval at hrec
  rw [h.findRecordByName_eq] at hrec ⊢
  rw [ok_bind] at hrec
  cases hx : rs.find? fun x => x.2.name = e.name with
  | none =>
    rw [hx] at hrec
    refine .inl ⟨rfl, fun hmem => ?_, (Prod.mk.inj (Except.ok.inj hrec)).1.symm⟩
    obtain ⟨x, hx', hname⟩ := List.mem_map.mp hmem
    exact absurd (List.find?_eq_none.mp hx x hx') (by simpa using hname)
  | some x =>
    obtain ⟨hmem, hname, hderef⟩ := h.find_mem hx
    rw [hx] at hrec
    simp only [Option.map_some, hderef, ok_bind] at hrec
    obtain ⟨⟨⟩, hfree, hrec⟩ := bind_eq_ok.mp hrec
    exact .inr ⟨x, hmem, rfl, hname, hfree, (Prod.mk.inj (Except.ok.inj hrec)).1.symm⟩

/-- The requests of `record_nameval` are for blocks of its own. -/
def Records (call : Nat) (requests : List (Request StoreBlock)) : Prop :=
  (Allocator.mallocs requests).Nodup ∧
    ∀ b ∈ Allocator.mallocs requests, b.call = some call ∧ b.isHanded = false

theorem infoBlocks_mem {call : Nat} {subcategory : Bool} {b : StoreBlock}
    (hb : b ∈ infoBlocks call subcategory) : b = .subcategory call ∨ b = .info call := by
  unfold infoBlocks subcategoryBlocks at hb
  cases subcategory with
  | false => exact .inr (by simpa using hb)
  | true => simpa using hb

theorem infoBlocks_nodup (call : Nat) (subcategory : Bool) : (infoBlocks call subcategory).Nodup := by
  unfold infoBlocks subcategoryBlocks
  cases subcategory <;> simp

/-- A new record owns what it was handed and what is allocated for it. -/
theorem recordOwned_new (h : Owned o rs lost) {e : Event} {offer : Offer} (hoffer : offer.Sound)
    (hfind : o.state.findRecordByName e.name = .ok none) :
    ∃ (holding : Nat → Option Holding) (requests : List (Request StoreBlock)) (x : Holding),
      recordOwned o e offer = .ok (holding, requests) ∧ Records o.calls requests ∧ x.offer = offer ∧
      holding = Function.update o.holding o.state.brk (some x) ∧
      Allocator.run ((offer.blocks o.calls : Multiset StoreBlock) +
          (blocksOf o.holding (rs.map Prod.fst) : Multiset StoreBlock)) requests =
        some ((blocksOf holding (o.state.brk :: rs.map Prod.fst) : Multiset StoreBlock) +
          (offer.lost o.calls : Multiset StoreBlock)) := by
  let x : Holding := {
    created := o.calls
    written := o.calls
    subcategory := e.subcategory.isSome
    offer := offer }
  let blocks : List StoreBlock :=
    .record o.calls :: (infoBlocks o.calls e.subcategory.isSome ++ [.name o.calls])
  have hrequests : blocks.map Request.malloc = .malloc (.record o.calls) ::
      ((infoBlocks o.calls e.subcategory.isSome).map Request.malloc ++ [.malloc (.name o.calls)]) := by
    rw [List.map_cons, List.map_append]
    rfl
  refine ⟨Function.update o.holding o.state.brk (some x), blocks.map Request.malloc, x, ?_, ?_, rfl, rfl, ?_⟩
  · unfold recordOwned
    rw [hfind, ok_bind, hrequests]
  · rw [Records, Allocator.mallocs_map_malloc]
    constructor
    · refine List.nodup_cons.mpr ⟨fun hb => ?_, ?_⟩
      · rcases List.mem_append.mp hb with hb | hb
        · rcases infoBlocks_mem hb with hb | hb <;> cases hb
        · simp at hb
      · refine (infoBlocks_nodup _ _).append (List.nodup_singleton _) fun b hb hb' => ?_
        obtain rfl := List.mem_singleton.mp hb'
        rcases infoBlocks_mem hb with hb | hb <;> cases hb
    · intro b hb
      rcases List.mem_cons.mp hb with rfl | hb
      · exact ⟨rfl, rfl⟩
      · rcases List.mem_append.mp hb with hb | hb
        · rcases infoBlocks_mem hb with rfl | rfl <;> exact ⟨rfl, rfl⟩
        · obtain rfl := List.mem_singleton.mp hb
          exact ⟨rfl, rfl⟩
  · have hfresh : o.state.brk ∉ rs.map Prod.fst := by
      intro hmem
      obtain ⟨y, hy, hfst⟩ := List.mem_map.mp hmem
      exact absurd (h.holds.fresh y hy) (hfst ▸ Nat.lt_irrefl _)
    have hblocks : blocksOf (Function.update o.holding o.state.brk (some x))
        (o.state.brk :: rs.map Prod.fst) = x.blocks ++ blocksOf o.holding (rs.map Prod.fst) := by
      rw [← blocksOf_update (some x) hfresh]
      unfold blocksOf
      rw [List.flatMap_cons, Function.update_self]
      rfl
    rw [Allocator.run_mallocs, hblocks, Multiset.coe_eq_coe.mpr (blocks_perm x hoffer)]
    unfold Holding.blocks
    simp only [blocks, x, ← Multiset.coe_add, ← Multiset.cons_coe, ← Multiset.singleton_add,
      Multiset.coe_nil, add_zero]
    congr 1
    abel

/-- An overwritten record is released but for its name, and owns what it was handed. -/
theorem recordOwned_known (h : Owned o rs lost) {e : Event} {offer : Offer} (hoffer : offer.Sound)
    {x : Nat × Record} (hx : x ∈ rs) (hfind : o.state.findRecordByName e.name = .ok (some x.1))
    (hfree : freeAdiakValue x.2.dtype x.2.value = .ok ()) :
    ∃ (holding : Nat → Option Holding) (requests : List (Request StoreBlock)) (y : Holding),
      recordOwned o e offer = .ok (holding, requests) ∧ Records o.calls requests ∧ y.offer = offer ∧
      holding = Function.update o.holding x.1 (some y) ∧
      Allocator.run ((offer.blocks o.calls : Multiset StoreBlock) +
          (blocksOf o.holding (rs.map Prod.fst) : Multiset StoreBlock)) requests =
        some ((blocksOf holding (rs.map Prod.fst) : Multiset StoreBlock) +
          (offer.lost o.calls : Multiset StoreBlock)) := by
  obtain ⟨old, hold, hfits⟩ := h.fits x hx
  obtain ⟨bs, hbs, hperm⟩ := hfits.releaseValue hfree
  let y : Holding := {
    created := old.created
    written := o.calls
    subcategory := e.subcategory.isSome
    offer := offer }
  refine ⟨Function.update o.holding x.1 (some y), (bs ++ infoBlocks old.written old.subcategory).map .free ++
    (infoBlocks o.calls e.subcategory.isSome).map .malloc, y, ?_, ?_, rfl, rfl, ?_⟩
  · unfold recordOwned
    rw [hfind, ok_bind]
    dsimp only
    rw [hold]
    dsimp only
    rw [hbs, ok_bind]
  · rw [Records, Allocator.mallocs_append, Allocator.mallocs_map_free, Allocator.mallocs_map_malloc,
      List.nil_append]
    refine ⟨infoBlocks_nodup _ _, fun b hb => ?_⟩
    rcases infoBlocks_mem hb with rfl | rfl <;> exact ⟨rfl, rfl⟩
  · obtain ⟨others, hothers⟩ := blocksOf_mem o.holding h.nodup
      (List.mem_map_of_mem hx (f := Prod.fst))
    have hbefore := hothers old o.holding hold fun _ _ => rfl
    have hafter := hothers y (Function.update o.holding x.1 (some y)) (Function.update_self _ _ _)
      fun q hq => Function.update_of_ne hq _ _
    rw [Multiset.coe_eq_coe.mpr hbefore, Multiset.coe_eq_coe.mpr hafter]
    let kept : Multiset StoreBlock := {.record old.created} + {.name old.created} +
      (others : Multiset StoreBlock) + (offer.blocks o.calls : Multiset StoreBlock)
    have hstart : (offer.blocks o.calls : Multiset StoreBlock) +
        ((old.blocks ++ others : List StoreBlock) : Multiset StoreBlock) =
        ((bs ++ infoBlocks old.written old.subcategory : List StoreBlock) : Multiset StoreBlock) + kept := by
      unfold Holding.blocks
      simp only [kept, ← Multiset.coe_add, ← Multiset.cons_coe, ← Multiset.singleton_add,
        Multiset.coe_eq_coe.mpr hperm]
      abel
    rw [hstart, Allocator.run_trans (Allocator.run_frees kept _) (Allocator.run_mallocs kept _)]
    unfold Holding.blocks
    simp only [kept, y, ← Multiset.coe_add, ← Multiset.cons_coe, ← Multiset.singleton_add,
      Multiset.coe_eq_coe.mpr (blocks_perm y hoffer)]
    congr 1
    abel

/-- What was handed over is recorded. -/
theorem Owned.recorded (h : Owned o rs lost) {offer : Offer} (hoffer : offer.Sound)
    {handed requests : List (Request StoreBlock)}
    (hrun : Allocator.run 0 handed = some (offer.blocks o.calls : Multiset StoreBlock))
    (hmallocs : (Allocator.mallocs handed).Perm (offer.blocks o.calls))
    (hrecords : Records o.calls requests) {holding : Nat → Option Holding} {s' : AdiakState}
    {rs' : List (Nat × Record)}
    (hrecord : Allocator.run ((offer.blocks o.calls : Multiset StoreBlock) +
        (blocksOf o.holding (rs.map Prod.fst) : Multiset StoreBlock)) requests =
      some ((blocksOf holding (rs'.map Prod.fst) : Multiset StoreBlock) +
        (offer.lost o.calls : Multiset StoreBlock)))
    (hholds : Holds s' rs') (hfits : ∀ x ∈ rs', ∃ h, holding x.1 = some h ∧ h.Fits x.2)
    (hrest : s'.rest = o.state.rest) :
    Owned { state := s', holding, calls := o.calls + 1, log := o.log ++ (handed ++ requests) } rs'
      (lost + (offer.lost o.calls : Multiset StoreBlock)) := by
  have htools : s'.config.toolList = o.state.config.toolList := congrArg Prod.fst hrest
  have htoolBlocks : s'.toolBlocks = o.state.toolBlocks := by
    unfold AdiakState.toolBlocks
    rw [htools]
  refine h.extend hholds hfits ?_ ?_ ?_ rfl rfl (congrArg (fun x => x.2.2.1) hrest)
  · have hhanded := Allocator.run_frame hrun (o.allocated (rs.map Prod.fst) lost)
    have hrecorded := Allocator.run_frame hrecord ((o.state.toolBlocks : Multiset StoreBlock) + lost)
    rw [zero_add] at hhanded
    refine Allocator.run_trans hhanded ?_
    unfold OwnedState.allocated
    dsimp only
    rw [htoolBlocks]
    convert hrecorded using 2
    · abel
    · abel
  · rw [Allocator.mallocs_append]
    refine List.Nodup.append (hmallocs.nodup_iff.mpr (hoffer.nodup_blocks _)) hrecords.1
      fun b hb hb' => ?_
    have hhanded := (call_handed (hmallocs.mem_iff.mp hb)).2
    rw [(hrecords.2 b hb').2] at hhanded
    cases hhanded
  · intro b hb
    rw [Allocator.mallocs_append] at hb
    rcases List.mem_append.mp hb with hb | hb
    · exact (call_handed (hmallocs.mem_iff.mp hb)).1
    · exact (hrecords.2 b hb).1

/-- The event is recorded, then the tools are called. -/
theorem adiakRawNamevalue_cases {s s' : AdiakState} {e : Event} (h : adiakRawNamevalue s e = .ok s') :
    ∃ s₁ infoPtr, recordEvent s e = .ok (s₁, infoPtr) ∧ s'.rest = s₁.rest ∧
      ∀ rs, Holds s₁ rs → Holds s' rs := by
  unfold adiakRawNamevalue at h
  obtain ⟨⟨s₁, infoPtr⟩, hrec, h⟩ := bind_eq_ok.mp h
  cases htools : s₁.config.toolList with
  | none => simp only [htools] at h; cases h
  | some tools =>
    simp only [htools, Except.ok.injEq] at h
    subst h
    exact ⟨s₁, infoPtr, hrec, rfl, fun rs hs => hs.of_eq rfl rfl rfl rfl⟩

/-- A control event is shown to the tools only. -/
theorem adiakRawNamevalue_control {s s' : AdiakState} {e : Event} (hcat : e.category = adiakControl)
    (h : adiakRawNamevalue s e = .ok s') :
    s'.rest = s.rest ∧ ∀ rs, Holds s rs → Holds s' rs := by
  obtain ⟨s₁, infoPtr, hrec, hrest, hholds⟩ := adiakRawNamevalue_cases h
  unfold recordEvent at hrec
  rw [if_neg (not_not.mpr hcat)] at hrec
  obtain ⟨rfl, -⟩ := Prod.mk.inj (Except.ok.inj hrec)
  exact ⟨hrest, hholds⟩

/-- `adiak_raw_namevalue` on an event that is recorded. -/
theorem Owned.rawNamevalue (h : Owned o rs lost) {name : CStr} {category : Int}
    {subcategory : Option CStr} {offer : Offer} (hoffer : offer.Sound)
    {handed : List (Request StoreBlock)} (hcat : category ≠ adiakControl)
    (hrun : Allocator.run 0 handed = some (offer.blocks o.calls : Multiset StoreBlock))
    (hmallocs : (Allocator.mallocs handed).Perm (offer.blocks o.calls)) {s' : AdiakState}
    (hraw : adiakRawNamevalue o.state (offer.event name category subcategory) = .ok s') :
    ∃ o' rs', rawNamevalueOwned o name category subcategory offer handed = .ok o' ∧ o'.state = s' ∧
      Owned o' rs' (lost + (offer.lost o.calls : Multiset StoreBlock)) := by
  obtain ⟨s₁, infoPtr, hrec, hrest, hholds⟩ := adiakRawNamevalue_cases hraw
  have hcat' : (offer.event name category subcategory).category ≠ adiakControl := hcat
  unfold recordEvent at hrec
  rw [if_pos hcat'] at hrec
  obtain ⟨⟨s₂, info⟩, hname, heq⟩ := bind_eq_ok.mp hrec
  obtain ⟨rfl, -⟩ := Prod.mk.inj (Except.ok.inj heq)
  have hresult : ∀ (holding : Nat → Option Holding) (requests : List (Request StoreBlock)),
      recordOwned o (offer.event name category subcategory) offer = .ok (holding, requests) →
      rawNamevalueOwned o name category subcategory offer handed =
        .ok { state := s', holding, calls := o.calls + 1, log := o.log ++ (handed ++ requests) } := by
    intro holding requests hrequests
    unfold rawNamevalueOwned
    dsimp only
    rw [hraw, ok_bind, if_neg hcat, hrequests, ok_bind]
  rcases recordNameval_cases h.holds hname with ⟨hfind, hnew, rfl⟩ | ⟨x, hx, hfind, hxname, hfree, rfl⟩
  · obtain ⟨holding, requests, y, hrequests, hrecords, hy, rfl, hrecord⟩ := recordOwned_new h hoffer hfind
    have hrest' := hrest.trans (rest_setRecordHash _ _ _).1
    refine ⟨_, (o.state.brk, newRecord o.state _) :: rs, hresult _ _ hrequests, rfl,
      h.recorded hoffer hrun hmallocs hrecords hrecord (hholds _ (h.holds.addRecord hnew))
        (fun z hz => ?_) hrest'⟩
    rcases List.mem_cons.mp hz with rfl | hz
    · exact ⟨y, Function.update_self _ _ _, by rw [hy]; rfl, by rw [hy]; rfl, by rw [hy]; exact hoffer⟩
    · obtain ⟨w, hw, hfits⟩ := h.fits z hz
      have hne : z.1 ≠ o.state.brk := Nat.ne_of_lt (h.holds.fresh z hz)
      exact ⟨w, (Function.update_of_ne hne _ _).trans hw, hfits⟩
  · obtain ⟨holding, requests, y, hrequests, hrecords, hy, rfl, hrecord⟩ :=
      recordOwned_known h hoffer hx hfind hfree
    have hfst : (overwriteAt rs (offer.event name category subcategory) o.state.ticks).map Prod.fst =
        rs.map Prod.fst := by
      unfold overwriteAt
      rw [List.map_map]
      refine List.map_congr_left fun z _ => ?_
      rw [Function.comp_apply]
      split_ifs <;> rfl
    refine ⟨_, _, hresult _ _ hrequests, rfl, h.recorded hoffer hrun hmallocs hrecords ?_
      (hholds _ (h.holds.overwriteRecord hx hxname)) (fun z hz => ?_) hrest⟩
    · rw [hfst]
      exact hrecord
    · obtain ⟨w, hw, rfl⟩ := List.mem_map.mp hz
      split_ifs with hwname
      · obtain rfl := List.inj_on_of_nodup_map h.holds.nodup hw hx (hwname.trans hxname.symm)
        exact ⟨y, Function.update_self _ _ _, by rw [hy]; rfl, by rw [hy]; rfl, by rw [hy]; exact hoffer⟩
      · have hne : w.1 ≠ x.1 := by
          intro heq
          obtain rfl := (holds_iff.mp h.holds).eq_of_fst hx hw heq
          exact hwname hxname
        obtain ⟨v, hv, hfits⟩ := h.fits w hw
        exact ⟨v, (Function.update_of_ne hne _ _).trans hv, hfits⟩

/-- Nothing is recorded, and what is asked for is left behind. -/
theorem Owned.unrecorded (h : Owned o rs lost) {requests : List (Request StoreBlock)}
    {left : Multiset StoreBlock} (hrun : Allocator.run 0 requests = some left)
    (hnodup : (Allocator.mallocs requests).Nodup)
    (hcall : ∀ b ∈ Allocator.mallocs requests, b.call = some o.calls) {s' : AdiakState}
    (hrest : s'.rest = o.state.rest) (hholds : ∀ rs, Holds o.state rs → Holds s' rs) :
    Owned { o with state := s', calls := o.calls + 1, log := o.log ++ requests } rs (lost + left) := by
  have htools : s'.config.toolList = o.state.config.toolList := congrArg Prod.fst hrest
  refine h.extend (hholds rs h.holds) h.fits ?_ hnodup hcall rfl rfl (congrArg (fun x => x.2.2.1) hrest)
  have hframe := Allocator.run_frame hrun (o.allocated (rs.map Prod.fst) lost)
  rw [zero_add] at hframe
  rw [hframe]
  unfold OwnedState.allocated AdiakState.toolBlocks
  dsimp only
  rw [htools]
  congr 1
  abel

/-- The state changes outside of the store. -/
theorem Owned.of_rest (h : Owned o rs lost) {s' : AdiakState}
    (htools : s'.config.toolList = o.state.config.toolList) (htoolBrk : s'.toolBrk = o.state.toolBrk)
    (hholds : ∀ rs, Holds o.state rs → Holds s' rs) : Owned { o with state := s' } rs lost := by
  refine ⟨hholds rs h.holds, h.fits, ?_, h.calls, fun id hid => ?_⟩
  · have hsound := h.sound
    unfold OwnedState.allocated AdiakState.toolBlocks at hsound ⊢
    dsimp only
    rwa [htools]
  · dsimp only
    rw [htoolBrk]
    exact h.tools id hid

/-- An event of the library itself. -/
theorem Owned.control (h : Owned o rs lost) {e : Event} (hcat : e.category = adiakControl)
    {s' : AdiakState} (hraw : adiakRawNamevalue o.state e = .ok s') :
    controlOwned o e = .ok { o with state := s' } ∧ Owned { o with state := s' } rs lost := by
  obtain ⟨hrest, hholds⟩ := adiakRawNamevalue_control hcat hraw
  refine ⟨?_, h.of_rest (congrArg Prod.fst hrest) (congrArg (fun x => x.2.2.1) hrest) hholds⟩
  unfold controlOwned
  rw [hraw, ok_bind]

end Owned

end Adiak
