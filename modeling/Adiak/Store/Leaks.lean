import Mathlib.Data.Multiset.OrderedMonoid
import Adiak.Cpp.Offers
import Adiak.Store.Owned

/-!
# What is lost

Runs of the library with their blocks.

1. `KeepsBlocks` says of a call of `adiak_namevalue` that it loses nothing. Every call keeps the invariant
   and loses something if and only if it does not keep its blocks (`owned_step`).
2. `run_owned`: what is allocated after a run.
3. `clean_releases`: what is released in a run that ends with `adiak_clean`.
-/

namespace Adiak

open Allocator (Request)

open Heap (outline)

section Owned

variable {o : OwnedState} {rs : List (Nat × Record)} {lost : Multiset StoreBlock}

/-! ## Values that are handed over -/

/-- What a caller hands over is recorded, but for a control event, which leaves it to nobody. -/
theorem Owned.handOver (h : Owned o rs lost) {name : CStr} {category : Int}
    {subcategory : Option CStr} {offer : Offer} (hoffer : offer.Sound)
    {requests : List (Request StoreBlock)}
    (hrun : Allocator.run 0 requests = some (offer.blocks o.calls : Multiset StoreBlock))
    (hmallocs : (Allocator.mallocs requests).Perm (offer.blocks o.calls)) {s' : AdiakState}
    (hraw : adiakRawNamevalue o.state (offer.event name category subcategory) = .ok s') :
    ∃ o' rs' lost', rawNamevalueOwned o name category subcategory offer requests = .ok o' ∧
      o'.state = s' ∧ Owned o' rs' (lost + lost') ∧
      (lost' = 0 ↔ category ≠ adiakControl ∧ offer.left = [] ∧ offer.dtype.lost = []) := by
  by_cases hcat : category = adiakControl
  · obtain ⟨hrest, hholds⟩ := adiakRawNamevalue_control hcat hraw
    have hcall : ∀ b ∈ Allocator.mallocs requests, b.call = some o.calls := fun b hb =>
      (call_handed (hmallocs.mem_iff.mp hb)).1
    refine ⟨_, rs, _, ?_, rfl, h.unrecorded hrun
      (hmallocs.nodup_iff.mpr (hoffer.nodup_blocks _)) hcall hrest hholds, ?_⟩
    · unfold rawNamevalueOwned
      dsimp only
      rw [hraw, ok_bind, if_pos hcat]
    · refine iff_of_false (fun hzero => ?_) fun hkeep => hkeep.1 hcat
      exact List.cons_ne_nil _ _ ((Multiset.coe_eq_zero _).mp hzero)
  · obtain ⟨o', rs', ho', hs', howned⟩ := h.rawNamevalue hoffer hcat hrun hmallocs hraw
    refine ⟨o', rs', _, ho', hs', howned, ?_⟩
    rw [Multiset.coe_eq_zero, Offer.lost_eq_nil, and_iff_right hcat]

/-- Nothing is lost of what is allocated for a value if its typestring is parsed without a lapse,
`copy_value` does not give up, the event is recorded, and no `struct timeval` has been copied where the
typestring is refused. -/
def KeepsBlocks (category : Int) (typestr : List Char) (ap : List VArg) : Prop :=
  toplevelType typestr = .ok .unset ∨
    (∀ lapse ∈ (outline typestr ap.tail []).1, lapse.leaves true = false) ∧
      match parseTypestr typestr ap.tail with
      | .ok (t, _) => category ≠ adiakControl ∧
          (ap.head? = some (.ptr 0) ∨ ¬ (TypeTree.ofDatatype t).GivesUp)
      | .error _ => toplevelType typestr ≠ .ok .timeval

theorem Owned.namevalue (h : Owned o rs lost) {m : Memory} {name : CStr} {category : Int}
    {subcategory : Option CStr} {typestr : List Char} {ap : List VArg} {ret : Int} {s' : AdiakState}
    (hname : adiakNamevalue o.state m name category subcategory typestr ap = .ok (ret, s')) :
    ∃ o' rs' lost', namevalueOwned o m name category subcategory typestr ap = .ok o' ∧ o'.state = s' ∧
      Owned o' rs' (lost + lost') ∧ (lost' = 0 ↔ KeepsBlocks category typestr ap) := by
  have hcases := namevalueRequests_cases m typestr ap o.calls
  unfold adiakNamevalue at hname
  unfold namevalueOwned
  cases hargs : namevalueArgs m typestr ap with
  | error e =>
    rw [hargs] at hname hcases
    cases e with
    | undefined => cases hname
    | fuel => cases hname
    | null =>
      obtain ⟨-, rfl⟩ := Prod.mk.inj (Except.ok.inj hname)
      obtain ⟨requests, hrequests, hwhy⟩ := hcases
      rw [hrequests, ok_bind]
      rcases hwhy with ⟨hunset, rfl⟩ | ⟨top, f, ap', fetched, hrefused⟩
      · have hrun : Allocator.run (0 : Multiset StoreBlock) [] = some 0 := rfl
        refine ⟨_, rs, 0, rfl, rfl, ?_, iff_of_true rfl (.inl hunset)⟩
        exact h.unrecorded hrun List.nodup_nil (fun b hb => absurd hb List.not_mem_nil) rfl fun _ hs => hs
      · obtain ⟨⟨left, hrun, hleft⟩, hnodup, hcall⟩ := hrefused.run
        refine ⟨_, rs, left, rfl, rfl, h.unrecorded hrun hnodup hcall rfl fun _ hs => hs, ?_⟩
        obtain ⟨a, rfl⟩ := hrefused.tail
        have hparse := (Heap.parseTypestr_follows true typestr ap').eq_error hrefused.parsed
        have hset : toplevelType typestr ≠ .ok .unset := by
          rw [hrefused.toplevel]
          exact fun heq => hrefused.known (Except.ok.inj heq)
        unfold KeepsBlocks
        rw [List.tail_cons, hparse, hleft, or_iff_right hset, hrefused.toplevel, and_comm]
        refine and_congr_right fun _ => ?_
        exact not_congr ⟨congrArg Except.ok, Except.ok.inj⟩
  | ok r =>
    obtain ⟨v, t⟩ := r
    rw [hargs] at hname hcases
    obtain ⟨s₁, hraw, hname⟩ := bind_eq_ok.mp hname
    obtain ⟨-, rfl⟩ := Prod.mk.inj (Except.ok.inj hname)
    obtain ⟨requests, offer, top, f, ap', rest, fetched, hrequests, hhanded, rfl, rfl⟩ := hcases
    obtain ⟨hrun, hmallocs⟩ := hhanded.run
    obtain ⟨o', rs', lost', ho', hs', howned, hlost⟩ := h.handOver hhanded.sound hrun hmallocs hraw
    refine ⟨o', rs', lost', ?_, hs', howned, hlost.trans ?_⟩
    · rw [hrequests, ok_bind]
      exact ho'
    · obtain ⟨hparse, -⟩ := hhanded.exists_tree
      have hset : toplevelType typestr ≠ .ok .unset := by
        rw [hhanded.toplevel]
        exact fun heq => hhanded.known (Except.ok.inj heq)
      obtain ⟨a, rfl⟩ := hhanded.tail
      unfold KeepsBlocks
      rw [or_iff_right hset, List.tail_cons, hparse, ← hhanded.lost_iff]
      dsimp only
      rw [← hhanded.left_iff]
      exact ⟨fun ⟨hcat, hleft, hdtype⟩ => ⟨hdtype, hcat, hleft⟩,
        fun ⟨hdtype, hcat, hleft⟩ => ⟨hcat, hleft, hdtype⟩⟩

/-- `adiak::value`. -/
theorem Owned.value (h : Owned o rs lost) {name : List Char} {t : CppType} {arg : CppArg}
    (ht : t.Supported) (harg : ∀ v ∈ arg.values, HasType t v) {category : Int} {subcategory : List Char}
    {s' : AdiakState} (hvalue : stepApi o.state (.value name t arg category subcategory) = .ok s') :
    ∃ o' rs' lost', valueOwned o name t arg category subcategory = .ok o' ∧ o'.state = s' ∧
      Owned o' rs' (lost + lost') ∧
      (lost' = 0 ↔ category ≠ adiakControl ∧ t.Balanced arg.values ∧ t.NoEmptyTuple) := by
  obtain ⟨requests, offer, hrequests, hoffered⟩ := valueRequests_offered ht harg o.calls
  obtain ⟨⟨ret, s₁⟩, hcall, hs⟩ := bind_eq_ok.mp hvalue
  obtain rfl := Except.ok.inj hs
  unfold Adiak.value at hcall
  rw [hoffered.args] at hcall
  obtain ⟨s₂, hraw, hs⟩ := bind_eq_ok.mp hcall
  obtain ⟨-, rfl⟩ := Prod.mk.inj (Except.ok.inj hs)
  obtain ⟨o', rs', lost', ho', hs', howned, hlost⟩ :=
    h.handOver hoffered.sound hoffered.run hoffered.mallocs hraw
  refine ⟨o', rs', lost', ?_, hs', howned, ?_⟩
  · unfold valueOwned
    rw [hrequests, ok_bind]
    exact ho'
  · rw [hlost, hoffered.left, hoffered.lost]

/-! ## Measurements, tools and release -/

/-- The typestring of a measurement. -/
theorem keepsBlocks_timeval (a : VArg) : KeepsBlocks adiakPerformance ['%', 't'] [a] := by
  have hlapses : (outline ['%', 't'] [] []).1 = [] := rfl
  have hparse : parseTypestr ['%', 't'] [] = .ok (TypeTree.datatype (.scalar .timeval), []) := by
    rw [parseTypestr_of_lt (by decide)]
    rfl
  unfold KeepsBlocks
  rw [List.tail_cons, hlapses, hparse]
  refine .inr ⟨fun lapse hlapse => absurd hlapse List.not_mem_nil, by decide, .inr ?_⟩
  rw [TypeTree.ofDatatype_datatype]
  exact TypeTree.not_givesUp fun ts hc => by cases hc

theorem Owned.measure (h : Owned o rs lost) {measured : Bool} {name : CStr} {reading : Option Timeval}
    {s' : AdiakState} (hmeasure : measure o.state measured name reading = .ok s') :
    ∃ o' rs', measureOwned o measured name reading = .ok o' ∧ o'.state = s' ∧ Owned o' rs' lost := by
  cases measured with
  | false => exact ⟨o, rs, rfl, Except.ok.inj hmeasure, h⟩
  | true =>
    cases reading with
    | none => exact ⟨o, rs, rfl, Except.ok.inj hmeasure, h⟩
    | some tv =>
      obtain ⟨⟨ret, s₁⟩, hname, hmeasure⟩ := bind_eq_ok.mp hmeasure
      obtain rfl := Except.ok.inj hmeasure
      obtain ⟨o', rs', lost', ho', hs', howned, hlost⟩ := h.namevalue hname
      obtain rfl := hlost.mpr (keepsBlocks_timeval _)
      rw [add_zero] at howned
      exact ⟨o', rs', ho', hs', howned⟩

theorem Owned.fini (h : Owned o rs lost) {r : FiniReadings} {s' : AdiakState}
    (hfini : adiakFini o.state r = .ok s') :
    ∃ o' rs', finiOwned o r = .ok o' ∧ o'.state = s' ∧ Owned o' rs' lost := by
  unfold adiakFini at hfini
  obtain ⟨s₁, hcpu, hfini⟩ := bind_eq_ok.mp hfini
  obtain ⟨s₂, hsys, hfini⟩ := bind_eq_ok.mp hfini
  obtain ⟨s₃, hwall, hfini⟩ := bind_eq_ok.mp hfini
  obtain ⟨o₁, rs₁, ho₁, rfl, h₁⟩ := h.measure hcpu
  obtain ⟨o₂, rs₂, ho₂, rfl, h₂⟩ := h₁.measure hsys
  obtain ⟨o₃, rs₃, ho₃, rfl, h₃⟩ := h₂.measure hwall
  obtain ⟨hcontrol, h'⟩ := h₃.control rfl hfini
  refine ⟨_, rs₃, ?_, rfl, h'⟩
  unfold finiOwned
  rw [ho₁, ok_bind, ho₂, ok_bind, ho₃, ok_bind]
  exact hcontrol

/-- A new tool has a block of its own. -/
theorem Owned.register (h : Owned o rs lost) {version category : Int} {nv nvi reportOnAllRanks : Bool}
    {opaqueVal : Addr} {s' : AdiakState}
    (hregister : adiakRegister o.state version category nv nvi reportOnAllRanks opaqueVal = .ok s') :
    ∃ o', registerOwned o version category nv nvi reportOnAllRanks opaqueVal = .ok o' ∧ o'.state = s' ∧
      Owned o' rs lost := by
  obtain ⟨tools, htools, htools', -, htoolBrk, -, -, hholds⟩ := adiakRegister_eq_ok hregister
  let o' : OwnedState := { o with
    state := s'
    log := o.log ++ [.malloc (.tool o.state.toolBrk)] }
  have ho' : registerOwned o version category nv nvi reportOnAllRanks opaqueVal = .ok o' := by
    unfold registerOwned
    rw [hregister, ok_bind]
  have hmallocs : Allocator.mallocs o'.log =
      Allocator.mallocs o.log ++ [.tool o.state.toolBrk] := Allocator.mallocs_append _ _
  refine ⟨o', ho', rfl, hholds rs h.holds, h.fits, ?_, ?_, ?_⟩
  · refine h.sound.append ?_ (List.nodup_singleton _) fun b hb hmem => ?_
    · have hrun := Allocator.run_mallocs (o.allocated (rs.map Prod.fst) lost)
        [StoreBlock.tool o.state.toolBrk]
      refine hrun.trans (congrArg some ?_)
      unfold OwnedState.allocated AdiakState.toolBlocks
      rw [htools, htools']
      dsimp only [o', Option.getD_some]
      rw [List.map_cons, ← Multiset.cons_coe, ← Multiset.singleton_add]
      simp only [← Multiset.cons_coe, ← Multiset.singleton_add, Multiset.coe_nil, add_zero]
      abel
    · obtain rfl := List.mem_singleton.mp hb
      exact Nat.lt_irrefl _ (h.tools _ hmem)
  · intro b hb call hcall
    rw [hmallocs] at hb
    rcases List.mem_append.mp hb with hb | hb
    · exact h.calls b hb call hcall
    · obtain rfl := List.mem_singleton.mp hb
      cases hcall
  · intro id hid
    rw [hmallocs] at hid
    show id < s'.toolBrk
    rw [htoolBrk]
    rcases List.mem_append.mp hid with hid | hid
    · exact Nat.lt_succ_of_lt (h.tools id hid)
    · obtain rfl := StoreBlock.tool.inj (List.mem_singleton.mp hid)
      exact Nat.lt_succ_self _

/-- The loop of `adiak_clean` releases what the records own. -/
theorem releaseRecords_eq {holding : Nat → Option Holding} {rs : List (Nat × Record)}
    (hfits : ∀ x ∈ rs, ∃ h, holding x.1 = some h ∧ h.Fits x.2) (hfree : freeRecords rs = .ok ()) :
    ∃ bs, releaseRecords holding (rs.map Prod.fst) = .ok bs ∧
      bs.Perm (blocksOf holding (rs.map Prod.fst)) := by
  induction rs with
  | nil => exact ⟨[], rfl, .nil⟩
  | cons x rs ih =>
    obtain ⟨⟨⟩, hvalue, hrest⟩ := bind_eq_ok.mp hfree
    obtain ⟨h, hholding, hx⟩ := hfits x List.mem_cons_self
    obtain ⟨bs, hbs, hperm⟩ := hx.releaseValue hvalue
    obtain ⟨bs', hbs', hperm'⟩ := ih (fun y hy => hfits y (List.mem_cons_of_mem x hy)) hrest
    refine ⟨bs ++ (.name h.created :: .info h.written ::
      (subcategoryBlocks h.written h.subcategory ++ [.record h.created])) ++ bs', ?_, ?_⟩
    · rw [List.map_cons, releaseRecords, hholding]
      dsimp only
      rw [hbs, ok_bind, hbs', ok_bind]
    · have hcons : blocksOf holding ((x :: rs).map Prod.fst) =
          h.blocks ++ blocksOf holding (rs.map Prod.fst) := by
        unfold blocksOf
        rw [List.map_cons, List.flatMap_cons, hholding]
        rfl
      rw [hcons]
      refine List.Perm.append ?_ hperm'
      apply Multiset.coe_eq_coe.mp
      unfold Holding.blocks infoBlocks
      simp only [← Multiset.coe_add, ← Multiset.cons_coe, ← Multiset.singleton_add,
        Multiset.coe_nil, add_zero, Multiset.coe_eq_coe.mpr hperm]
      abel

/-- `adiak_clean` leaves what was lost. -/
theorem Owned.clean (h : Owned o rs lost) {s' : AdiakState} (hclean : adiakClean o.state = .ok s') :
    ∃ o', cleanOwned o = .ok o' ∧ o'.state = s' ∧ o'.state.toolBlocks = [] ∧ Owned o' [] lost := by
  unfold adiakClean at hclean
  obtain ⟨s, hraw, hclean⟩ := bind_eq_ok.mp hclean
  obtain ⟨hrest, hholds⟩ := adiakRawNamevalue_control rfl hraw
  rw [(holds_iff.mp (hholds rs h.holds)).sharedRecords_eq, ok_bind] at hclean
  obtain ⟨⟨⟩, hfree, hclean⟩ := bind_eq_ok.mp hclean
  obtain rfl := Except.ok.inj hclean
  obtain ⟨bs, hbs, hperm⟩ := releaseRecords_eq h.fits hfree
  have htools : s.toolBlocks = o.state.toolBlocks := by
    unfold AdiakState.toolBlocks
    rw [show s.config.toolList = o.state.config.toolList from congrArg Prod.fst hrest]
  let o' : OwnedState := { o with
    state := wipe s (rs.map Prod.fst)
    log := o.log ++ (bs ++ s.toolBlocks).map .free }
  have ho' : cleanOwned o = .ok o' := by
    unfold cleanOwned
    rw [hraw, ok_bind, (holds_iff.mp (hholds rs h.holds)).sharedRecords_eq, ok_bind, hbs, ok_bind]
  have hmallocs : Allocator.mallocs o'.log = Allocator.mallocs o.log := by
    show Allocator.mallocs (o.log ++ _) = _
    rw [Allocator.mallocs_append, Allocator.mallocs_map_free, List.append_nil]
  refine ⟨o', ho', rfl, rfl, holds_wipe s _, fun x hx => absurd hx List.not_mem_nil, ?_, ?_, ?_⟩
  · have hrun : Allocator.run (o.allocated (rs.map Prod.fst) lost) ((bs ++ s.toolBlocks).map .free) =
        some lost := by
      have hall : o.allocated (rs.map Prod.fst) lost =
          ((bs ++ s.toolBlocks : List StoreBlock) : Multiset StoreBlock) + lost := by
        unfold OwnedState.allocated
        rw [← Multiset.coe_add, Multiset.coe_eq_coe.mpr hperm, htools]
      rw [hall]
      exact Allocator.run_frees lost _
    have hleft : o'.allocated [] lost = lost := by
      show (0 : Multiset StoreBlock) + 0 + lost = lost
      rw [add_zero, zero_add]
    refine ⟨?_, ?_⟩
    · rw [List.map_nil, hleft]
      exact Allocator.run_trans h.sound.run hrun
    · rw [hmallocs]
      exact h.sound.nodup
  · rw [hmallocs]
    exact h.calls
  · rw [hmallocs]
    intro id hid
    exact Nat.lt_of_lt_of_eq (h.tools id hid) (congrArg (fun x => x.2.2.1) hrest).symm

end Owned

/-! ## Calls and runs -/

/-- What is passed to `adiak::value` has its type, and what the caller of `adiak_raw_namevalue` hands over
may be released. -/
def OwnedCall.Sound : OwnedCall → Prop
  | .value _ t arg _ _ => t.Supported ∧ ∀ v ∈ arg.values, HasType t v
  | .rawNamevalue _ _ _ offer => offer.Sound
  | _ => True

/-- Whether a call loses nothing. -/
def OwnedCall.Keeps : OwnedCall → Prop
  | .namevalue _ _ category _ typestr ap => KeepsBlocks category typestr ap
  | .value _ t arg category _ => category ≠ adiakControl ∧ t.Balanced arg.values ∧ t.NoEmptyTuple
  | .rawNamevalue _ category _ offer =>
    category = adiakControl ∨ offer.left = [] ∧ offer.dtype.lost = []
  | _ => True

/-- Every call keeps the invariant, and adds to what is lost unless it keeps its blocks. -/
theorem owned_step {o : OwnedState} {rs : List (Nat × Record)} {lost : Multiset StoreBlock}
    (h : Owned o rs lost) {c : OwnedCall} (hc : c.Sound) {s' : AdiakState}
    (hstep : stepApi o.state c.erase = .ok s') :
    ∃ o' rs' lost', stepOwned o c = .ok o' ∧ o'.state = s' ∧ Owned o' rs' (lost + lost') ∧
      (lost' = 0 ↔ c.Keeps) := by
  -- a call that loses nothing
  have hkeeps : ∀ {o' : OwnedState} {rs' : List (Nat × Record)}, stepOwned o c = .ok o' →
      o'.state = s' → Owned o' rs' lost → c.Keeps → ∃ o' rs' lost', stepOwned o c = .ok o' ∧
        o'.state = s' ∧ Owned o' rs' (lost + lost') ∧ (lost' = 0 ↔ c.Keeps) :=
    fun ho' hs' howned hk => ⟨_, _, 0, ho', hs', by rwa [add_zero], iff_of_true rfl hk⟩
  cases c with
  | namevalue m name category subcategory typestr ap =>
    obtain ⟨⟨ret, s₁⟩, hname, hstep⟩ := bind_eq_ok.mp hstep
    obtain rfl := Except.ok.inj hstep
    exact h.namevalue hname
  | value name t arg category subcategory => exact h.value hc.1 hc.2 hstep
  | rawNamevalue name category subcategory offer =>
    by_cases hcat : category = adiakControl
    · have hstep' : adiakRawNamevalue o.state (offer.event name category subcategory) = .ok s' := hstep
      obtain ⟨hrest, hholds⟩ := adiakRawNamevalue_control hcat hstep'
      have hrun : Allocator.run (0 : Multiset StoreBlock) [] = some 0 := rfl
      have howned := h.unrecorded hrun List.nodup_nil (fun b hb => absurd hb List.not_mem_nil) hrest hholds
      rw [add_zero] at howned
      refine hkeeps ?_ rfl howned (.inl hcat)
      show rawNamevalueOwned o name category subcategory offer
        (if category = adiakControl then [] else (offer.blocks o.calls).map .malloc) = _
      unfold rawNamevalueOwned
      dsimp only
      rw [hstep', ok_bind, if_pos hcat, if_pos hcat]
    · have hrun := Allocator.run_mallocs 0 (offer.blocks o.calls)
      rw [add_zero] at hrun
      have hmallocs := Allocator.mallocs_map_malloc (offer.blocks o.calls)
      obtain ⟨o', rs', ho', hs', howned⟩ := h.rawNamevalue hc hcat hrun (.of_eq hmallocs) hstep
      refine ⟨o', rs', _, ?_, hs', howned, ?_⟩
      · show rawNamevalueOwned o name category subcategory offer
          (if category = adiakControl then [] else (offer.blocks o.calls).map .malloc) = _
        rw [if_neg hcat]
        exact ho'
      · show _ ↔ category = adiakControl ∨ offer.left = [] ∧ offer.dtype.lost = []
        rw [or_iff_right hcat, Multiset.coe_eq_zero, Offer.lost_eq_nil]
  | registerCb version category reportOnAllRanks opaqueVal =>
    obtain ⟨o', ho', hs', howned⟩ := h.register hstep
    exact hkeeps ho' hs' howned trivial
  | registerCbWithInfo version category reportOnAllRanks opaqueVal =>
    obtain ⟨o', ho', hs', howned⟩ := h.register hstep
    exact hkeeps ho' hs' howned trivial
  | walltime =>
    obtain rfl := Except.ok.inj hstep
    exact hkeeps rfl rfl (h.of_rest rfl rfl fun _ hs => hs.of_eq rfl rfl rfl rfl) trivial
  | systime =>
    obtain rfl := Except.ok.inj hstep
    exact hkeeps rfl rfl (h.of_rest rfl rfl fun _ hs => hs.of_eq rfl rfl rfl rfl) trivial
  | cputime =>
    obtain rfl := Except.ok.inj hstep
    exact hkeeps rfl rfl (h.of_rest rfl rfl fun _ hs => hs.of_eq rfl rfl rfl rfl) trivial
  | flush location =>
    obtain ⟨ho', howned⟩ := h.control rfl hstep
    exact hkeeps ho' rfl howned trivial
  | fini r =>
    obtain ⟨o', rs', ho', hs', howned⟩ := h.fini hstep
    exact hkeeps ho' hs' howned trivial
  | clean =>
    obtain ⟨o', ho', hs', -, howned⟩ := h.clean hstep
    exact hkeeps ho' hs' howned trivial

/-- Every run keeps the invariant. -/
theorem owned_run {calls : List OwnedCall} (hcalls : ∀ c ∈ calls, c.Sound) {o : OwnedState}
    {rs : List (Nat × Record)} {lost : Multiset StoreBlock} (h : Owned o rs lost) {s' : AdiakState}
    (hrun : runApi o.state (calls.map OwnedCall.erase) = .ok s') :
    ∃ o' rs' lost', runOwned o calls = .ok o' ∧ o'.state = s' ∧ Owned o' rs' (lost + lost') ∧
      (lost' = 0 ↔ ∀ c ∈ calls, c.Keeps) := by
  induction calls generalizing o rs lost with
  | nil =>
    refine ⟨o, rs, 0, rfl, Except.ok.inj hrun, by rwa [add_zero], iff_of_true rfl ?_⟩
    exact fun c hc => absurd hc List.not_mem_nil
  | cons c calls ih =>
    obtain ⟨s₁, hstep, hrun⟩ := bind_eq_ok.mp hrun
    obtain ⟨hc, hcalls⟩ := List.forall_mem_cons.mp hcalls
    obtain ⟨o₁, rs₁, lost₁, ho₁, rfl, h₁, hlost₁⟩ := owned_step h hc hstep
    obtain ⟨o', rs', lost', ho', hs', h', hlost'⟩ := ih hcalls h₁ hrun
    refine ⟨o', rs', lost₁ + lost', ?_, hs', by rwa [← add_assoc], ?_⟩
    · rw [runOwned, ho₁, ok_bind, ho']
    · rw [List.forall_mem_cons, ← hlost₁, ← hlost']
      exact add_eq_zero

theorem owned_initial (minimumVersion : Int) (reportableRank : Bool) :
    Owned (initialOwned minimumVersion reportableRank) [] 0 where
  holds := by
    obtain ⟨rs, hs, hentries⟩ := (inv_initialState minimumVersion reportableRank).store
    obtain rfl := List.map_eq_nil_iff.mp hentries
    exact hs
  fits := fun x hx => absurd hx List.not_mem_nil
  sound := Allocator.sound_nil
  calls := fun b hb => absurd hb List.not_mem_nil
  tools := fun id hid => absurd hid List.not_mem_nil

/-- After every run that returns, an allocator has answered all its requests: no block was released that
was not allocated then. What is allocated at the end are the blocks of the records on the list, those of the
tools, and what was lost, which is nothing if and only if every call has kept its blocks. -/
theorem run_owned (minimumVersion : Int) (reportableRank : Bool) (calls : List OwnedCall)
    (hcalls : ∀ c ∈ calls, c.Sound) {s : AdiakState}
    (h : runApi (initialState minimumVersion reportableRank) (calls.map OwnedCall.erase) = .ok s) :
    ∃ o rs lost, runOwned (initialOwned minimumVersion reportableRank) calls = .ok o ∧ o.state = s ∧
      Holds s rs ∧ (∀ x ∈ rs, ∃ holding, o.holding x.1 = some holding ∧ holding.Fits x.2) ∧
      (Allocator.mallocs o.log).Nodup ∧
      Allocator.run 0 o.log = some ((blocksOf o.holding (rs.map Prod.fst) : Multiset StoreBlock) +
        (s.toolBlocks : Multiset StoreBlock) + lost) ∧
      (lost = 0 ↔ ∀ c ∈ calls, c.Keeps) := by
  obtain ⟨o, rs, lost, ho, rfl, howned, hlost⟩ :=
    owned_run hcalls (owned_initial minimumVersion reportableRank) h
  rw [zero_add] at howned
  exact ⟨o, rs, lost, ho, rfl, howned.holds, howned.fits, howned.sound.nodup, howned.sound.run, hlost⟩

/-- A string from the caller, and in its place a vector of vectors of two strings and of one, whose node
counts one: a string is lost. -/
theorem run_owned_overwritten : ∃ (o : OwnedState) (rs : List (Nat × Record)) (lost : Multiset StoreBlock),
    runOwned (initialOwned 1 true)
      [.rawNamevalue ['n'] adiakGeneral (some ['y']) ⟨.vPtr (.strdup 0 ['z']), 1, .static baseString⟩,
        .value ['n'] (.container .vector (.container .vector (.scalar .string)))
          (.one (.elems [.elems [.str ['a'], .str ['b']], .elems [.str ['c']]])) 2 []] = .ok o ∧
    Allocator.run 0 o.log = some ((blocksOf o.holding (rs.map Prod.fst) : Multiset StoreBlock) +
      (o.state.toolBlocks : Multiset StoreBlock) + lost) ∧ lost ≠ 0 := by
  have hoffer : Offer.Sound ⟨.vPtr (.strdup 0 ['z']), 1, .static baseString⟩ := by
    refine ⟨fun bs hbs => ?_, List.nodup_nil, List.not_mem_nil⟩
    obtain rfl := Except.ok.inj (show Except.ok [0] = Except.ok bs from hbs)
    exact .refl _
  have htyped : (OwnedCall.value ['n'] (.container .vector (.container .vector (.scalar .string)))
      (.one (.elems [.elems [.str ['a'], .str ['b']], .elems [.str ['c']]])) 2 []).Sound := by
    refine ⟨.container _ (.container _ (.scalar _)), ?_⟩
    simp [CppArg.values, HasType, CppContainer.HasLength, CppScalar.HasValue]
  obtain ⟨s, hs⟩ := exists_of_isOk (x := runApi (initialState 1 true)
    [.c (.rawNamevalue ⟨['n'], adiakGeneral, some ['y'], .vPtr (.strdup ['z']), baseString⟩),
      .value ['n'] (.container .vector (.container .vector (.scalar .string)))
        (.one (.elems [.elems [.str ['a'], .str ['b']], .elems [.str ['c']]])) 2 []]) (by decide +kernel)
  obtain ⟨o, rs, lost, ho, rfl, -, -, -, hrun, hlost⟩ := run_owned 1 true
    [.rawNamevalue ['n'] adiakGeneral (some ['y']) ⟨.vPtr (.strdup 0 ['z']), 1, .static baseString⟩,
      .value ['n'] (.container .vector (.container .vector (.scalar .string)))
        (.one (.elems [.elems [.str ['a'], .str ['b']], .elems [.str ['c']]])) 2 []]
    (by simp only [List.forall_mem_cons]; exact ⟨hoffer, htyped, fun _ hc => absurd hc List.not_mem_nil⟩) hs
  refine ⟨o, rs, lost, ho, hrun, fun hzero => ?_⟩
  obtain ⟨-, hbalanced, -⟩ := hlost.mp hzero _ (List.mem_cons_of_mem _ List.mem_cons_self)
  obtain ⟨n, -, hn⟩ : ∃ n : Nat, (n : Int) < 2 ^ 31 ∧
    ∀ v ∈ [CppValue.elems [.str ['a'], .str ['b']], .elems [.str ['c']]], v.elements.length = n :=
      hbalanced.2.1 rfl
  simp only [List.forall_mem_cons, CppValue.elements, List.length_cons, List.length_nil] at hn
  omega

theorem runApi_append (s : AdiakState) (cs cs' : List ApiCall) :
    runApi s (cs ++ cs') = runApi s cs >>= fun s => runApi s cs' := by
  induction cs generalizing s with
  | nil => rfl
  | cons c cs ih =>
    rw [List.cons_append, runApi, runApi]
    cases stepApi s c with
    | error e => rfl
    | ok s' => exact ih s'

theorem runOwned_append (o : OwnedState) (cs cs' : List OwnedCall) :
    runOwned o (cs ++ cs') = runOwned o cs >>= fun o => runOwned o cs' := by
  induction cs generalizing o with
  | nil => rfl
  | cons c cs ih =>
    rw [List.cons_append, runOwned, runOwned]
    cases stepOwned o c with
    | error e => rfl
    | ok o' => exact ih o'

/-- A run that ends with `adiak_clean` has released no block twice and none that it had not allocated
before. It has released every block if and only if every call has kept its blocks. -/
theorem clean_releases (minimumVersion : Int) (reportableRank : Bool) (calls : List OwnedCall)
    (hcalls : ∀ c ∈ calls, c.Sound) {s : AdiakState}
    (h : runApi (initialState minimumVersion reportableRank)
      ((calls ++ [OwnedCall.clean]).map OwnedCall.erase) = .ok s) :
    ∃ o, runOwned (initialOwned minimumVersion reportableRank) (calls ++ [.clean]) = .ok o ∧ o.state = s ∧
      (∀ before b after, o.log = before ++ .free b :: after →
        .malloc b ∈ before ∧ .free b ∉ before ∧ .free b ∉ after) ∧
      ((∀ b, .malloc b ∈ o.log → .free b ∈ o.log) ↔ ∀ c ∈ calls, c.Keeps) := by
  rw [List.map_append, runApi_append] at h
  obtain ⟨s₁, hrun, h⟩ := bind_eq_ok.mp h
  obtain ⟨s₂, hclean, h⟩ := bind_eq_ok.mp h
  obtain rfl := Except.ok.inj h
  obtain ⟨o₁, rs, lost, ho₁, rfl, howned, hlost⟩ :=
    owned_run hcalls (owned_initial minimumVersion reportableRank) hrun
  rw [zero_add] at howned
  obtain ⟨o, ho, hs, htools, howned⟩ := howned.clean hclean
  have hsound : Allocator.Sound o.log lost := by
    have hsound := howned.sound
    unfold OwnedState.allocated at hsound
    rw [htools] at hsound
    have hleft : (0 : Multiset StoreBlock) + 0 + lost = lost := by rw [add_zero, zero_add]
    exact hleft ▸ hsound
  refine ⟨o, ?_, hs, fun before b after hlog => ?_, ?_⟩
  · rw [runOwned_append, ho₁, ok_bind, runOwned]
    show cleanOwned o₁ >>= _ = _
    rw [ho, ok_bind]
    rfl
  · have hfree := (hlog ▸ hsound).free
    exact ⟨hfree.1, hfree.2.1, hfree.2.2.1⟩
  · rw [← hlost]
    constructor
    · intro hall
      refine Multiset.eq_zero_of_forall_notMem fun b hb => ?_
      have hcount := hsound.count b
      have hpos := Multiset.count_pos.mpr hb
      have hmem : .malloc b ∈ o.log := Allocator.mem_mallocs.mp (List.count_pos_iff.mp (by omega))
      rcases hsound.released_iff hmem with ⟨-, hdead⟩ | ⟨hzero, -⟩
      · exact hdead hb
      · exact List.count_eq_zero.mp hzero (Allocator.mem_frees.mpr (hall b hmem))
    · rintro rfl b hmem
      rcases hsound.released_iff hmem with ⟨hone, -⟩ | ⟨-, hlive⟩
      · exact Allocator.mem_frees.mp (List.count_pos_iff.mp (by omega))
      · rw [Multiset.count_zero] at hlive
        cases hlive

/-- A tool, a string and a vector of strings, and their release. -/
theorem clean_releases_string : ∃ o,
    runOwned (initialOwned 1 true)
      ([.registerCb 1 adiakCategoryAll true 0,
          .namevalue { Memory.empty with cstr := fun _ => some ['x'] } ['n'] adiakGeneral (some ['y'])
            ['%', 's'] [.ptr 1],
          .value ['v'] (.container .vector (.scalar .string)) (.one (.elems [.str ['a'], .str []])) 2 []] ++
        [.clean]) = .ok o ∧
    ∀ b, .malloc b ∈ o.log → .free b ∈ o.log := by
  have htyped : (OwnedCall.value ['v'] (.container .vector (.scalar .string))
      (.one (.elems [.str ['a'], .str []])) 2 []).Sound := by
    refine ⟨.container _ (.scalar _), ?_⟩
    simp [CppArg.values, HasType, CppContainer.HasLength, CppScalar.HasValue]
  obtain ⟨s, hs⟩ := exists_of_isOk (x := runApi (initialState 1 true)
    [.c (.registerCb 1 adiakCategoryAll true 0),
      .c (.namevalue { Memory.empty with cstr := fun _ => some ['x'] } ['n'] adiakGeneral (some ['y'])
        ['%', 's'] [.ptr 1]),
      .value ['v'] (.container .vector (.scalar .string)) (.one (.elems [.str ['a'], .str []])) 2 [],
      .c .clean]) (by decide +kernel)
  obtain ⟨o, ho, -, -, hall⟩ := clean_releases 1 true
    [.registerCb 1 adiakCategoryAll true 0,
      .namevalue { Memory.empty with cstr := fun _ => some ['x'] } ['n'] adiakGeneral (some ['y'])
        ['%', 's'] [.ptr 1],
      .value ['v'] (.container .vector (.scalar .string)) (.one (.elems [.str ['a'], .str []])) 2 []]
    (by
      simp only [List.forall_mem_cons]
      exact ⟨trivial, trivial, htyped, fun _ hc => absurd hc List.not_mem_nil⟩) hs
  refine ⟨o, ho, hall.mpr ?_⟩
  simp only [List.forall_mem_cons]
  have hlapses : (outline ['%', 's'] [] []).1 = [] := rfl
  have hparse : parseTypestr ['%', 's'] [] = .ok (TypeTree.datatype (.str .string false), []) := by
    rw [parseTypestr_of_lt (by decide)]
    rfl
  refine ⟨trivial, .inr ?_, ⟨by decide, ⟨?_, trivial⟩, trivial⟩, fun _ hc => absurd hc List.not_mem_nil⟩
  · rw [List.tail_cons, hlapses, hparse]
    refine ⟨fun lapse hlapse => absurd hlapse List.not_mem_nil, by decide, .inr ?_⟩
    rw [TypeTree.ofDatatype_datatype]
    exact TypeTree.not_givesUp fun ts hc => by cases hc
  · exact fun _ => ⟨2, by decide, by simp [CppArg.values, CppValue.elements]⟩

end Adiak
