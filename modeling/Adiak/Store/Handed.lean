import Adiak.Store.Ownership
import Adiak.Typestring.Reads

/-!
# What is handed over

`adiak_namevalue` allocates a value and its datatype for `adiak_raw_namevalue`.

1. `Offer.Sound`: releasing the value releases only blocks that were taken for it. `Offer.left` are those
   that it does not.
2. `Handed` is what `adiak_namevalue` has done when it hands something over, `Refused` when it returns
   `-1`. It does one or the other (`namevalueRequests_cases`).
3. `Refused.lost_iff`: what stays allocated when it returns `-1`.
-/

namespace Adiak

open Allocator (Request)

open Heap (Access outline)

/-- Whatever is released of the value are blocks taken for it, each at most once, and releasing the
datatype releases no static type. -/
structure Offer.Sound (offer : Offer) : Prop where
  value : ∀ bs, releaseBlocks offer.dtype.erase offer.value = .ok bs →
    bs.Subperm (List.range offer.taken)
  nodup : offer.dtype.blocks.Nodup
  static : Access.freeStatic ∉ offer.dtype.released

/-- The blocks that are released with the value: none where it may not be released. -/
def Offer.owned (offer : Offer) : List Nat :=
  match releaseBlocks offer.dtype.erase offer.value with
  | .ok bs => bs
  | .error _ => []

/-- The blocks taken for the value that are not. -/
def Offer.left (offer : Offer) : List Nat := (List.range offer.taken).diff offer.owned

theorem Offer.owned_eq {offer : Offer} {bs : List Nat}
    (h : releaseBlocks offer.dtype.erase offer.value = .ok bs) : offer.owned = bs := by
  unfold Offer.owned
  rw [h]

theorem Offer.Sound.owned_perm {offer : Offer} (h : offer.Sound) :
    (offer.owned ++ offer.left).Perm (List.range offer.taken) := by
  have hsub : offer.owned.Subperm (List.range offer.taken) := by
    unfold Offer.owned
    cases hrelease : releaseBlocks offer.dtype.erase offer.value with
    | error e => exact List.nil_subperm
    | ok bs => exact h.value bs hrelease
  exact List.subperm_append_diff_self_of_count_le fun b _ => hsub.count_le b

/-- Nothing is left if the value releases all that was taken, or nothing was taken. -/
theorem Offer.Sound.left_iff {offer : Offer} (h : offer.Sound) :
    offer.left = [] ↔
      Releases offer.dtype.erase offer.value (List.range offer.taken) ∨ offer.taken = 0 := by
  have hperm := h.owned_perm
  constructor
  · intro hleft
    rw [hleft, List.append_nil] at hperm
    cases hrelease : releaseBlocks offer.dtype.erase offer.value with
    | ok bs =>
      rw [Offer.owned_eq hrelease] at hperm
      exact .inl ⟨bs, hrelease, hperm⟩
    | error e =>
      have howned : offer.owned = [] := by
        unfold Offer.owned
        rw [hrelease]
      rw [howned] at hperm
      exact .inr (List.range_eq_nil.mp hperm.nil_eq.symm)
  · rintro (⟨bs, hrelease, hbs⟩ | htaken)
    · rw [Offer.owned_eq hrelease] at hperm
      have hlen := hperm.length_eq
      rw [List.length_append, hbs.length_eq] at hlen
      exact List.length_eq_zero_iff.mp (by omega)
    · rw [htaken] at hperm
      exact (List.append_eq_nil_iff.mp hperm.eq_nil).2

/-! ## Building a value -/

theorem loadTimeval_ne_null (m : Memory) (p : Addr) : m.loadTimeval p ≠ .error .null := by
  unfold Memory.loadTimeval
  split <;> nofun

theorem loadCstr_ne_null (m : Memory) (p : Addr) : m.loadCstr p ≠ .error .null := by
  unfold Memory.loadCstr
  split <;> nofun

theorem fetchArg_ne_null {m : Memory} {top : AdiakType} (htop : top ≠ .unset) (ap : List VArg) :
    fetchArg m top ap ≠ .error .null := by
  intro h
  cases ap with
  | nil => cases top <;> first | exact htop rfl | cases h
  | cons a ap =>
    cases top <;> cases a <;> first
      | exact htop rfl
      | cases h
      | skip
    rename_i p
    replace h : (m.loadTimeval p >>= fun v => .ok (Fetched.ofValue (.vPtr (.timeval v)), ap)) =
      .error .null := h
    cases hp : m.loadTimeval p with
    | error e =>
      rw [hp] at h
      obtain rfl := Except.error.inj h
      exact loadTimeval_ne_null m p hp
    | ok tv => rw [hp] at h; cases h

theorem storeFetched_ne_null (m : Memory) (f : Fetched) (t : AdiakDatatype) :
    storeFetched m f t ≠ .error .null := by
  intro h
  unfold storeFetched at h
  split_ifs at h
  · cases hs : m.loadCstr f.stringPtr with
    | error e =>
      rw [hs] at h
      obtain rfl := Except.error.inj h
      exact loadCstr_ne_null m _ hs
    | ok s => rw [hs] at h; cases h
  · cases hcopy : copyValue m t f.containerPtr with
    | ok r => rw [hcopy] at h; cases h
    | error e =>
      rw [hcopy] at h
      cases e <;> cases h

/-- A value as it was allocated leads to no blocks. -/
theorem releaseBlocks_indeterminate {t : AdiakDatatype} {bs : List Nat}
    (h : releaseBlocks t .indeterminate = .ok bs) : bs = [] :=
  List.subperm_nil.mp (releaseBlocks_subperm h)

/-- What is stored takes further blocks. -/
theorem storeBlocks_le (m : Memory) (f : FetchedBlocks) (tree : TypeTree) (n : Nat) :
    n ≤ (storeBlocks m f tree.datatype n).2 := by
  suffices htakes : Supply.Takes (fun _ _ => True) (storeBlocks m f tree.datatype) by
    obtain ⟨k, hk, -⟩ := htakes n
    rw [hk]
    exact Nat.le_add_right n k
  unfold storeBlocks
  split_ifs
  · exact Supply.takes_pure trivial
  · exact Supply.takes_lift_bind fun s _ => Supply.takes_fresh_bind fun b => Supply.takes_pure trivial
  · exact Supply.takes_pure trivial
  · refine (copyBlocks_takes tree f.containerPtr).bind_attempt (copyBlocks_follows m _ _)
      fun r ns _ _ => ?_
    cases r with
    | ok a => exact Supply.takes_pure trivial
    | error e =>
      cases e with
      | null => exact Supply.takes_pure trivial
      | undefined => exact Supply.takes_lift fun _ _ => trivial
      | fuel => exact Supply.takes_lift fun _ _ => trivial
  · exact Supply.takes_pure trivial

/-- Copying a container that has elements takes a block at least, also where it gives up. -/
theorem copyBlocks_lt (m : Memory) {t : TypeTree} (hgives : t.GivesUp) (p : Addr) (n : Nat) :
    n < (copyBlocks m t.datatype p n).2 := by
  obtain ⟨ts, hc, hpos⟩ : ∃ ts, t.container = some (false, ts) ∧ 0 < ts.length := by
    cases hgives with
    | here hc hu _ => exact ⟨_, hc, List.length_pos_of_mem hu⟩
    | inside hc hu _ => exact ⟨_, hc, List.length_pos_of_mem hu⟩
  obtain ⟨hbase, k, subs, hk, -, hdatatype, hsubs⟩ := TypeTree.datatype_shape hc
  have hnum : (containerNode t.dtype false k).numElements.toNat = ts.length := hk
  have hmalloc : mallocArray k = Supply.fresh >>= fun b => pure (some b) :=
    if_neg (show ¬ k < 0 by omega)
  rw [hdatatype, copyBlocks_container m subs p hbase rfl, copiersBlocks_eq_map, hnum]
  have hloop := (@copyLoopBlocks_takes m _ _ p _ (fun u _ p => copyBlocks_takes u p) _ 0
    (TypeTree.indexes_container (f := copyBlocks m) hsubs)).bind (Q := fun _ _ => True)
    (f := fun r => pure (BlockValue.vSubval (some n) r.1, r.2)) fun _ _ _ => Supply.takes_pure trivial
  obtain ⟨taken, htaken, -⟩ := hloop (n + 1)
  show n < ((mallocArray k >>= _) n).2
  rw [hmalloc]
  refine Nat.lt_of_lt_of_eq ?_ htaken.symm
  omega

theorem storeBlocks_lt (m : Memory) {t : TypeTree} (hgives : t.GivesUp) {p : Addr} (hp : p ≠ 0)
    (n : Nat) : n < (storeBlocks m ⟨.indeterminate, 0, p⟩ t.datatype n).2 := by
  obtain ⟨ts, hc⟩ : ∃ ts, t.container = some (false, ts) := by
    cases hgives with
    | here hc _ _ => exact ⟨_, hc⟩
    | inside hc _ _ => exact ⟨_, hc⟩
  have hcopy := copyBlocks_lt m hgives p n
  unfold storeBlocks
  rw [if_neg (not_not.mpr rfl), if_pos hp, isReference_datatype hc, if_neg Bool.false_ne_true]
  have hattempt : Supply.attempt (copyBlocks m t.datatype p) n =
      (.ok (copyBlocks m t.datatype p n).1, (copyBlocks m t.datatype p n).2) := rfl
  rw [Supply.bind_apply, hattempt]
  dsimp only
  cases (copyBlocks m t.datatype p n).1 with
  | ok r => exact hcopy
  | error e => cases e <;> exact hcopy

/-! ## The two outcomes -/

/-- The first requests of `adiak_namevalue`: the cell, what is fetched, and the requests of the parser. -/
def openingRequests (call fetched : Nat) (log : List Access) : List (Request StoreBlock) :=
  .malloc (.cell call) :: (((List.range fetched).map (.value call)).map .malloc ++
    (Heap.requests log).map (Request.map (.dtype call)))

section Outcomes

variable (m : Memory) (typestr : List Char) (ap : List VArg)

/-- The value argument has been fetched for a known type. -/
structure Fetching (top : AdiakType) (f : FetchedBlocks) (ap' : List VArg) (fetched : Nat) : Prop where
  toplevel : toplevelType typestr = .ok top
  known : top ≠ .unset
  fetch : fetchBlocks m top ap 0 = (.ok (f, ap'), fetched)

/-- `adiak_namevalue` hands something over. -/
structure Handed (call : Nat) (requests : List (Request StoreBlock)) (offer : Offer) (top : AdiakType)
    (f : FetchedBlocks) (ap' rest : List VArg) (fetched : Nat) : Prop
    extends Fetching m typestr ap top f ap' fetched where
  parsed : (Heap.parseTypestr true typestr ap' []).2 = .ok (offer.dtype, rest)
  stored : storeBlocks m f offer.dtype.erase fetched = (.ok offer.value, offer.taken)
  requests_eq : requests = openingRequests call fetched (Heap.parseTypestr true typestr ap' []).1 ++
    ((List.range' fetched (offer.taken - fetched)).map (.value call)).map .malloc

/-- `adiak_namevalue` returns `-1` where `parse_typestr` fails. -/
structure Refused (call : Nat) (requests : List (Request StoreBlock)) (top : AdiakType)
    (f : FetchedBlocks) (ap' : List VArg) (fetched : Nat) : Prop
    extends Fetching m typestr ap top f ap' fetched where
  parsed : (Heap.parseTypestr true typestr ap' []).2 = .error .null
  requests_eq : requests = openingRequests call fetched (Heap.parseTypestr true typestr ap' []).1 ++
    [.free (.cell call)]

/-- Where `adiak_namevalue` gets to `adiak_raw_namevalue` without blocks, it does with them, and where it
returns `-1`. -/
theorem namevalueRequests_cases (call : Nat) :
    match namevalueArgs m typestr ap with
    | .ok (v, t) => ∃ requests offer top f ap' rest fetched,
        namevalueRequests call m typestr ap = .ok (requests, some offer) ∧
        Handed m typestr ap call requests offer top f ap' rest fetched ∧
        offer.value.erase = v ∧ offer.dtype.erase = t
    | .error .null => ∃ requests, namevalueRequests call m typestr ap = .ok (requests, none) ∧
        (toplevelType typestr = .ok .unset ∧ requests = [] ∨
          ∃ top f ap' fetched, Refused m typestr ap call requests top f ap' fetched)
    | .error _ => True := by
  obtain ⟨top, htop⟩ := Heap.exists_toplevelType typestr
  have hfollows := Heap.parseTypestr_follows true typestr
  -- the steps do not look into the parsers
  obtain ⟨parse, heq⟩ : ∃ parse, parse = parseTypestr typestr := ⟨_, rfl⟩
  obtain ⟨heapParse, hheap⟩ : ∃ parse, parse = Heap.parseTypestr true typestr := ⟨_, rfl⟩
  rw [← heq, ← hheap] at hfollows
  unfold namevalueArgs namevalueRequests
  rw [htop, ok_bind, ok_bind, ← heq, ← hheap]
  by_cases hset : top = .unset
  · obtain rfl := hset
    exact ⟨[], if_pos rfl, .inl ⟨rfl, rfl⟩⟩
  rw [if_neg hset]
  have hfetch := fetchBlocks_follows m top ap 0
  have hne := fetchArg_ne_null (m := m) hset ap
  rcases hblocks : fetchBlocks m top ap 0 with ⟨r, fetched⟩
  rw [hblocks] at hfetch
  cases r with
  | error e =>
    rw [← hfetch] at hne ⊢
    cases e with
    | null => exact absurd rfl hne
    | undefined => trivial
    | fuel => trivial
  | ok r =>
    obtain ⟨f, ap'⟩ := r
    have hfetching : Fetching m typestr ap top f ap' fetched := ⟨htop, hset, hblocks⟩
    rw [← hfetch]
    dsimp only [Except.map]
    rw [ok_bind]
    rw [← hfollows ap' []]
    dsimp only
    cases hp : (heapParse ap' []).2 with
    | error e =>
      cases e with
      | null => exact ⟨_, rfl, .inr ⟨top, f, ap', fetched, hfetching, hheap ▸ hp, hheap ▸ rfl⟩⟩
      | undefined => trivial
      | fuel => trivial
    | ok r =>
      obtain ⟨t, rest⟩ := r
      dsimp only [Except.map]
      rw [ok_bind]
      dsimp only
      have hstore := storeBlocks_follows m f t.erase fetched
      have hne' := storeFetched_ne_null m f.erase t.erase
      rcases hs : storeBlocks m f t.erase fetched with ⟨r, taken⟩
      rw [hs] at hstore
      rw [← hstore] at hne' ⊢
      cases r with
      | error e =>
        cases e with
        | null => exact absurd rfl hne'
        | undefined => trivial
        | fuel => trivial
      | ok v => exact ⟨_, ⟨v, taken, t⟩, top, f, ap', rest, fetched, rfl,
          ⟨hfetching, hheap ▸ hp, hs, hheap ▸ rfl⟩, rfl, rfl⟩

variable {m typestr ap}

/-! ## What is fetched -/

theorem Fetching.tail {top : AdiakType} {f : FetchedBlocks} {ap' : List VArg} {fetched : Nat}
    (h : Fetching m typestr ap top f ap' fetched) : ∃ a, ap = a :: ap' := by
  have hfetch := fetchBlocks_follows m top ap 0
  rw [h.fetch] at hfetch
  rcases fetchArg_cases hfetch.symm with ⟨a, _, hap, -⟩ | ⟨p, hap, -⟩ | ⟨p, hap, -⟩
  · exact ⟨a, hap⟩
  · exact ⟨_, hap⟩
  · exact ⟨_, hap⟩

/-- Only a `struct timeval` is copied at once. -/
theorem Fetching.fetched_eq_zero {top : AdiakType} {f : FetchedBlocks} {ap' : List VArg} {fetched : Nat}
    (h : Fetching m typestr ap top f ap' fetched) : fetched = 0 ↔ top ≠ .timeval := by
  obtain ⟨k, hk, htakes⟩ := fetchBlocks_takes m top ap 0
  rw [h.fetch] at hk htakes
  obtain rfl : fetched = k := hk.trans (Nat.zero_add k)
  obtain ⟨-, hcases⟩ := htakes _ rfl
  have hrange : (List.range' 0 fetched).length = fetched := List.length_range'
  rcases hcases with ⟨htop, b, tv, -, hns⟩ | ⟨htop, -, hns, -⟩ | ⟨p, -, -, hns, htop⟩ |
    ⟨p, -, -, hns, htop⟩
  · rw [hns] at hrange
    exact iff_of_false (fun hzero => by rw [hzero] at hrange; cases hrange) fun hne => hne htop
  · rw [hns] at hrange
    exact iff_of_true hrange.symm htop
  · rw [hns] at hrange
    exact iff_of_true hrange.symm fun heq => by rw [heq] at htop; cases htop
  · rw [hns] at hrange
    exact iff_of_true hrange.symm fun heq => by rw [heq] at htop; cases htop

/-- With `NULL` for a string or a container, neither pointer is set. -/
theorem Fetching.null {top : AdiakType} {f : FetchedBlocks} {ap' : List VArg} {fetched : Nat}
    (h : Fetching m typestr (.ptr 0 :: ap) top f ap' fetched) (hpointer : top.fetchesPointer = true) :
    f = ⟨.indeterminate, 0, 0⟩ ∧ fetched = 0 := by
  obtain ⟨k, hk, htakes⟩ := fetchBlocks_takes m top (.ptr 0 :: ap) 0
  rw [h.fetch] at hk htakes
  obtain ⟨-, hcases⟩ := htakes _ rfl
  constructor
  · rcases hcases with ⟨htimeval, -⟩ | ⟨-, hscalar, -⟩ | ⟨p, hap, hf, -⟩ | ⟨p, hap, hf, -⟩
    · rw [htimeval] at hpointer
      cases hpointer
    · rw [hpointer] at hscalar
      cases hscalar
    · obtain rfl := VArg.ptr.inj (List.cons.inj hap).1
      exact hf
    · obtain rfl := VArg.ptr.inj (List.cons.inj hap).1
      exact hf
  · refine h.fetched_eq_zero.mpr fun htimeval => ?_
    rw [htimeval] at hpointer
    cases hpointer

/-- A type that is known at the top is the type of a tree. -/
theorem Handed.exists_tree {call : Nat} {requests : List (Request StoreBlock)} {offer : Offer}
    {top : AdiakType} {f : FetchedBlocks} {ap' rest : List VArg} {fetched : Nat}
    (h : Handed m typestr ap call requests offer top f ap' rest fetched) :
    parseTypestr typestr ap' = .ok (offer.dtype.erase, rest) ∧
      ∃ tree : TypeTree, offer.dtype.erase = tree.datatype := by
  have hparse := (Heap.parseTypestr_follows true typestr ap').eq_ok h.parsed
  refine ⟨hparse, ?_⟩
  rcases parseTypestr_takes hparse with ⟨tree, -, ht, -⟩ | ⟨hblank, -⟩
  · exact ⟨tree, ht⟩
  · exact absurd (Except.ok.inj (h.toplevel.symm.trans (toplevelType_blank hblank))) h.known

section Handed

variable {call : Nat} {requests : List (Request StoreBlock)} {offer : Offer} {top : AdiakType}
  {f : FetchedBlocks} {ap' rest : List VArg} {fetched : Nat}

theorem Handed.namevalueBlocks_eq (h : Handed m typestr ap call requests offer top f ap' rest fetched) :
    namevalueBlocks m typestr ap 0 = (.ok (offer.value, offer.dtype.erase), offer.taken) :=
  Adiak.namevalueBlocks_eq h.toplevel h.fetch h.exists_tree.1 h.stored

/-- What is stored for a pointer that is not `NULL`. -/
theorem Handed.stored_cases (h : Handed m typestr ap call requests offer top f ap' rest fetched) :
    (ap.head? = some (.ptr 0) ∧ offer.value = .indeterminate ∧ offer.taken = 0) ∨
      ∃ tree : TypeTree, offer.dtype.erase = tree.datatype ∧
        StoredAs tree offer.value (List.range offer.taken) := by
  obtain ⟨a, rfl⟩ := h.tail
  by_cases hnull : top.fetchesPointer = true ∧ a = .ptr 0
  · obtain ⟨hpointer, rfl⟩ := hnull
    obtain ⟨rfl, rfl⟩ := h.toFetching.null hpointer
    obtain ⟨hvalue, htaken⟩ := Prod.mk.inj (show
      (Except.ok BlockValue.indeterminate, 0) = (Except.ok offer.value, offer.taken) from h.stored)
    exact .inl ⟨rfl, (Except.ok.inj hvalue).symm, htaken.symm⟩
  · have hptr : ∀ top', toplevelType typestr = .ok top' → top'.fetchesPointer = true → a ≠ .ptr 0 := by
      intro top' htop' hpointer ha
      obtain rfl := Except.ok.inj (h.toplevel.symm.trans htop')
      exact hnull ⟨hpointer, ha⟩
    obtain ⟨k, hk, hstored⟩ := namevalueBlocks_takes m hptr 0
    rw [h.namevalueBlocks_eq] at hk hstored
    obtain ⟨tree, htree, hstored⟩ := hstored _ rfl
    refine .inr ⟨tree, htree, ?_⟩
    rw [List.range_eq_range', show offer.taken = k from hk.trans (Nat.zero_add k)]
    exact hstored

/-- What is released of the value are the blocks taken for it: nothing if the pointer is `NULL`. -/
theorem Handed.releases (h : Handed m typestr ap call requests offer top f ap' rest fetched)
    {bs : List Nat} (hbs : releaseBlocks offer.dtype.erase offer.value = .ok bs) :
    bs.Perm (List.range offer.taken) := by
  rcases h.stored_cases with ⟨-, hvalue, htaken⟩ | ⟨tree, htree, hgives, hreleases⟩
  · rw [hvalue] at hbs
    rw [releaseBlocks_indeterminate hbs, htaken]
    exact .nil
  · rw [htree] at hbs
    have hno : ¬ tree.GivesUp := by
      intro hup
      rw [hgives hup] at hbs
      exact not_releases_indeterminate hup bs ⟨bs, hbs, .refl _⟩
    obtain ⟨bs', hbs', hperm⟩ := hreleases hno
    obtain rfl := Except.ok.inj (hbs.symm.trans hbs')
    exact hperm

/-- For a container the argument is a pointer to it. -/
theorem Handed.container (h : Handed m typestr ap call requests offer top f ap' rest fetched)
    {tree : TypeTree} (htree : offer.dtype.erase = tree.datatype) (hbase : isBasetype tree.dtype = false) :
    ∃ p, ap.head? = some (.ptr p) ∧ f = ⟨.indeterminate, 0, p⟩ ∧ fetched = 0 := by
  obtain ⟨hparse, -⟩ := h.exists_tree
  rw [htree] at hparse
  obtain rfl : top = tree.dtype := by
    rw [← TypeTree.dtype_datatype]
    by_contra hne
    have hne' := toplevel_of_ne hparse h.toplevel h.known hne
    rw [TypeTree.dtype_datatype] at hne'
    rcases hne'.2 with heq | heq <;> (rw [heq] at hbase; cases hbase)
  obtain ⟨k, hk, htakes⟩ := fetchBlocks_takes m tree.dtype ap 0
  rw [h.fetch] at hk htakes
  obtain rfl : fetched = k := hk.trans (Nat.zero_add k)
  have hrange : (List.range' 0 fetched).length = fetched := List.length_range'
  obtain ⟨-, hcases⟩ := htakes _ rfl
  rcases hcases with ⟨htimeval, -⟩ | ⟨-, hscalar, -⟩ | ⟨p, -, -, -, hstring⟩ | ⟨p, hap, hf, hns, -⟩
  · rw [htimeval] at hbase
    cases hbase
  · rw [fetchesPointer_of_container hbase] at hscalar
    cases hscalar
  · generalize tree.dtype = d at hbase hstring
    cases d <;> first | cases hbase; done | cases hstring
  · rw [hns] at hrange
    exact ⟨p, congrArg List.head? hap, hf, hrange.symm⟩

theorem Handed.sound (h : Handed m typestr ap call requests offer top f ap' rest fetched) :
    offer.Sound := by
  have houtcome := Heap.parseTypestr_outcome true typestr ap'
  rw [h.parsed] at houtcome
  obtain ⟨howns, hstatic, -⟩ := Heap.Outcome.held houtcome
  refine ⟨fun bs hbs => (h.releases hbs).subperm, ?_, hstatic⟩
  apply howns.mallocs.nodup_iff.mp
  rw [howns.numbered]
  exact List.nodup_range'

/-- Blocks of the value are left if and only if `copy_value` has given up. -/
theorem Handed.left_iff (h : Handed m typestr ap call requests offer top f ap' rest fetched) :
    offer.left = [] ↔ ap.head? = some (.ptr 0) ∨ ¬ (TypeTree.ofDatatype offer.dtype.erase).GivesUp := by
  obtain ⟨-, tree, htree⟩ := h.exists_tree
  rw [h.sound.left_iff, htree, TypeTree.ofDatatype_datatype]
  by_cases hgives : tree.GivesUp
  · have hbase : isBasetype tree.dtype = false := by
      cases hgives with
      | here hc _ _ => exact (TypeTree.datatype_shape hc).1
      | inside hc _ _ => exact (TypeTree.datatype_shape hc).1
    obtain ⟨p, hhead, rfl, rfl⟩ := h.container htree hbase
    have hstored := h.stored
    rw [htree] at hstored
    rw [or_iff_left (not_not.mpr hgives), hhead, Option.some_inj, VArg.ptr.injEq]
    by_cases hp : p = 0
    · obtain rfl := hp
      obtain ⟨-, htaken⟩ := Prod.mk.inj (show
        (Except.ok BlockValue.indeterminate, 0) = (Except.ok offer.value, offer.taken) from hstored)
      exact iff_of_true (.inr htaken.symm) rfl
    · have hlt := storeBlocks_lt m hgives hp 0
      rw [hstored] at hlt
      refine iff_of_false ?_ hp
      rintro (hreleases | htaken)
      · rcases h.stored_cases with ⟨-, -, htaken⟩ | ⟨tree', htree', hnone, -⟩
        · exact absurd htaken (Nat.ne_of_gt hlt)
        · obtain rfl := TypeTree.datatype_injective (htree.symm.trans htree')
          rw [hnone hgives] at hreleases
          exact not_releases_indeterminate hgives _ hreleases
      · exact absurd htaken (Nat.ne_of_gt hlt)
  · refine iff_of_true ?_ (.inr hgives)
    rcases h.stored_cases with ⟨-, -, htaken⟩ | ⟨tree', htree', -, hreleases⟩
    · exact .inr htaken
    · obtain rfl := TypeTree.datatype_injective (htree.symm.trans htree')
      exact .inl (hreleases hgives)

/-- Blocks of the datatype will be lost if and only if there was a lapse. -/
theorem Handed.lost_iff (h : Handed m typestr ap call requests offer top f ap' rest fetched) :
    offer.dtype.lost = [] ↔ ∀ lapse ∈ (outline typestr ap' []).1, lapse.leaves true = false := by
  have houtcome := Heap.parseTypestr_outcome true typestr ap'
  rw [h.parsed] at houtcome
  exact (Heap.Outcome.held houtcome).lost

/-! ## The requests -/

theorem run_opening {call fetched : Nat} {log : List Access} {blocks : List Nat}
    (h : Allocator.run 0 (Heap.requests log) = some (blocks : Multiset Nat)) :
    Allocator.run 0 (openingRequests call fetched log) =
      some ((.cell call :: ((List.range fetched).map (.value call) ++ blocks.map (.dtype call)) :
        List StoreBlock) : Multiset StoreBlock) := by
  have htypes := Allocator.run_map (StoreBlock.dtype call) h
  rw [Multiset.map_zero, Multiset.map_coe] at htypes
  have hvalues := Allocator.run_mallocs 0
    (StoreBlock.cell call :: (List.range fetched).map (StoreBlock.value call))
  rw [← List.cons_append, ← Multiset.coe_add]
  exact Allocator.run_behind hvalues htypes

theorem mallocs_opening (call fetched : Nat) (log : List Access) :
    Allocator.mallocs (openingRequests call fetched log) =
      .cell call :: ((List.range fetched).map (.value call) ++ (Heap.mallocs log).map (.dtype call)) := by
  unfold openingRequests
  rw [Allocator.mallocs_cons_malloc, Allocator.mallocs_append, Allocator.mallocs_map_malloc,
    Allocator.mallocs_map]
  rfl

theorem frees_opening (call fetched : Nat) (log : List Access) :
    Allocator.frees (openingRequests call fetched log) = (Heap.frees log).map (.dtype call) := by
  unfold openingRequests
  rw [Allocator.frees_cons_malloc, Allocator.frees_append, Allocator.frees_map_malloc,
    Allocator.frees_map, List.nil_append]
  rfl

/-- What is handed over is allocated then, and nothing has been released. -/
theorem Handed.run (h : Handed m typestr ap call requests offer top f ap' rest fetched) :
    Allocator.run 0 requests = some (offer.blocks call : Multiset StoreBlock) ∧
      (Allocator.mallocs requests).Perm (offer.blocks call) := by
  obtain ⟨-, tree, htree⟩ := h.exists_tree
  have houtcome := Heap.parseTypestr_outcome true typestr ap'
  rw [h.parsed] at houtcome
  obtain ⟨howns, -, -⟩ := Heap.Outcome.held houtcome
  have hle : fetched ≤ offer.taken := by
    have hle := storeBlocks_le m f tree fetched
    rwa [← htree, h.stored] at hle
  have hrange : List.range offer.taken =
      List.range fetched ++ List.range' fetched (offer.taken - fetched) := by
    have happend := List.range'_append_1 (s := 0) (m := fetched) (n := offer.taken - fetched)
    rw [Nat.zero_add, Nat.add_sub_cancel' hle] at happend
    rw [List.range_eq_range', List.range_eq_range', happend]
  have hblocks : ((List.range' fetched (offer.taken - fetched)).map (StoreBlock.value call) ++
      StoreBlock.cell call :: ((List.range fetched).map (StoreBlock.value call) ++
        offer.dtype.blocks.map (StoreBlock.dtype call))).Perm (offer.blocks call) := by
    unfold Offer.blocks
    rw [hrange, List.map_append, List.append_assoc]
    exact List.perm_middle.trans (List.perm_append_comm_assoc _ _ _ |>.cons _)
  have hrun : Allocator.run 0 requests = some (offer.blocks call : Multiset StoreBlock) := by
    rw [h.requests_eq, ← Multiset.coe_eq_coe.mpr hblocks, ← Multiset.coe_add]
    exact Allocator.run_trans (run_opening howns.accepted) (Allocator.run_mallocs _ _)
  refine ⟨hrun, ?_⟩
  have hfrees : Allocator.frees requests = [] := by
    rw [h.requests_eq, Allocator.frees_append, frees_opening, howns.kept, Allocator.frees_map_malloc]
    rfl
  have hbalance := Allocator.run_balance hrun
  rw [hfrees, Multiset.coe_nil, zero_add, zero_add] at hbalance
  exact Multiset.coe_eq_coe.mp hbalance

end Handed

/-- The number of the registration that a block was allocated for. -/
def StoreBlock.call : StoreBlock → Option Nat
  | .cell call | .value call _ | .dtype call _ | .record call | .name call | .subcategory call
  | .info call => some call
  | .tool _ => none

/-- Whether a block is part of a value or of a datatype. -/
def StoreBlock.isHanded : StoreBlock → Bool
  | .cell _ | .value _ _ | .dtype _ _ => true
  | _ => false

/-- Blocks of one value and its datatype are told apart. -/
theorem nodup_handed {call : Nat} {bs ts : List Nat} (hbs : bs.Nodup) (hts : ts.Nodup) :
    (StoreBlock.cell call :: (bs.map (.value call) ++ ts.map (.dtype call))).Nodup := by
  refine List.nodup_cons.mpr ⟨by simp, List.Nodup.append ?_ ?_ ?_⟩
  · exact hbs.map fun _ _ h => (StoreBlock.value.inj h).2
  · exact hts.map fun _ _ h => (StoreBlock.dtype.inj h).2
  · intro b hb hb'
    obtain ⟨_, -, rfl⟩ := List.mem_map.mp hb
    obtain ⟨_, -, h⟩ := List.mem_map.mp hb'
    cases h

theorem call_handed {call : Nat} {bs ts : List Nat} {b : StoreBlock}
    (hb : b ∈ StoreBlock.cell call :: (bs.map (.value call) ++ ts.map (.dtype call))) :
    b.call = some call ∧ b.isHanded = true := by
  rcases List.mem_cons.mp hb with rfl | hb
  · exact ⟨rfl, rfl⟩
  · rcases List.mem_append.mp hb with hb | hb
    · obtain ⟨_, -, rfl⟩ := List.mem_map.mp hb
      exact ⟨rfl, rfl⟩
    · obtain ⟨_, -, rfl⟩ := List.mem_map.mp hb
      exact ⟨rfl, rfl⟩

/-- A refusal leaves the copy of a `struct timeval` and what the parser loses. -/
theorem Refused.run {call : Nat} {requests : List (Request StoreBlock)} {top : AdiakType}
    {f : FetchedBlocks} {ap' : List VArg} {fetched : Nat}
    (h : Refused m typestr ap call requests top f ap' fetched) :
    (∃ lost : Multiset StoreBlock, Allocator.run 0 requests = some lost ∧
      (lost = 0 ↔ top ≠ .timeval ∧
        ∀ lapse ∈ (outline typestr ap' []).1, lapse.leaves true = false)) ∧
      (Allocator.mallocs requests).Nodup ∧ ∀ b ∈ Allocator.mallocs requests, b.call = some call := by
  have houtcome := Heap.parseTypestr_outcome true typestr ap'
  rw [h.parsed] at houtcome
  obtain ⟨lost, howes, hlost⟩ := Heap.Outcome.failed houtcome
  have hmallocs : Allocator.mallocs requests = .cell call :: ((List.range fetched).map (.value call) ++
      (Heap.mallocs (Heap.parseTypestr true typestr ap' []).1).map (.dtype call)) := by
    rw [h.requests_eq, Allocator.mallocs_append, mallocs_opening]
    exact List.append_nil _
  let left : List StoreBlock := (List.range fetched).map (.value call) ++ lost.map (.dtype call)
  refine ⟨⟨left, ?_, ?_⟩, ?_, ?_⟩
  · have hfree := Allocator.run_frees (left : Multiset StoreBlock) [StoreBlock.cell call]
    rw [Multiset.coe_add] at hfree
    rw [h.requests_eq]
    exact Allocator.run_trans (run_opening howes.accepted) hfree
  · rw [Multiset.coe_eq_zero, List.append_eq_nil_iff, List.map_eq_nil_iff, List.map_eq_nil_iff,
      List.range_eq_nil, h.fetched_eq_zero, hlost]
    exact Iff.rfl
  · rw [hmallocs]
    refine nodup_handed List.nodup_range ?_
    rw [howes.numbered]
    exact List.nodup_range'
  · rw [hmallocs]
    exact fun b hb => (call_handed hb).1

end Outcomes

end Adiak
