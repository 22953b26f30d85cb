import Adiak.Store.Written
import Adiak.Values.Freed

/-!
# What is released of a recorded value

`adiak_namevalue` with the blocks it takes for a value, and the release of the value.

1. `namevalueBlocks` is `namevalueArgs` with blocks (`namevalueBlocks_follows`).
2. `copyBlocks_released`: what `copy_value` builds releases exactly the blocks that were taken for it.
3. `namevalueBlocks_released` says the same of all that `adiak_namevalue` records, unless `copy_value`
   gives up.
-/

namespace Adiak

open TypeTree

/-! ## Building a value -/

/-- The value argument, with the blocks of `value`. -/
structure FetchedBlocks where
  value : BlockValue
  stringPtr : Addr
  containerPtr : Addr

def FetchedBlocks.ofValue (value : BlockValue) : FetchedBlocks where
  value := value
  stringPtr := 0
  containerPtr := 0

def FetchedBlocks.erase (f : FetchedBlocks) : Fetched where
  value := f.value.erase
  stringPtr := f.stringPtr
  containerPtr := f.containerPtr

/-- The `switch` of `adiak_namevalue`: a `struct timeval` is copied to a block. -/
def fetchBlocks (m : Memory) : AdiakType → List VArg → Supply Stop (FetchedBlocks × List VArg)
  | .unset, _ => Supply.lift (.error .null)
  | .long, .long x :: ap | .ulong, .long x :: ap | .date, .long x :: ap =>
    pure (.ofValue (.vLong x), ap)
  | .int, .int x :: ap | .uint, .int x :: ap => pure (.ofValue (.vInt x), ap)
  | .longlong, .longlong x :: ap | .ulonglong, .longlong x :: ap =>
    pure (.ofValue (.vLonglong x), ap)
  | .double, .double x :: ap => pure (.ofValue (.vDouble x), ap)
  | .timeval, .ptr p :: ap => do
    let b ← Supply.fresh
    let v ← Supply.lift (m.loadTimeval p)
    pure (.ofValue (.vPtr (.timeval b v)), ap)
  | .version, .ptr p :: ap | .string, .ptr p :: ap | .catstring, .ptr p :: ap
  | .jsonstring, .ptr p :: ap | .path, .ptr p :: ap =>
    pure ({ value := .indeterminate, stringPtr := p, containerPtr := 0 }, ap)
  | .range, .ptr p :: ap | .set, .ptr p :: ap | .list, .ptr p :: ap | .tuple, .ptr p :: ap =>
    pure ({ value := .indeterminate, stringPtr := 0, containerPtr := p }, ap)
  | _, _ => Supply.lift (.error .undefined)

/-- The end of `adiak_namevalue`. -/
def storeBlocks (m : Memory) (f : FetchedBlocks) (t : AdiakDatatype) : Supply Stop BlockValue :=
  if f.stringPtr ≠ 0 then
    if t.isReference then pure (.vPtr (.caller f.stringPtr))
    else do
      let s ← Supply.lift (m.loadCstr f.stringPtr)
      let b ← Supply.fresh
      pure (.vPtr (.strdup b s))
  else if f.containerPtr ≠ 0 then
    if t.isReference then pure (.vPtr (.caller f.containerPtr))
    else do
      match ← Supply.attempt (copyBlocks m t f.containerPtr) with
      | .ok (v, _) => pure v
      | .error .null => pure f.value
      | .error e => Supply.lift (.error e)
  else pure f.value

/-- The value and the datatype that `adiak_namevalue` hands to `adiak_raw_namevalue`. -/
def namevalueBlocks (m : Memory) (typestr : List Char) (ap : List VArg) :
    Supply Stop (BlockValue × AdiakDatatype) := do
  let toptype ← Supply.lift (toplevelType typestr)
  let (f, ap) ← fetchBlocks m toptype ap
  let (t, _) ← Supply.lift (parseTypestr typestr ap)
  let v ← storeBlocks m f t
  pure (v, t)

/-! ## Without the blocks -/

theorem fetchBlocks_follows (m : Memory) (top : AdiakType) (ap : List VArg) :
    Supply.Follows (fun r => (r.1.erase, r.2)) (fetchBlocks m top ap) (fetchArg m top ap) := by
  cases ap with
  | nil => cases top <;> exact fun _ => rfl
  | cons a ap =>
    cases top <;> cases a <;> first
      | exact fun _ => rfl
      | skip
    refine Supply.Follows.bind_left (fun _ => rfl) fun b => ?_
    exact (Supply.follows_lift _).bind fun tv => fun _ => rfl

theorem storeBlocks_follows (m : Memory) (f : FetchedBlocks) (t : AdiakDatatype) :
    Supply.Follows BlockValue.erase (storeBlocks m f t) (storeFetched m f.erase t) := by
  refine Supply.Follows.ite _ (fun _ => ?_) fun _ => Supply.Follows.ite _ (fun _ => ?_) fun _ => ?_
  · refine Supply.Follows.ite _ (fun _ => fun _ => rfl) fun _ => ?_
    exact (Supply.follows_lift _).bind fun s => fun _ => rfl
  · refine Supply.Follows.ite _ (fun _ => fun _ => rfl) fun _ => ?_
    refine Supply.Follows.bind_attempt (copyBlocks_follows m t f.containerPtr) fun r hr => ?_
    dsimp only [FetchedBlocks.erase]
    rw [← hr]
    cases r with
    | ok a => exact fun _ => rfl
    | error e => cases e <;> exact fun _ => rfl
  · exact fun _ => rfl

/-- Without its blocks, the value is what `namevalueArgs` gives. -/
theorem namevalueBlocks_follows (m : Memory) (typestr : List Char) (ap : List VArg) :
    Supply.Follows (fun r => (r.1.erase, r.2)) (namevalueBlocks m typestr ap)
      (namevalueArgs m typestr ap) := by
  refine (Supply.follows_lift _).bind fun top => ?_
  refine (fetchBlocks_follows m top ap).bind fun ⟨f, ap'⟩ => ?_
  refine (Supply.follows_lift _).bind fun ⟨t, rest⟩ => ?_
  exact (storeBlocks_follows m f t).bind fun v => fun _ => rfl

/-! ## What is taken -/

/-- What is fetched: a `struct timeval` takes a block, a scalar none, of the others a pointer is
kept. -/
def FetchedAs (top : AdiakType) (ap : List VArg) (r : FetchedBlocks × List VArg) (ns : List Nat) :
    Prop :=
  top ≠ .unset ∧
    ((top = .timeval ∧ ∃ b tv, r.1 = .ofValue (.vPtr (.timeval b tv)) ∧ ns = [b]) ∨
      (top ≠ .timeval ∧ top.fetchesPointer = false ∧ ns = [] ∧ ∃ v, r.1 = .ofValue v) ∨
      (∃ p, ap = .ptr p :: r.2 ∧ r.1 = ⟨.indeterminate, p, 0⟩ ∧ ns = [] ∧ top.isString = true) ∨
      ∃ p, ap = .ptr p :: r.2 ∧ r.1 = ⟨.indeterminate, 0, p⟩ ∧ ns = [] ∧ isBasetype top = false)

theorem fetchBlocks_takes (m : Memory) (top : AdiakType) (ap : List VArg) :
    Supply.Takes (FetchedAs top ap) (fetchBlocks m top ap) := by
  cases ap with
  | nil => cases top <;> exact Supply.takes_lift fun _ h => by cases h
  | cons a ap =>
    cases top <;> cases a <;> first
      | exact Supply.takes_pure ⟨by decide, .inr (.inl ⟨by decide, rfl, rfl, _, rfl⟩)⟩
      | exact Supply.takes_pure ⟨by decide, .inr (.inr (.inl ⟨_, rfl, rfl, rfl, rfl⟩))⟩
      | exact Supply.takes_pure ⟨by decide, .inr (.inr (.inr ⟨_, rfl, rfl, rfl, rfl⟩))⟩
      | exact Supply.takes_lift fun _ h => nomatch h
      | skip
    refine Supply.takes_fresh_bind fun b => Supply.takes_lift_bind fun tv _ => ?_
    exact Supply.takes_pure ⟨by decide, .inl ⟨rfl, b, tv, rfl, rfl⟩⟩

/-- What is stored at a type: a value that releases these blocks, or nothing if `copy_value` gives
up. -/
def StoredAs (t : TypeTree) (v : BlockValue) (ns : List Nat) : Prop :=
  (t.GivesUp → v = .indeterminate) ∧ (¬ t.GivesUp → Releases t.datatype v ns)

theorem StoredAs.leaf {t : TypeTree} (hleaf : t.container = none) {v : BlockValue} {ns : List Nat}
    (h : Releases t.datatype v ns) : StoredAs t v ns := by
  refine ⟨fun hgives => absurd hgives (not_givesUp fun ts hc => ?_), fun _ => h⟩
  rw [hleaf] at hc
  cases hc

theorem storeBlocks_string {m : Memory} {t : TypeTree} (hstring : t.dtype.isString = true)
    {p : Addr} (hp : p ≠ 0) :
    Supply.Takes (StoredAs t) (storeBlocks m ⟨.indeterminate, p, 0⟩ t.datatype) := by
  unfold storeBlocks
  rw [if_pos hp]
  cases t with
  | scalar s => cases s <;> cases hstring
  | str k ref =>
    cases k <;> cases ref
    all_goals
      first
        | exact Supply.takes_pure (StoredAs.leaf rfl ⟨[], rfl, .refl _⟩)
        | exact Supply.takes_lift_bind fun s _ => Supply.takes_fresh_bind fun b =>
            Supply.takes_pure (StoredAs.leaf rfl ⟨[b], rfl, .refl _⟩)
  | coll k ref n elem => cases k <;> cases hstring
  | range ref elem => cases hstring
  | tuple ref comps => cases hstring

theorem storeBlocks_container {m : Memory} {t : TypeTree} (hbase : isBasetype t.dtype = false)
    {p : Addr} (hp : p ≠ 0) :
    Supply.Takes (StoredAs t) (storeBlocks m ⟨.indeterminate, 0, p⟩ t.datatype) := by
  obtain ⟨ref, ts, hc⟩ := exists_container hbase
  unfold storeBlocks
  rw [if_neg (not_not.mpr rfl), if_pos hp, isReference_datatype hc]
  cases ref with
  | true =>
    rw [if_pos rfl]
    refine Supply.takes_pure ⟨fun hgives => absurd hgives (not_givesUp fun ts' hc' => ?_), fun _ => ?_⟩
    · rw [hc] at hc'
      cases hc'
    · obtain ⟨-, n, subs, -, -, hdatatype, -⟩ := datatype_shape hc
      rw [hdatatype]
      exact ⟨[], releaseBlocks_reference subs _ rfl, .refl _⟩
  | false =>
    rw [if_neg Bool.false_ne_true]
    refine (copyBlocks_takes t p).bind_attempt (copyBlocks_follows m _ p) fun r ns hr hreleases => ?_
    have hyields := copyValue_yields (m := m) t p
    cases r with
    | ok a =>
      obtain ⟨-, -, hno⟩ := hyields.ok hr.symm
      refine Supply.takes_pure ⟨fun hgives => absurd hgives hno, fun _ => ?_⟩
      rw [List.append_nil]
      exact hreleases a rfl
    | error e =>
      cases e with
      | null =>
        have hgives := hyields.null hr.symm
        exact Supply.takes_pure ⟨fun _ => rfl, fun hno => absurd hgives hno⟩
      | undefined => exact Supply.takes_lift fun _ h => by cases h
      | fuel => exact Supply.takes_lift fun _ h => by cases h

/-- A scalar that is written at once releases nothing. -/
theorem releases_scalar {t : TypeTree} (htimeval : t.dtype ≠ .timeval)
    (hscalar : t.dtype.fetchesPointer = false) (v : BlockValue) : StoredAs t v [] := by
  cases t with
  | scalar s =>
    cases s
    case timeval => exact absurd rfl htimeval
    all_goals exact StoredAs.leaf rfl ⟨[], rfl, .refl _⟩
  | str k ref => cases k <;> cases hscalar
  | coll k ref n elem => cases k <;> cases hscalar
  | range ref elem => cases hscalar
  | tuple ref comps => cases hscalar

theorem storeBlocks_ofValue (m : Memory) (v : BlockValue) (t : AdiakDatatype) :
    storeBlocks m (.ofValue v) t = pure v := rfl

/-- All that `adiak_namevalue` builds from pointers that are not `NULL` is stored so. -/
theorem namevalueBlocks_takes (m : Memory) {typestr : List Char} {a : VArg} {ap : List VArg}
    (hptr : ∀ top, toplevelType typestr = .ok top → top.fetchesPointer = true → a ≠ .ptr 0) :
    Supply.Takes (fun r ns => ∃ tree : TypeTree, r.2 = tree.datatype ∧ StoredAs tree r.1 ns)
      (namevalueBlocks m typestr (a :: ap)) := by
  refine Supply.takes_lift_bind fun top htop => ?_
  refine (fetchBlocks_takes m top (a :: ap)).bind fun ⟨f, ap'⟩ ns ⟨hset, hf⟩ => ?_
  refine Supply.takes_lift_bind fun ⟨t, rest⟩ hparse => ?_
  dsimp only at hf hparse ⊢
  obtain ⟨tree, rfl⟩ : ∃ tree : TypeTree, t = tree.datatype := by
    rcases parseTypestr_takes hparse with ⟨tree, -, ht, -⟩ | ⟨hblank, -⟩
    · exact ⟨tree, ht⟩
    · exact absurd (Except.ok.inj (htop.symm.trans (toplevelType_blank hblank))) hset
  have hdtype : top = tree.dtype ∨
      (top = .ulong ∨ top = .ulonglong) ∧ (tree.dtype = .uint ∨ tree.dtype = .ulonglong) := by
    rw [← dtype_datatype]
    exact or_iff_not_imp_left.mpr (toplevel_of_ne hparse htop hset)
  suffices hstored : Supply.Takes (fun v ns' => StoredAs tree v (ns ++ ns'))
      (storeBlocks m f tree.datatype) from
    hstored.bind fun v ns' hv => Supply.takes_pure ⟨tree, rfl, by rwa [List.append_nil]⟩
  have hne : ∀ p, a :: ap = .ptr p :: ap' → top.fetchesPointer = true → p ≠ 0 := by
    rintro p hap hpointer rfl
    exact hptr top htop hpointer (List.cons.inj hap).1
  rcases hf with ⟨htimeval, b, tv, rfl, rfl⟩ | ⟨htimeval, hscalar, rfl, v, rfl⟩ |
    ⟨p, hap, rfl, rfl, hstring⟩ | ⟨p, hap, rfl, rfl, hbase⟩
  · have htree : tree.dtype = .timeval := by
      rcases hdtype with h | ⟨h | h, -⟩
      · rw [← h, htimeval]
      all_goals rw [h] at htimeval; cases htimeval
    rw [storeBlocks_ofValue]
    refine Supply.takes_pure ?_
    cases tree with
    | scalar s => cases s <;> first | cases htree; done | exact StoredAs.leaf rfl ⟨[b], rfl, .refl _⟩
    | str k ref => cases k <;> cases htree
    | coll k ref n elem => cases k <;> cases htree
    | range ref elem => cases htree
    | tuple ref comps => cases htree
  · rw [storeBlocks_ofValue]
    refine Supply.takes_pure (releases_scalar ?_ ?_ v)
    · rcases hdtype with rfl | ⟨-, h | h⟩
      · exact htimeval
      all_goals rw [h]; decide
    · rcases hdtype with rfl | ⟨-, h | h⟩
      · exact hscalar
      all_goals rw [h]; rfl
  · obtain rfl : top = tree.dtype := hdtype.resolve_right fun h => by
      rcases h.1 with rfl | rfl <;> cases hstring
    exact storeBlocks_string hstring (hne p hap (fetchesPointer_of_isString hstring))
  · obtain rfl : top = tree.dtype := hdtype.resolve_right fun h => by
      rcases h.1 with rfl | rfl <;> cases hbase
    exact storeBlocks_container hbase (hne p hap (fetchesPointer_of_container hbase))

/-! ## What is released -/

/-- A copied container that was not written cannot be released. -/
theorem not_releases_indeterminate {t : TypeTree} (hgives : t.GivesUp) (ns : List Nat) :
    ¬ Releases t.datatype .indeterminate ns := by
  cases hgives with
  | here hc _ _ => exact not_releases_container hc ns
  | inside hc _ _ => exact not_releases_container hc ns

/-- What is copied and built releases exactly the blocks that were taken for it, each once, unless
`copy_value` gives up at its type. -/
theorem releases_iff (m : Memory) :
    (∀ (t : TypeTree) (p : Addr) (next : Nat), Answers (copyBlocks m t.datatype p next).1 →
      ((∃ v size, (copyBlocks m t.datatype p next).1 = .ok (v, size) ∧ Releases t.datatype v
          (List.range' next ((copyBlocks m t.datatype p next).2 - next))) ↔ ¬ t.GivesUp)) ∧
    ∀ (typestr : List Char) (a : VArg) (ap : List VArg) (next next' : Nat) (v : BlockValue)
      (t : AdiakDatatype),
      (∀ top, toplevelType typestr = .ok top → top.fetchesPointer = true → a ≠ .ptr 0) →
      namevalueBlocks m typestr (a :: ap) next = (.ok (v, t), next') →
      (Releases t v (List.range' next (next' - next)) ↔ ¬ (ofDatatype t).GivesUp) := by
  constructor
  · intro t p next hanswers
    have hyields := copyValue_yields (m := m) t p
    rw [← copyBlocks_follows m t.datatype p next] at hyields
    obtain ⟨k, hk, hreleases⟩ := copyBlocks_takes (m := m) t p next
    rw [hk, Nat.add_sub_cancel_left]
    rcases hanswers with hnull | ⟨⟨v, size⟩, hok⟩
    · have hgives : t.GivesUp := hyields.null (by rw [hnull]; rfl)
      refine iff_of_false ?_ (not_not.mpr hgives)
      rintro ⟨v, size, hok, -⟩
      rw [hnull] at hok
      cases hok
    · obtain ⟨-, -, hno⟩ := hyields.ok (a := (v.erase, size)) (by rw [hok]; rfl)
      exact iff_of_true ⟨v, size, hok, hreleases _ hok⟩ hno
  · intro typestr a ap next next' v t hptr hrun
    obtain ⟨k, hk, hstored⟩ := namevalueBlocks_takes m hptr next
    rw [hrun] at hk hstored
    obtain rfl : next' = next + k := hk
    obtain ⟨tree, rfl, hstored⟩ := hstored _ rfl
    rw [Nat.add_sub_cancel_left, ofDatatype_datatype]
    refine ⟨fun hreleases hgives => ?_, hstored.2⟩
    obtain rfl : v = .indeterminate := hstored.1 hgives
    exact not_releases_indeterminate hgives _ hreleases

/-- Once the argument is fetched and the typestring parsed, the value is stored. -/
theorem namevalueBlocks_eq {m : Memory} {typestr : List Char} {ap ap' rest : List VArg}
    {top : AdiakType} {f : FetchedBlocks} {t : AdiakDatatype} {v : BlockValue} {next k next' : Nat}
    (htop : toplevelType typestr = .ok top) (hfetch : fetchBlocks m top ap next = (.ok (f, ap'), k))
    (hparse : parseTypestr typestr ap' = .ok (t, rest)) (hstore : storeBlocks m f t k = (.ok v, next')) :
    namevalueBlocks m typestr ap next = (.ok (v, t), next') := by
  -- the steps do not look into the parser
  obtain ⟨parse, heq⟩ : ∃ parse, parse = parseTypestr typestr := ⟨_, rfl⟩
  rw [← heq] at hparse
  rw [namevalueBlocks, htop, ← heq]
  simp only [Supply.bind_apply, Supply.lift, hfetch, hparse, hstore]
  rfl

/-- A list of two strings, and `%s`. -/
theorem releases_iff_strings :
    (∃ v size, (copyBlocks { Memory.empty with byte := fun _ => some 1, cstr := fun _ => some ['x'] }
        (TypeTree.coll .list false 2 (.str .string false)).datatype 16 0).1 = .ok (v, size) ∧
      Releases (TypeTree.coll .list false 2 (.str .string false)).datatype v [0, 1, 2]) ∧
    Releases baseString (.vPtr (.strdup 5 ['x'])) [5] := by
  constructor
  · obtain ⟨h, -⟩ := releases_iff
      { Memory.empty with byte := fun _ => some 1, cstr := fun _ => some ['x'] }
    refine (h (.coll .list false 2 (.str .string false)) 16 0 (.inr ⟨_, rfl⟩)).mpr ?_
    intro hgives
    have hno : ∀ ts, (TypeTree.str .string false).container ≠ some (false, ts) := fun ts hc => by cases hc
    obtain ⟨u, hu, hsize | hgives⟩ := (givesUp_iff rfl).mp hgives
    · obtain rfl := List.eq_of_mem_replicate hu
      exact absurd hsize (by decide)
    · obtain rfl := List.eq_of_mem_replicate hu
      exact not_givesUp hno hgives
  · obtain ⟨-, h⟩ := releases_iff { Memory.empty with cstr := fun _ => some ['x'] }
    have hparse : parseTypestr ['%', 's'] [] = .ok (baseString, []) := by
      rw [parseTypestr_of_lt (by decide)]
      rfl
    refine (h ['%', 's'] (.ptr 1) [] 5 6 _ _ ?_ (namevalueBlocks_eq rfl rfl hparse rfl)).mpr ?_
    · intro top _ _ ha
      exact absurd (VArg.ptr.inj ha) (by decide)
    · exact not_givesUp fun ts hc => by cases hc

/-- `(&{{%u8}})` with one list of 65537 lists of 65535 bytes, whose size is taken for a failure: the
array of the tuple stays allocated, and the record is left with a value that cannot be released. -/
theorem releases_iff_not_always : ¬ ∀ (m : Memory) (typestr : List Char) (a : VArg)
    (ap : List VArg) (next next' : Nat) (v : BlockValue) (t : AdiakDatatype),
    (∀ top, toplevelType typestr = .ok top → top.fetchesPointer = true → a ≠ .ptr 0) →
    namevalueBlocks m typestr (a :: ap) next = (.ok (v, t), next') →
    Releases t v (List.range' next (next' - next)) := by
  intro h
  have hrun : ∃ t, namevalueBlocks Memory.empty "(&\x7b\x7b%u8\x7d\x7d)".toList
      [.ptr 16, .int 1, .int 65537, .int 65535] 0 = (.ok (.indeterminate, t), 1) ∧
      releaseBlocks t .indeterminate = .error .undefined := by
    have hparse : parseTypestr "(&\x7b\x7b%u8\x7d\x7d)".toList [.int 1, .int 65537, .int 65535] =
        .ok ((TypeTree.tuple false [.coll .list true 65537 (.coll .list true 65535
          (.scalar .u8))]).datatype, []) := by
      rw [parseTypestr_of_lt (by decide)]
      rfl
    exact ⟨_, namevalueBlocks_eq rfl rfl hparse rfl, rfl⟩
  obtain ⟨t, hrun, hfail⟩ := hrun
  obtain ⟨bs, hbs, -⟩ := h _ _ _ _ _ _ _ _
    (fun top _ _ ha => absurd (VArg.ptr.inj ha) (by decide)) hrun
  rw [hfail] at hbs
  cases hbs

end Adiak
