import Adiak.Library.Supply
import Adiak.Store.Record
import Adiak.Values.Copied

/-!
# Blocks

`copy_value` allocates, `free_adiak_value_worker` releases. Here the blocks have an identity: they are
numbered in the order in which they are allocated.

1. `copyBlocks` is `copy_value` with the blocks it takes. Without them it is `copyValue`
   (`copyBlocks_follows`).
2. `releaseBlocks` lists the blocks that `free_adiak_value_worker` releases. It fails where
   `freeAdiakValueWorker` does (`releaseBlocks_isOk`).
3. `copyBlocks_takes`: what was copied releases the blocks that were taken for it, each once.
-/

namespace Adiak

open TypeTree

/-! ## Values with their blocks -/

/-- A `void *` of an `adiak_value_t`: a copy leads to a block. -/
inductive BlockPointer where
  | caller (p : Addr)
  | strdup (block : Nat) (s : CStr)
  | timeval (block : Nat) (tv : Timeval)

/-- An `adiak_value_t`. The array of `v_subval` has a block unless `malloc` returned `NULL`. -/
inductive BlockValue where
  | indeterminate
  | vLong (x : Int)
  | vInt (x : Int)
  | vDouble (x : CDouble)
  | vLonglong (x : Int)
  | vPtr (p : BlockPointer)
  | vSubval (block : Option Nat) (elems : List BlockValue)

/-- The pointer without its block. -/
def BlockPointer.erase : BlockPointer → Pointer
  | .caller p => .caller p
  | .strdup _ s => .strdup s
  | .timeval _ tv => .timeval tv

mutual

/-- The value without its blocks. -/
def BlockValue.erase : BlockValue → AdiakValue
  | .indeterminate => .indeterminate
  | .vLong x => .vLong x
  | .vInt x => .vInt x
  | .vDouble x => .vDouble x
  | .vLonglong x => .vLonglong x
  | .vPtr p => .vPtr p.erase
  | .vSubval _ elems => .vSubval (eraseAll elems)

def eraseAll : List BlockValue → List AdiakValue
  | [] => []
  | v :: vs => v.erase :: eraseAll vs

end

theorem eraseAll_eq_map (vs : List BlockValue) : eraseAll vs = vs.map BlockValue.erase := by
  induction vs with
  | nil => rfl
  | cons v vs ih => rw [eraseAll, ih, List.map_cons]

/-! ## Copying -/

/-- Copying one value of a fixed type, with the blocks taken. -/
abbrev BlockCopier := Addr → Supply Stop (BlockValue × Int)

/-- `malloc` of an array: a negative count asks for more than there is. -/
def mallocArray (n : Int) : Supply Stop (Option Nat) :=
  if n < 0 then pure none
  else do
    let b ← Supply.fresh
    pure (some b)

/-- The loop of `copy_value`. -/
def copyLoopBlocks (copiers : List BlockCopier) (isTuple : Bool) (ptr : Addr) :
    Nat → Nat → Int → Supply Stop (List BlockValue × Int)
  | 0, _, bytesRead => pure ([], bytesRead)
  | n + 1, typeIndex, bytesRead =>
    match copiers[typeIndex]? with
    | none => Supply.lift (.error .undefined)
    | some copy => do
      let (newvalue, result) ← copy (ptr + bytesRead)
      if result = -1 then Supply.lift (.error .null)
      else
        let (newvalues, bytesRead) ← copyLoopBlocks copiers isTuple ptr n
          (if isTuple then typeIndex + 1 else typeIndex) (wrapInt (bytesRead + result))
        pure (newvalue :: newvalues, bytesRead)

mutual

/-- `copy_value`. The blocks of a copy that fails stay taken. -/
def copyBlocks (m : Memory) : AdiakDatatype → BlockCopier
  | .null, _ => Supply.lift (.error .undefined)
  | .node info subtype, ptr =>
    match info.dtype with
    | .unset => Supply.lift (.error .null)
    | .long | .ulong | .date => do
      let x ← Supply.lift (m.loadSigned ptr 8)
      pure (.vLong x, 8)
    | .longlong | .ulonglong => do
      let x ← Supply.lift (m.loadSigned ptr 8)
      pure (.vLonglong x, 8)
    | .int | .uint => do
      let x ← Supply.lift (loadInt m info.numBytes ptr)
      pure (.vInt x, info.numBytes)
    | .double => do
      let x ← Supply.lift (loadDouble m info.numBytes ptr)
      pure (.vDouble x, info.numBytes)
    | .timeval => do
      let v ← Supply.lift (m.loadAddr ptr)
      if info.isReference then pure (.vPtr (.caller v), 8)
      else
        let tmp ← Supply.fresh
        let tv ← Supply.lift (m.loadTimeval v)
        pure (.vPtr (.timeval tmp tv), 8)
    | .version | .string | .catstring | .jsonstring | .path => do
      let sptr ← Supply.lift (m.loadAddr ptr)
      if info.isReference then pure (.vPtr (.caller sptr), 8)
      else
        let s ← Supply.lift (m.loadCstr sptr)
        let b ← Supply.fresh
        pure (.vPtr (.strdup b s), 8)
    | .range | .set | .list | .tuple =>
      if info.isReference then do
        let size ← Supply.lift (calcSize (.node info subtype))
        pure (.vPtr (.caller ptr), size)
      else do
        let block ← mallocArray info.numElements
        let (newvalues, bytesRead) ← copyLoopBlocks (copiersBlocks m subtype)
          (info.dtype = .tuple) ptr info.numElements.toNat 0 0
        pure (.vSubval block newvalues, bytesRead)

def copiersBlocks (m : Memory) : List AdiakDatatype → List BlockCopier
  | [] => []
  | t :: ts => (fun ptr => copyBlocks m t ptr) :: copiersBlocks m ts

end

theorem copiersBlocks_eq_map (m : Memory) (ts : List AdiakDatatype) :
    copiersBlocks m ts = ts.map (copyBlocks m) := by
  induction ts with
  | nil => rfl
  | cons t ts ih => rw [copiersBlocks, ih, List.map_cons]

theorem copyBlocks_container (m : Memory) {info : TypeNode} (subtype : List AdiakDatatype)
    (ptr : Addr) (hbase : isBasetype info.dtype = false) (href : info.isReference = false) :
    copyBlocks m (.node info subtype) ptr = (do
      let block ← mallocArray info.numElements
      let (newvalues, bytesRead) ← copyLoopBlocks (copiersBlocks m subtype)
        (info.dtype = .tuple) ptr info.numElements.toNat 0 0
      pure (.vSubval block newvalues, bytesRead)) := by
  obtain ⟨dtype, numerical, numElements, isReference, numRefElements, numBytes⟩ := info
  obtain rfl : isReference = false := href
  replace hbase : isBasetype dtype = false := hbase
  cases dtype <;> first | exact absurd hbase (by decide) | rfl

theorem copyBlocks_reference (m : Memory) {info : TypeNode} (subtype : List AdiakDatatype)
    (ptr : Addr) (hbase : isBasetype info.dtype = false) (href : info.isReference = true) :
    copyBlocks m (.node info subtype) ptr = (do
      let size ← Supply.lift (calcSize (.node info subtype))
      pure (.vPtr (.caller ptr), size)) := by
  obtain ⟨dtype, numerical, numElements, isReference, numRefElements, numBytes⟩ := info
  obtain rfl : isReference = true := href
  replace hbase : isBasetype dtype = false := hbase
  cases dtype <;> first | exact absurd hbase (by decide) | rfl

/-- What is copied, without its blocks. -/
def eraseCopied (r : BlockValue × Int) : AdiakValue × Int := (r.1.erase, r.2)

theorem mallocArray_follows (n : Int) :
    Supply.Follows (fun _ => ()) (mallocArray n) (.ok ()) := by
  unfold mallocArray
  split_ifs
  · exact Supply.follows_pure (fun _ => ()) none
  · exact fun _ => rfl

theorem copyLoopBlocks_follows {m : Memory} {subtype : List AdiakDatatype}
    (h : ∀ s ∈ subtype, ∀ p, Supply.Follows eraseCopied (copyBlocks m s p) (copyValue m s p))
    (isTuple : Bool) (ptr : Addr) (n typeIndex : Nat) (bytesRead : Int) :
    Supply.Follows (fun r => (eraseAll r.1, r.2))
      (copyLoopBlocks (subtype.map (copyBlocks m)) isTuple ptr n typeIndex bytesRead)
      (copyLoop (subtype.map (copyValue m)) isTuple ptr n typeIndex bytesRead) := by
  induction n generalizing typeIndex bytesRead with
  | zero => exact Supply.follows_pure (fun r : List BlockValue × Int => (eraseAll r.1, r.2)) _
  | succ n ih =>
    rw [copyLoopBlocks, copyLoop, List.getElem?_map, List.getElem?_map]
    cases hs : subtype[typeIndex]? with
    | none => exact fun _ => rfl
    | some s =>
      refine (h s (List.mem_of_getElem? hs) _).bind fun x => ?_
      obtain ⟨v, result⟩ := x
      dsimp only [eraseCopied]
      by_cases hresult : result = -1
      · rw [if_pos hresult, if_pos hresult]
        exact fun _ => rfl
      · rw [if_neg hresult, if_neg hresult]
        exact (ih _ _).bind fun _ => fun _ => rfl

/-- Without its blocks, a copy is what `copyValue` gives. -/
theorem copyBlocks_follows (m : Memory) (t : AdiakDatatype) (p : Addr) :
    Supply.Follows eraseCopied (copyBlocks m t p) (copyValue m t p) := by
  induction t generalizing p with
  | null => exact fun _ => rfl
  | node info subtype ih =>
    obtain ⟨dtype, numerical, numElements, isReference, numRefElements, numBytes⟩ := info
    unfold copyBlocks copyValue
    rw [copiersBlocks_eq_map, copyValues_eq_map]
    have hloop := copyLoopBlocks_follows ih
    cases dtype
    case unset => exact fun _ => rfl
    case timeval =>
      refine (Supply.follows_lift _).bind fun a => ?_
      cases isReference
      · refine Supply.Follows.bind_left (fun _ => rfl) fun tmp => ?_
        exact (Supply.follows_lift _).bind fun tv => fun _ => rfl
      · exact fun _ => rfl
    case version | string | catstring | jsonstring | path =>
      refine (Supply.follows_lift _).bind fun a => ?_
      cases isReference
      · exact (Supply.follows_lift _).bind fun s => fun _ => rfl
      · exact fun _ => rfl
    case range | set | list | tuple =>
      cases isReference
      · refine (mallocArray_follows numElements).bind_left fun block => ?_
        exact (hloop _ p _ 0 0).bind fun r => fun _ => rfl
      · exact (Supply.follows_lift _).bind fun s => fun _ => rfl
    all_goals exact (Supply.follows_lift _).bind fun x => fun _ => rfl

/-! ## Releasing -/

/-- `free` on a pointer of a value: the block it releases, if any. Only `NULL` and copies may be
released. -/
def freeBlock : BlockValue → Except Stop (List Nat)
  | .vPtr (.caller p) => if p = 0 then .ok [] else .error .undefined
  | .vPtr (.strdup b _) | .vPtr (.timeval b _) => .ok [b]
  | _ => .error .undefined

/-- The loops of `free_adiak_value_worker` over the next `n` elements. Behind the array nothing has been
written. -/
def releaseLoop (releases : List (BlockValue → Except Stop (List Nat))) (isTuple : Bool)
    (values : List BlockValue) : Nat → Nat → Except Stop (List Nat)
  | 0, _ => .ok []
  | n + 1, i =>
    match releases[if isTuple then i else 0]? with
    | some release => do
      let bs ← release (values[i]?.getD .indeterminate)
      let bs' ← releaseLoop releases isTuple values n (i + 1)
      .ok (bs ++ bs')
    | none => .error .undefined

mutual

/-- `free_adiak_value_worker`, by the blocks that it releases in order. -/
def releaseBlocks : AdiakDatatype → BlockValue → Except Stop (List Nat)
  | .null, _ => .error .undefined
  | .node info subtype, v =>
    if info.isReference then .ok []
    else
      match info.dtype with
      | .unset | .long | .ulong | .longlong | .ulonglong | .int | .uint | .double | .date => .ok []
      | .timeval | .version | .string | .catstring | .jsonstring | .path => freeBlock v
      | .range | .set | .list | .tuple =>
        match v with
        | .vSubval block values => do
          let bs ← releaseLoop (releasers subtype) (info.dtype = .tuple) values
            info.numElements.toNat 0
          .ok (bs ++ block.toList)
        | _ => do
          let bs ← releaseLoop (releasers subtype) (info.dtype = .tuple) [] info.numElements.toNat 0
          let bs' ← freeBlock v
          .ok (bs ++ bs')

def releasers : List AdiakDatatype → List (BlockValue → Except Stop (List Nat))
  | [] => []
  | t :: ts => (fun v => releaseBlocks t v) :: releasers ts

end

theorem releasers_eq_map (ts : List AdiakDatatype) : releasers ts = ts.map releaseBlocks := by
  induction ts with
  | nil => rfl
  | cons t ts ih => rw [releasers, ih, List.map_cons]

/-- A guard in front of a computation. -/
theorem isOk_guard {α : Type} (p : Prop) [Decidable p] (x : Except Stop α) :
    (if p then x else .error .undefined).isOk = (decide p && x.isOk) := by
  by_cases hp : p
  · rw [if_pos hp, decide_eq_true hp, Bool.true_and]
  · rw [if_neg hp, decide_eq_false hp, Bool.false_and]
    rfl

theorem isOk_bind {α β : Type} (x : Except Stop α) {f : α → Except Stop β} {b : Bool}
    (hf : ∀ a, (f a).isOk = b) : (x >>= f).isOk = (x.isOk && b) := by
  cases x with
  | error e => rfl
  | ok a => exact hf a

theorem isOk_bind_ok {α β : Type} (x : Except Stop α) (f : α → β) :
    (x >>= fun a => .ok (f a)).isOk = x.isOk := by
  cases x <;> rfl

theorem isOk_freeBlock (v : BlockValue) : (freeBlock v).isOk = freePtr v.erase := by
  cases v with
  | vPtr p =>
    cases p with
    | caller p =>
      refine (isOk_guard (p = 0) (Except.ok [])).trans ?_
      exact Bool.and_true _
    | strdup b s => rfl
    | timeval b tv => rfl
  | _ => rfl

theorem isOk_releaseLoop {subtype : List AdiakDatatype}
    (h : ∀ s ∈ subtype, ∀ v : BlockValue, (releaseBlocks s v).isOk = freeAdiakValueWorker s v.erase)
    (isTuple : Bool) (values : List BlockValue) (n i : Nat) :
    (releaseLoop (subtype.map releaseBlocks) isTuple values n i).isOk =
      freeLoop (subtype.map freeAdiakValueWorker) isTuple (eraseAll values) n i := by
  induction n generalizing i with
  | zero => rfl
  | succ n ih =>
    have hread : (values[i]?.getD .indeterminate).erase =
        (eraseAll values)[i]?.getD .indeterminate := by
      rw [eraseAll_eq_map, List.getElem?_map]
      cases values[i]? <;> rfl
    rw [releaseLoop, freeLoop, List.getElem?_map, List.getElem?_map, ← hread]
    cases hs : subtype[if isTuple then i else 0]? with
    | none => rfl
    | some s =>
      dsimp only [Option.map_some]
      rw [isOk_bind _ fun bs => isOk_bind_ok _ _, h s (List.mem_of_getElem? hs), ih]

theorem freeWorkers_eq_map (ts : List AdiakDatatype) :
    freeWorkers ts = ts.map freeAdiakValueWorker := by
  induction ts with
  | nil => rfl
  | cons t ts ih => rw [freeWorkers, ih, List.map_cons]

/-- All that is released may be released exactly if `freeAdiakValueWorker` says so. -/
theorem releaseBlocks_isOk (t : AdiakDatatype) (v : BlockValue) :
    (releaseBlocks t v).isOk = freeAdiakValueWorker t v.erase := by
  induction t generalizing v with
  | null => rfl
  | node info subtype ih =>
    obtain ⟨dtype, numerical, numElements, isReference, numRefElements, numBytes⟩ := info
    have hloop := isOk_releaseLoop ih
    unfold releaseBlocks freeAdiakValueWorker
    cases isReference with
    | true => rfl
    | false =>
      dsimp only
      rw [if_neg Bool.false_ne_true, if_neg Bool.false_ne_true]
      rw [releasers_eq_map, freeWorkers_eq_map]
      cases dtype
      case timeval | version | string | catstring | jsonstring | path => exact isOk_freeBlock v
      case range | set | list | tuple =>
        cases v with
        | vSubval block values =>
          dsimp only
          rw [isOk_bind_ok, hloop]
          rfl
        | _ =>
          dsimp only
          rw [isOk_bind _ fun bs => isOk_bind_ok _ _, hloop, isOk_freeBlock]
          rfl
      all_goals rfl

theorem releaseBlocks_reference {info : TypeNode} (subtype : List AdiakDatatype) (v : BlockValue)
    (href : info.isReference = true) : releaseBlocks (.node info subtype) v = .ok [] := by
  unfold releaseBlocks
  rw [if_pos href]

theorem releaseBlocks_container {info : TypeNode} (subtype : List AdiakDatatype)
    (block : Option Nat) (values : List BlockValue) (hbase : isBasetype info.dtype = false)
    (href : info.isReference = false) :
    releaseBlocks (.node info subtype) (.vSubval block values) = (do
      let bs ← releaseLoop (releasers subtype) (info.dtype = .tuple) values
        info.numElements.toNat 0
      .ok (bs ++ block.toList)) := by
  obtain ⟨dtype, numerical, numElements, isReference, numRefElements, numBytes⟩ := info
  obtain rfl : isReference = false := href
  replace hbase : isBasetype dtype = false := hbase
  cases dtype <;> first | exact absurd hbase (by decide) | rfl

/-! ## Copying and releasing -/

/-- Releasing `v` at the type `t` releases these blocks, each once. -/
def Releases (t : AdiakDatatype) (v : BlockValue) (blocks : List Nat) : Prop :=
  ∃ bs, releaseBlocks t v = .ok bs ∧ bs.Perm blocks

/-- The releases of the elements of a container, one after another. -/
def releaseEach : List TypeTree → List BlockValue → Except Stop (List Nat)
  | [], _ => .ok []
  | u :: us, vs => do
    let bs ← releaseBlocks u.datatype (vs.headD .indeterminate)
    let bs' ← releaseEach us vs.tail
    .ok (bs ++ bs')

theorem releaseLoop_eq {releases : List (BlockValue → Except Stop (List Nat))} {isTuple : Bool}
    {values vs : List BlockValue} {us : List TypeTree} {i : Nat}
    (hindexes : Indexes releaseBlocks releases isTuple (if isTuple then i else 0) us)
    (hdrop : values.drop i = vs) :
    releaseLoop releases isTuple values us.length i = releaseEach us vs := by
  induction us generalizing i vs with
  | nil => rfl
  | cons u us ih =>
    have hget : values[i]?.getD .indeterminate = vs.headD .indeterminate := by
      rw [← hdrop, List.headD_eq_head?_getD, List.head?_drop]
    have htail : Indexes releaseBlocks releases isTuple (if isTuple then i + 1 else 0) us := by
      have h := hindexes.tail
      cases isTuple <;> exact h
    have hdrop' : values.drop (i + 1) = vs.tail := by rw [← List.tail_drop, hdrop]
    rw [List.length_cons, releaseLoop, hindexes.head, hget]
    dsimp only
    rw [ih htail hdrop']
    rfl

theorem mallocArray_takes (n : Int) :
    Supply.Takes (fun block ns => ns = block.toList) (mallocArray n) := by
  unfold mallocArray
  split_ifs
  · exact Supply.takes_pure rfl
  · exact Supply.takes_fresh_bind fun b => Supply.takes_pure rfl

/-- The blocks of a leaf: none, or the one of the copy. -/
theorem copyBlocks_leaf {m : Memory} {t : TypeTree} (hleaf : t.container = none) (p : Addr) :
    Supply.Takes (fun r => Releases t.datatype r.1) (copyBlocks m t.datatype p) := by
  have hnone : ∀ (v : BlockValue) (size : Int), releaseBlocks t.datatype v = .ok [] →
      Supply.Takes (fun r : BlockValue × Int => Releases t.datatype r.1)
        (pure (v, size) : Supply Stop _) := fun v size h => Supply.takes_pure ⟨[], h, .refl _⟩
  have hone : ∀ (v : BlockValue) (size : Int) (b : Nat), releaseBlocks t.datatype v = .ok [b] →
      Supply.Takes (fun (r : BlockValue × Int) ns => Releases t.datatype r.1 (b :: ns))
        (pure (v, size) : Supply Stop _) := fun v size b h => Supply.takes_pure ⟨[b], h, .refl _⟩
  cases t with
  | scalar s =>
    cases s
    case timeval =>
      refine Supply.takes_lift_bind fun a _ => Supply.takes_fresh_bind fun b => ?_
      exact Supply.takes_lift_bind fun tv _ => hone _ _ b rfl
    all_goals exact Supply.takes_lift_bind fun x _ => hnone _ _ rfl
  | str k ref =>
    cases k <;> cases ref
    all_goals
      refine Supply.takes_lift_bind fun a _ => ?_
      first
        | exact hnone _ _ rfl
        | exact Supply.takes_lift_bind fun s _ => Supply.takes_fresh_bind fun b => hone _ _ b rfl
  | coll | range | tuple => cases hleaf

theorem copyLoopBlocks_takes {m : Memory} {copiers : List BlockCopier} {isTuple : Bool}
    {ptr : Addr} {us : List TypeTree}
    (hcopy : ∀ u ∈ us, ∀ p, Supply.Takes (fun r => Releases u.datatype r.1)
      (copyBlocks m u.datatype p)) {typeIndex : Nat} {bytesRead : Int}
    (hindexes : Indexes (copyBlocks m) copiers isTuple typeIndex us) :
    Supply.Takes (fun r ns => ∃ bs, releaseEach us r.1 = .ok bs ∧ bs.Perm ns)
      (copyLoopBlocks copiers isTuple ptr us.length typeIndex bytesRead) := by
  induction us generalizing typeIndex bytesRead with
  | nil => exact Supply.takes_pure ⟨[], rfl, .refl _⟩
  | cons u us ih =>
    rw [List.length_cons, copyLoopBlocks, hindexes.head]
    refine (hcopy u List.mem_cons_self _).bind fun ⟨v, result⟩ ns ⟨bs, hbs, hperm⟩ => ?_
    dsimp only at hbs ⊢
    by_cases hresult : result = -1
    · rw [if_pos hresult]
      exact Supply.takes_lift fun _ h => by cases h
    rw [if_neg hresult]
    refine (ih (fun u' hu' => hcopy u' (List.mem_cons_of_mem u hu')) hindexes.tail).bind
      fun ⟨vs, r⟩ ns' ⟨bs', hbs', hperm'⟩ => ?_
    dsimp only at hbs' ⊢
    refine Supply.takes_pure ⟨bs ++ bs', ?_, ?_⟩
    · rw [releaseEach]
      dsimp only [List.headD_cons, List.tail_cons]
      rw [hbs, ok_bind, hbs', ok_bind]
    · rw [List.append_nil]
      exact hperm.append hperm'

/-- What was copied releases the blocks that were taken for it, each once. -/
theorem copyBlocks_takes {m : Memory} (t : TypeTree) (p : Addr) :
    Supply.Takes (fun r => Releases t.datatype r.1) (copyBlocks m t.datatype p) := by
  induction t using container_induction generalizing p with
  | leaf t hleaf => exact copyBlocks_leaf hleaf p
  | container t ref ts hc ih =>
    obtain ⟨hbase, n, subs, hn, -, hdatatype, hsubs⟩ := datatype_shape hc
    rw [hdatatype]
    cases ref with
    | true =>
      rw [copyBlocks_reference m subs p hbase rfl]
      refine Supply.takes_lift_bind fun size _ => Supply.takes_pure ?_
      exact ⟨[], releaseBlocks_reference subs _ rfl, .refl _⟩
    | false =>
      rw [copyBlocks_container m subs p hbase rfl, copiersBlocks_eq_map]
      have hnum : (containerNode t.dtype false n).numElements.toNat = ts.length := hn
      have hdtype : (containerNode t.dtype false n).dtype = t.dtype := rfl
      rw [hnum, hdtype]
      refine (mallocArray_takes _).bind fun block ns hns => ?_
      refine (copyLoopBlocks_takes ih (indexes_container hsubs)).bind
        fun ⟨vs, r⟩ ns' ⟨bs, hbs, hperm⟩ => Supply.takes_pure ?_
      refine ⟨bs ++ block.toList, ?_, ?_⟩
      · rw [releaseBlocks_container subs block vs hbase rfl, releasers_eq_map, hnum, hdtype,
          releaseLoop_eq (i := 0) ?_ List.drop_zero]
        · dsimp only at hbs
          rw [hbs, ok_bind]
        · have h := indexes_container (f := releaseBlocks) hsubs
          rwa [ite_self]
      · rw [hns, List.append_nil]
        exact List.perm_append_comm.trans (hperm.append_left _)

end Adiak
