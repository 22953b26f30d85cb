import Adiak.Values.Represents

/-!
# What `copy_value` returns

`copy_value` takes the result of the copy of an element for a failure if it is `-1`, and a size may be
`-1` modulo 2^32.

1. `copySize` is the size of what is copied, with a negative count for none, and `GivesUp` the types
   at which the copy stops in the middle.
2. `Written t v`: the value `v` has been written at the type `t`, with all that belongs to it.
3. `copyValue_written` and `copyValue_givesUp`: what is copied is written, and the copy fails only at
   the types that make it give up.
-/

namespace Adiak

namespace TypeTree

/-! ## Sizes that are copied -/

mutual

/-- The bytes that `copy_value` counts, before they wrap. A negative count copies nothing. -/
def copySize : TypeTree → Int
  | .scalar s => s.size
  | .str _ _ => 8
  | .coll _ ref n elem => if ref then n * packedSize elem else n.toNat * copySize elem
  | .range ref elem => if ref then 2 * packedSize elem else 2 * copySize elem
  | .tuple ref comps => if ref then packedSizes comps else copySizes comps

def copySizes : List TypeTree → Int
  | [] => 0
  | t :: ts => copySize t + copySizes ts

end

theorem copySizes_eq_sum (ts : List TypeTree) : copySizes ts = (ts.map copySize).sum := by
  induction ts with
  | nil => rfl
  | cons t ts ih => rw [copySizes, ih, List.map_cons, List.sum_cons]

theorem copySize_copied {t : TypeTree} {ts : List TypeTree} (hc : t.container = some (false, ts)) :
    t.copySize = copySizes ts := by
  cases t with
  | scalar s => cases hc
  | str k ref => cases hc
  | coll k ref n elem =>
    obtain ⟨rfl, rfl⟩ := Prod.mk.inj (Option.some.inj hc)
    rw [copySize, if_neg Bool.false_ne_true, copySizes_eq_sum, List.map_replicate,
      List.sum_replicate, nsmul_eq_mul]
  | range ref elem =>
    obtain ⟨rfl, rfl⟩ := Prod.mk.inj (Option.some.inj hc)
    rw [copySize, if_neg Bool.false_ne_true, copySizes, copySizes, copySizes]
    omega
  | tuple ref comps =>
    obtain ⟨rfl, rfl⟩ := Prod.mk.inj (Option.some.inj hc)
    rw [copySize, if_neg Bool.false_ne_true]

theorem copySize_reference {t : TypeTree} {ts : List TypeTree} (hc : t.container = some (true, ts)) :
    t.copySize = t.packedSize := by
  cases t with
  | scalar s => cases hc
  | str k ref => cases hc
  | coll k ref n elem =>
    obtain ⟨rfl, -⟩ := Prod.mk.inj (Option.some.inj hc)
    rw [copySize, if_pos rfl, packedSize]
  | range ref elem =>
    obtain ⟨rfl, -⟩ := Prod.mk.inj (Option.some.inj hc)
    rw [copySize, if_pos rfl, packedSize]
  | tuple ref comps =>
    obtain ⟨rfl, -⟩ := Prod.mk.inj (Option.some.inj hc)
    rw [copySize, if_pos rfl, packedSize]

/-- Without negative counts it is the packed size. -/
theorem copySize_eq {t : TypeTree} (hcounts : t.CountsOk) : t.copySize = t.packedSize := by
  induction t with
  | scalar s => rfl
  | str k ref => rfl
  | coll k ref n elem ih =>
    obtain ⟨⟨hpos, -⟩, helem⟩ := hcounts.elem
    rw [copySize, packedSize, ih helem, Int.toNat_of_nonneg hpos, ite_self]
  | range ref elem ih => rw [copySize, packedSize, ih hcounts, ite_self]
  | tuple ref comps ih =>
    have hcomps : copySizes comps = packedSizes comps := by
      rw [copySizes_eq_sum, packedSizes_eq_sum]
      exact congrArg List.sum (List.map_congr_left fun t ht => ih t ht (hcounts.comps.2 t ht))
    rw [copySize, packedSize, hcomps, ite_self]

theorem copySizes_eq {ts : List TypeTree} (hcounts : ∀ t ∈ ts, t.CountsOk) :
    copySizes ts = packedSizes ts := by
  rw [copySizes_eq_sum, packedSizes_eq_sum]
  exact congrArg List.sum (List.map_congr_left fun t ht => copySize_eq (hcounts t ht))

/-- `copy_value` gives up: an element that it copies, at any depth, has a size of `-1` modulo 2^32. -/
inductive GivesUp : TypeTree → Prop
  | here {t u : TypeTree} {ts : List TypeTree} (hc : t.container = some (false, ts)) (hu : u ∈ ts)
      (h : wrapInt u.copySize = -1) : GivesUp t
  | inside {t u : TypeTree} {ts : List TypeTree} (hc : t.container = some (false, ts)) (hu : u ∈ ts)
      (h : GivesUp u) : GivesUp t

theorem givesUp_iff {t : TypeTree} {ts : List TypeTree} (hc : t.container = some (false, ts)) :
    GivesUp t ↔ ∃ u ∈ ts, wrapInt u.copySize = -1 ∨ GivesUp u := by
  constructor
  · rintro (⟨hc', hu, h⟩ | ⟨hc', hu, h⟩)
    · obtain ⟨-, rfl⟩ := Prod.mk.inj (Option.some.inj (hc.symm.trans hc'))
      exact ⟨_, hu, .inl h⟩
    · obtain ⟨-, rfl⟩ := Prod.mk.inj (Option.some.inj (hc.symm.trans hc'))
      exact ⟨_, hu, .inr h⟩
  · rintro ⟨u, hu, h | h⟩
    · exact .here hc hu h
    · exact .inside hc hu h

/-- Neither a leaf nor a reference makes it give up. -/
theorem not_givesUp {t : TypeTree} (hc : ∀ ts, t.container ≠ some (false, ts)) : ¬ GivesUp t := by
  rintro (⟨h, -, -⟩ | ⟨h, -, -⟩) <;> exact hc _ h

end TypeTree

open TypeTree

/-! ## Written values -/

/-- The bytes of the member that the table of `adiak_value_t` names for a type. -/
def AdiakType.memberBytes : AdiakType → Nat
  | .unset => 0
  | .int | .uint => 4
  | _ => 8

theorem memberBytes_le (t : AdiakType) : t.memberBytes ≤ 8 := by
  cases t <;> decide

/-- The bytes of an `adiak_value_t` that have been written. -/
def AdiakValue.writtenBytes : AdiakValue → Nat
  | .indeterminate => 0
  | .vInt _ => 4
  | _ => 8

/-- All that a reader of `v` at the type `t` looks at in memory of the library has been written. -/
inductive Written : TypeTree → AdiakValue → Prop
  | leaf {t : TypeTree} {v : AdiakValue} (hleaf : t.container = none)
      (h : t.dtype.memberBytes ≤ v.writtenBytes) : Written t v
  | copied {t : TypeTree} {ts : List TypeTree} {vs : List AdiakValue}
      (hc : t.container = some (false, ts)) (hlen : vs.length = ts.length)
      (helems : ∀ i (hi : i < ts.length) (hv : i < vs.length), Written ts[i] vs[i]) :
      Written t (.vSubval vs)
  | referenced {t : TypeTree} {ts : List TypeTree} {p : Addr} (hc : t.container = some (true, ts)) :
      Written t (.vPtr (.caller p))

/-! ## Results and failures -/

/-- What holds of a result, and what a failure that the code reports means. -/
def Yields {α : Type} (P : α → Prop) (Q : Prop) : Except Stop α → Prop
  | .ok a => P a
  | .error .null => Q
  | .error _ => True

theorem Yields.ok {α : Type} {P : α → Prop} {Q : Prop} {x : Except Stop α} (h : Yields P Q x)
    {a : α} (hx : x = .ok a) : P a := by
  subst hx
  exact h

theorem Yields.null {α : Type} {P : α → Prop} {Q : Prop} {x : Except Stop α} (h : Yields P Q x)
    (hx : x = .error .null) : Q := by
  subst hx
  exact h

theorem Yields.bind {α β : Type} {P : α → Prop} {Q : Prop} {P' : β → Prop} {Q' : Prop}
    {x : Except Stop α} {f : α → Except Stop β} (h : Yields P Q x)
    (hf : ∀ a, P a → Yields P' Q' (f a)) (hfail : Q → Q') : Yields P' Q' (x >>= f) := by
  cases x with
  | ok a => exact hf a h
  | error e =>
    cases e with
    | null => exact hfail h
    | undefined => trivial
    | fuel => trivial

/-! ## Copies -/

theorem yields_load (m : Memory) (p : Addr) (w : Nat) :
    Yields (fun _ => True) False (m.load p w) := by
  induction w generalizing p with
  | zero => trivial
  | succ w ih =>
    rw [Memory.load]
    cases m.byte p with
    | none => trivial
    | some b => exact (ih (p + 1)).bind (fun _ _ => trivial) id

theorem yields_loadSigned (m : Memory) (p : Addr) (w : Nat) :
    Yields (fun _ => True) False (m.loadSigned p w) :=
  (yields_load m p w).bind (fun _ _ => trivial) id

theorem yields_loadAddr (m : Memory) (p : Addr) :
    Yields (fun _ => True) False (m.loadAddr p) :=
  (yields_load m p 8).bind (fun _ _ => trivial) id

theorem yields_loadCstr (m : Memory) (p : Addr) :
    Yields (fun _ => True) False (m.loadCstr p) := by
  unfold Memory.loadCstr
  cases m.cstr p with
  | none => trivial
  | some s => trivial

theorem yields_loadTimeval (m : Memory) (p : Addr) :
    Yields (fun _ => True) False (m.loadTimeval p) := by
  unfold Memory.loadTimeval
  cases m.timeval p with
  | none => trivial
  | some tv => trivial

/-- What is copied at a type: its size is returned, and all of it has been written. -/
def CopiedAs (t : TypeTree) (r : AdiakValue × Int) : Prop :=
  r.2 = wrapInt t.copySize ∧ Written t r.1 ∧ ¬ t.GivesUp

theorem copyValue_leaf {m : Memory} {t : TypeTree} (hleaf : t.container = none) (p : Addr) :
    Yields (CopiedAs t) t.GivesUp (copyValue m t.datatype p) := by
  have hno : ¬ t.GivesUp := not_givesUp fun ts hc => by rw [hleaf] at hc; cases hc
  have hwritten : ∀ v : AdiakValue, t.dtype.memberBytes ≤ v.writtenBytes →
      CopiedAs t (v, wrapInt t.copySize) := fun v h => ⟨rfl, .leaf hleaf h, hno⟩
  cases t with
  | scalar s =>
    cases s
    case timeval =>
      refine (yields_loadAddr m p).bind (fun a _ => ?_) False.elim
      exact (yields_loadTimeval m a).bind (fun tv _ => hwritten _ le_rfl) False.elim
    case double | float =>
      refine ((yields_load m p _).bind (fun x _ => ?_) id : Yields (fun _ => True) False _).bind
        (fun x _ => hwritten (.vDouble x) le_rfl) False.elim
      trivial
    all_goals
      exact (yields_loadSigned m p _).bind (fun x _ => hwritten _ le_rfl) False.elim
  | str k ref =>
    cases k <;> cases ref
    all_goals
      refine (yields_loadAddr m p).bind (fun a _ => ?_) False.elim
      first
        | exact hwritten _ le_rfl
        | exact (yields_loadCstr m a).bind (fun s _ => hwritten _ le_rfl) False.elim
  | coll | range | tuple => cases hleaf

/-- The same for the elements of a container, when `x` bytes have been read before them. -/
def ElemsCopiedAs (us : List TypeTree) (x : Int) (r : List AdiakValue × Int) : Prop :=
  r.2 = wrapInt (x + copySizes us) ∧ r.1.length = us.length ∧
    (∀ i (hi : i < us.length) (hv : i < r.1.length), Written us[i] r.1[i]) ∧
    ∀ u ∈ us, ¬ (wrapInt u.copySize = -1 ∨ u.GivesUp)

theorem copyLoop_yields {m : Memory} {copiers : List Copier} {isTuple : Bool} {ptr : Addr}
    {us : List TypeTree}
    (hcopy : ∀ u ∈ us, ∀ p, Yields (CopiedAs u) u.GivesUp (copyValue m u.datatype p))
    {typeIndex : Nat} {x : Int} (hcopiers : Indexes (copyValue m) copiers isTuple typeIndex us) :
    Yields (ElemsCopiedAs us x) (∃ u ∈ us, wrapInt u.copySize = -1 ∨ u.GivesUp)
      (copyLoop copiers isTuple ptr us.length typeIndex (wrapInt x)) := by
  induction us generalizing typeIndex x with
  | nil =>
    refine ⟨?_, rfl, fun i hi => absurd hi (Nat.not_lt_zero i), by simp⟩
    show wrapInt x = _
    rw [copySizes, Int.add_zero]
  | cons u us ih =>
    rw [List.length_cons, copyLoop, hcopiers.head]
    dsimp only
    refine (hcopy u List.mem_cons_self _).bind (fun x hv => ?_)
      fun h => ⟨u, List.mem_cons_self, .inr h⟩
    obtain ⟨v, result⟩ := x
    obtain ⟨rfl, hwritten, hno⟩ : result = wrapInt u.copySize ∧ Written u v ∧ ¬ u.GivesUp := hv
    dsimp only
    by_cases hsize : wrapInt u.copySize = -1
    · rw [if_pos hsize]
      exact ⟨u, List.mem_cons_self, .inl hsize⟩
    rw [if_neg hsize, wrapInt_wrapInt_add, wrapInt_add_wrapInt]
    refine (ih (x := x + u.copySize) (fun u' hu' => hcopy u' (List.mem_cons_of_mem u hu'))
      hcopiers.tail).bind (fun y hvs => ?_) fun h => ?_
    swap
    · obtain ⟨u', hu', h⟩ := h
      exact ⟨u', List.mem_cons_of_mem u hu', h⟩
    obtain ⟨vs, r⟩ := y
    obtain ⟨hr, hlen, helems, hrest⟩ := hvs
    refine ⟨?_, congrArg Nat.succ hlen, fun i hi hv => ?_, ?_⟩
    · rw [copySizes, ← Int.add_assoc]
      exact hr
    · cases i with
      | zero => exact hwritten
      | succ i => exact helems i (Nat.lt_of_succ_lt_succ hi) (Nat.lt_of_succ_lt_succ hv)
    · exact List.forall_mem_cons.mpr ⟨not_or.mpr ⟨hsize, hno⟩, hrest⟩

/-- What `copy_value` copies has been written, and it fails only at a type that makes it give up. -/
theorem copyValue_yields {m : Memory} (t : TypeTree) (p : Addr) :
    Yields (CopiedAs t) t.GivesUp (copyValue m t.datatype p) := by
  induction t using container_induction generalizing p with
  | leaf t hleaf => exact copyValue_leaf hleaf p
  | container t ref ts hc ih =>
    obtain ⟨hbase, n, subs, hn, -, hdatatype, hsubs⟩ := datatype_shape hc
    cases ref with
    | true =>
      have hcalc := calcSize_eq t
      rw [hdatatype] at hcalc ⊢
      rw [copyValue_reference p hbase rfl hcalc, ← copySize_reference hc]
      refine ⟨rfl, .referenced hc, not_givesUp fun ts' hc' => ?_⟩
      rw [hc] at hc'
      cases hc'
    | false =>
      have hloop : Yields (ElemsCopiedAs ts 0) (∃ u ∈ ts, wrapInt u.copySize = -1 ∨ u.GivesUp)
          (copyLoop (copyValues m subs) (decide (t.dtype = .tuple)) p ts.length 0 0) :=
        copyLoop_yields (x := 0) ih (indexes_copyValues hsubs)
      have hnum : (containerNode t.dtype false n).numElements.toNat = ts.length := hn
      have hdtype : (containerNode t.dtype false n).dtype = t.dtype := rfl
      rw [hdatatype, copyValue_container m subs p hbase rfl, hnum, hdtype]
      cases hcopy : copyLoop (copyValues m subs) (decide (t.dtype = .tuple)) p ts.length 0 0 with
      | ok r =>
        obtain ⟨hr, hlen, helems, hno⟩ := hloop.ok hcopy
        rw [Int.zero_add, ← copySize_copied hc] at hr
        refine ⟨hr, .copied hc hlen helems, fun h => ?_⟩
        obtain ⟨u, hu, hgives⟩ := (givesUp_iff hc).mp h
        exact hno u hu hgives
      | error e =>
        cases e with
        | null => exact (givesUp_iff hc).mpr (hloop.null hcopy)
        | undefined => trivial
        | fuel => trivial

end Adiak
