import Adiak.Typestring.Denotation
import Adiak.Typestring.Toplevel
import Adiak.Values.Represents

/-!
# Reference marks do not change the content

The content a reader sees does not depend on the marks of a type.

1. `Represents.readTree` and `Represents.reaches`: a reader of a value that represents a content
   sees that content, and everything it comes to on its way represents one too.
2. Removing the marks does not change what a packed buffer holds (`contentsAt_unmark`).
-/

namespace Adiak

namespace TypeTree

/-! ## Reading a value -/

mutual

/-- The depth of nesting. -/
def height : TypeTree → Nat
  | .scalar _ | .str _ _ => 0
  | .coll _ _ _ elem => height elem + 1
  | .range _ elem => height elem + 1
  | .tuple _ comps => heights comps + 1

def heights : List TypeTree → Nat
  | [] => 0
  | t :: ts => max (height t) (heights ts)

end

theorem height_le_heights {t : TypeTree} {ts : List TypeTree} (h : t ∈ ts) :
    t.height ≤ heights ts := by
  induction ts with
  | nil => cases h
  | cons u ts ih =>
    rw [heights]
    rcases List.mem_cons.mp h with rfl | h
    · exact Nat.le_max_left _ _
    · exact (ih h).trans (Nat.le_max_right _ _)

theorem height_lt_of_container {t u : TypeTree} {ref : Bool} {ts : List TypeTree}
    (hc : t.container = some (ref, ts)) (hu : u ∈ ts) : u.height < t.height := by
  cases t with
  | scalar s => cases hc
  | str k ref => cases hc
  | coll k ref n elem =>
    obtain ⟨-, rfl⟩ := Prod.mk.inj (Option.some.inj hc)
    rw [List.eq_of_mem_replicate hu, height]
    exact Nat.lt_succ_self _
  | range ref elem =>
    obtain ⟨-, rfl⟩ := Prod.mk.inj (Option.some.inj hc)
    obtain rfl : u = elem := by simpa using hu
    rw [height]
    exact Nat.lt_succ_self _
  | tuple ref comps =>
    obtain ⟨-, rfl⟩ := Prod.mk.inj (Option.some.inj hc)
    rw [height]
    exact Nat.lt_succ_of_le (height_le_heights hu)

theorem dtype_datatype (t : TypeTree) : t.datatype.dtype = t.dtype := by
  cases t with
  | scalar s => cases s <;> rfl
  | str k ref => cases k <;> cases ref <;> rfl
  | coll k ref n elem => rfl
  | range ref elem => rfl
  | tuple ref comps => rfl

theorem isBasetype_leaf {t : TypeTree} (h : t.container = none) : isBasetype t.dtype = true := by
  cases t with
  | scalar s => cases s <;> rfl
  | str k ref => cases k <;> rfl
  | coll => cases h
  | range => cases h
  | tuple => cases h

/-- A leaf has no elements. -/
theorem adiakGetSubval_leaf (m : Memory) {t : TypeTree} (h : t.container = none) (v : AdiakValue)
    (elem : Int) : adiakGetSubval m t.datatype v elem = .ok .error := by
  unfold adiakGetSubval
  by_cases hneg : elem < 0
  · rw [if_pos hneg]
  · have hle : 0 ≤ elem := by omega
    rw [if_neg hneg]
    cases t with
    | scalar s =>
      cases s <;> simp [datatype, ScalarKind.datatype, baseLong, baseUlong, baseLonglong,
        baseUlonglong, baseInt, baseI8, baseI16, baseU8, baseU16, baseUint, baseDouble, baseFloat,
        baseDate, baseTimeval, baseType, hle]
    | str k ref =>
      cases k <;> cases ref <;> simp [datatype, StringKind.datatype, baseVersion, baseString,
        baseCatstring, baseJsonstring, basePath, baseVersionRef, baseStringRef, baseCatstringRef,
        baseJsonstringRef, basePathRef, baseType, hle]
    | coll => cases h
    | range => cases h
    | tuple => cases h

end TypeTree

open TypeTree

/-- The walk over a container succeeds if every step does. -/
theorem readElems_eq_ok {m : Memory} {read : AdiakDatatype → AdiakValue → Except Stop Content}
    {t : AdiakDatatype} {v : AdiakValue} {n i : Nat} {cs : List Content} :
    readElems m read t v n i = .ok cs ↔ cs.length = n ∧ ∀ j (hj : j < cs.length), ∃ t' v',
      adiakGetSubval m t v (i + j : Nat) = .ok { ret := 0, subtype := t', subval := v' } ∧
        read t' v' = .ok cs[j] := by
  induction n generalizing i cs with
  | zero =>
    rw [readElems, Except.ok.injEq]
    constructor
    · rintro rfl
      exact ⟨rfl, fun j hj => absurd hj (Nat.not_lt_zero j)⟩
    · rintro ⟨hlen, -⟩
      exact (List.length_eq_zero_iff.mp hlen).symm
  | succ n ih =>
    rw [readElems, bind_eq_ok]
    constructor
    · rintro ⟨⟨ret, t', v'⟩, hget, h⟩
      split_ifs at h with hret
      obtain ⟨c, hc, h⟩ := bind_eq_ok.mp h
      obtain ⟨cs', hcs', h⟩ := bind_eq_ok.mp h
      obtain rfl := Except.ok.inj h
      obtain ⟨hlen, hsteps⟩ := ih.mp hcs'
      refine ⟨by rw [List.length_cons, hlen], fun j hj => ?_⟩
      cases j with
      | zero =>
        obtain rfl : ret = 0 := hret
        exact ⟨t', v', hget, hc⟩
      | succ j =>
        have hstep := hsteps j (Nat.lt_of_succ_lt_succ hj)
        rwa [Nat.add_right_comm] at hstep
    · rintro ⟨hlen, hsteps⟩
      cases cs with
      | nil => cases hlen
      | cons c cs =>
        obtain ⟨t', v', hget, hc⟩ := hsteps 0 (Nat.succ_pos _)
        have htail : readElems m read t v n (i + 1) = .ok cs := by
          refine ih.mpr ⟨Nat.succ.inj hlen, fun j hj => ?_⟩
          have hstep := hsteps (j + 1) (Nat.succ_lt_succ hj)
          rwa [← Nat.add_assoc, Nat.add_right_comm] at hstep
        refine ⟨_, hget, ?_⟩
        rw [if_pos rfl]
        simp only [List.getElem_cons_zero] at hc
        simp only [hc, htail, ok_bind]

/-- A reader sees the content that a value represents. -/
theorem Represents.readTree {m : Memory} {t : TypeTree} {v : AdiakValue} {c : Content}
    (h : Represents m t v c) {fuel : Nat} (hfuel : t.height < fuel) :
    readTree m fuel t.datatype v = .ok c := by
  induction fuel generalizing t v c with
  | zero => exact absurd hfuel (Nat.not_lt_zero _)
  | succ fuel ih =>
    rw [Adiak.readTree, dtype_datatype]
    cases hc : t.container with
    | none =>
      rw [if_pos (isBasetype_leaf hc)]
      cases h with
      | leaf hleaf hread => rw [hread]; rfl
      | copied hcounts hc' => rw [hc] at hc'; cases hc'
      | referenced hcounts hc' => rw [hc] at hc'; cases hc'
    | some r =>
      obtain ⟨ref, ts⟩ := r
      obtain ⟨cs, rfl, hlen, hnum, -, helem⟩ := h.adiakGetSubval hc
      have hbase : isBasetype t.dtype = false := by
        cases t <;> first | cases hc; done | skip
        · rename_i k _ _ _; cases k <;> rfl
        · rfl
        · rfl
      have hread : readElems m (Adiak.readTree m fuel) t.datatype v ts.length 0 = .ok cs := by
        refine readElems_eq_ok.mpr ⟨hlen, fun i hi => ?_⟩
        obtain ⟨v', hget, hrep⟩ := helem i (hlen ▸ hi) hi
        have hheight := height_lt_of_container hc (List.getElem_mem (hlen ▸ hi))
        rw [Nat.zero_add]
        exact ⟨_, v', hget, ih hrep (by omega)⟩
      rw [if_neg (by simp [hbase]), hnum, ok_bind, Int.toNat_natCast, hread, ok_bind]

/-- The values a reader comes to by going through elements. -/
inductive Reaches (m : Memory) : AdiakDatatype → AdiakValue → AdiakDatatype → AdiakValue → Prop
  | refl {t : AdiakDatatype} {v : AdiakValue} : Reaches m t v t v
  | elem {t t' t'' : AdiakDatatype} {v v' v'' : AdiakValue} {elem : Int}
      (hget : adiakGetSubval m t v elem = .ok { ret := 0, subtype := t', subval := v' })
      (hreach : Reaches m t' v' t'' v'') : Reaches m t v t'' v''

/-- Everything within reach represents a content. -/
theorem Represents.reaches {m : Memory} {t : TypeTree} {v v' : AdiakValue} {c : Content}
    {t' : AdiakDatatype} (h : Represents m t v c) (hreach : Reaches m t.datatype v t' v') :
    ∃ u c', t' = u.datatype ∧ Represents m u v' c' := by
  generalize hT : t.datatype = T at hreach
  induction hreach generalizing t c with
  | refl => exact ⟨t, c, hT.symm, h⟩
  | @elem T₀ T₁ T₂ w w' w'' elem hget hreach ih =>
    subst hT
    cases hc : t.container with
    | none =>
      rw [adiakGetSubval_leaf m hc] at hget
      exact absurd (congrArg Subval.ret (Except.ok.inj hget)) (show ¬ (-1 : Int) = 0 by decide)
    | some r =>
      obtain ⟨ref, ts⟩ := r
      obtain ⟨cs, rfl, hlen, -, hout, hin⟩ := h.adiakGetSubval hc
      by_cases hrange : elem < 0 ∨ (ts.length : Int) ≤ elem
      · rw [hout elem hrange] at hget
        exact absurd (congrArg Subval.ret (Except.ok.inj hget)) (show ¬ (-1 : Int) = 0 by decide)
      · obtain ⟨i, rfl⟩ : ∃ i : Nat, elem = i := ⟨elem.toNat, by omega⟩
        have hi : i < ts.length := by omega
        obtain ⟨v', hget', hrep⟩ := hin i hi (hlen ▸ hi)
        rw [hget'] at hget
        obtain ⟨-, hsub, hval⟩ := Subval.mk.inj (Except.ok.inj hget)
        subst hval
        exact ih hrep hsub

/-! ## Removing the marks -/

/-- The type without reference marks. -/
def TypeTree.unmark (t : TypeTree) : TypeTree := t.map id fun _ => false

mutual

/-- The expression without its `&`s. -/
def TypeExpr.unmark : TypeExpr → TypeExpr
  | .spec sep _ s => .spec sep false s
  | .coll sep _ k n elem => .coll sep false k n (unmark elem)
  | .range sep _ elem => .range sep false (unmark elem)
  | .tuple sep _ comps => .tuple sep false (unmarks comps)

def TypeExpr.unmarks : List TypeExpr → List TypeExpr
  | [] => []
  | e :: es => unmark e :: unmarks es

end

namespace TypeTree

theorem unmark_tuple (ref : Bool) (comps : List TypeTree) :
    (tuple ref comps).unmark = .tuple false (comps.map unmark) :=
  map_tuple ref comps

theorem packedSize_unmark (t : TypeTree) : t.unmark.packedSize = t.packedSize := by
  induction t with
  | scalar s => rfl
  | str k ref => rfl
  | coll k ref n elem ih =>
    rw [packedSize, ← ih]
    rfl
  | range ref elem ih =>
    rw [packedSize, ← ih]
    rfl
  | tuple ref comps ih =>
    rw [unmark_tuple, packedSize, packedSize, packedSizes_eq_sum, packedSizes_eq_sum, List.map_map]
    exact congrArg List.sum (List.map_congr_left ih)

/-- What a packed buffer holds does not depend on the marks. -/
theorem contentsAt_unmark (m : Memory) (t : TypeTree) : t.unmark.contentsAt m = t.contentsAt m := by
  induction t with
  | scalar s => rfl
  | str k ref => rfl
  | coll k ref n elem ih =>
    funext p
    rw [contentsAt, ← ih, ← packedSize_unmark]
    rfl
  | range ref elem ih =>
    funext p
    rw [contentsAt, ← ih, ← packedSize_unmark]
    rfl
  | tuple ref comps ih =>
    funext p
    have hfields : ∀ t ∈ comps, (field m ∘ unmark) t = field m t := fun t ht => by
      unfold field
      rw [Function.comp_apply, packedSize_unmark, ih t ht]
    rw [unmark_tuple, contentsAt, contentsAt, fields_eq_map, fields_eq_map, List.map_map,
      List.map_congr_left hfields]

theorem height_unmark (t : TypeTree) : t.unmark.height = t.height := by
  induction t with
  | scalar s => rfl
  | str k ref => rfl
  | coll k ref n elem ih =>
    rw [height, ← ih]
    rfl
  | range ref elem ih =>
    rw [height, ← ih]
    rfl
  | tuple ref comps ih =>
    rw [unmark_tuple, height, height]
    congr 1
    induction comps with
    | nil => rfl
    | cons t ts ihts =>
      rw [List.map_cons, heights, heights, ih t List.mem_cons_self,
        ihts fun u hu => ih u (List.mem_cons_of_mem t hu)]

end TypeTree

end Adiak
