import Adiak.Values.Recorded

/-!
# Recorded values read later

`namevalue_seen` is the result for `adiak_namevalue`. Without marks nothing of the memory that the value is
read in is seen (`seenArg_unmark`), below a mark nothing of the memory it was recorded in
(`seenArg_reference`).
-/

namespace Adiak

open TypeTree

/-- A value recorded in `m₀` and read in `m` shows the copied parts as they were and the marked parts as
they are, exactly when the parser returns the type that the expression denotes. -/
theorem namevalue_seen {m₀ m : Memory} {e : TypeExpr} {a : VArg} {c : Content} (rest : List VArg)
    (hcounts : (e.tree false).CountsOk) (hsize : (e.tree false).packedSize < 2 ^ 31)
    (hseen : (e.tree false).seenArg m₀ m a = .ok c) :
    (∃ v, namevalueArgs m₀ e.text (a :: ((e.tree false).args ++ rest)) =
        .ok (v, (e.tree false).datatype) ∧ SubvalBounds m (e.tree false).datatype v ∧
        ∀ fuel, (e.tree false).height < fuel → readTree m fuel (e.tree false).datatype v = .ok c) ↔
      (e.tree false).Reads (e.tree false) ∧ e.text.length < 2 ^ 31 := by
  constructor
  · rintro ⟨v, hv, -⟩
    exact reads_of_parse (parse_of_namevalueArgs hv)
  · rintro ⟨hreads, hfits⟩
    obtain ⟨f, v, hfetch, hstore, hrep⟩ :=
      storeFetched_represents hcounts (e.refClosed_tree false) hsize hseen
    exact ⟨v, namevalueArgs_eq_ok ((reread_iff _ _ rest).mpr hreads) hfits hfetch hstore,
      hrep.subvalBounds, fun _ => hrep.readTree⟩

set_option maxRecDepth 2000 in
/-- `(%u8,&[%u8])` with two elements, recorded over a memory of ones and read over a memory of twos. -/
theorem namevalue_seen_tuple : ∃ v t,
    namevalueArgs { Memory.empty with byte := fun _ => some 1 }
      "(%u8,&[%u8])".toList [.ptr 16, .int 2, .int 2] = .ok (v, t) ∧
    readTree { Memory.empty with byte := fun _ => some 2 } 3 t v =
      .ok (.node .tuple [.leaf .uint (.int 1), .node .set [.leaf .uint (.int 2), .leaf .uint (.int 2)]]) := by
  have hseen : TypeTree.seenArg { Memory.empty with byte := fun _ => some 1 }
      { Memory.empty with byte := fun _ => some 2 }
      (.tuple false [.scalar .u8, .coll .set true 2 (.scalar .u8)]) (.ptr 16) =
      .ok (.node .tuple [.leaf .uint (.int 1), .node .set [.leaf .uint (.int 2), .leaf .uint (.int 2)]]) :=
    rfl
  obtain ⟨v, hv, -, hread⟩ := (namevalue_seen (e := .tuple .none false
    [.spec .none false .u8, .coll .comma true .set 2 (.spec .none false .u8)]) []
    (by unfold CountsOk; decide) (by decide) hseen).mpr ⟨reads_self_of_tuplesLast
      (by simp [TypeExpr.tree, TypeExpr.trees, TuplesLast, TuplesLastSeq, Spec.tree, isTuple]), by decide⟩
  exact ⟨v, _, hv, hread 3 (by decide)⟩

/-! ## All or nothing -/

theorem seenAt_unmark (m₀ m : Memory) (t : TypeTree) : t.unmark.seenAt m₀ m = t.contentsAt m₀ := by
  funext p
  induction t using TypeTree.induction generalizing p with
  | scalar s => rfl
  | str k ref =>
    show (m₀.loadAddr p >>= fun sptr => _) = ((m₀.loadAddr p >>= _) >>= _)
    cases m₀.loadAddr p with
    | error e => rfl
    | ok a =>
      show (m₀.loadCstr a >>= _) = ((m₀.loadCstr a >>= _) >>= _)
      cases m₀.loadCstr a <;> rfl
  | coll k ref n elem ih =>
    have helem : elem.unmark.seenAt m₀ m = elem.contentsAt m₀ := funext ih
    show seenAt m₀ m (.coll k false n elem.unmark) p = _
    rw [seenAt, if_neg Bool.false_ne_true, contentsAt, packedSize_unmark, ← helem]
  | range ref elem ih =>
    have helem : elem.unmark.seenAt m₀ m = elem.contentsAt m₀ := funext ih
    show seenAt m₀ m (.range false elem.unmark) p = _
    rw [seenAt, if_neg Bool.false_ne_true, contentsAt, packedSize_unmark, ← helem]
  | tuple ref comps ih =>
    have hfields : ∀ t ∈ comps, (seenField m₀ m ∘ unmark) t = field m₀ t := fun t ht => by
      unfold seenField field
      rw [Function.comp_apply, packedSize_unmark]
      exact congrArg _ (funext (ih t ht))
    rw [unmark_tuple, seenAt, if_neg Bool.false_ne_true, contentsAt, seenFields_eq_map, fields_eq_map,
      List.map_map, List.map_congr_left hfields]

/-- Without marks, what happens to the caller's memory is not seen. -/
theorem seenArg_unmark (m₀ m : Memory) (t : TypeTree) (a : VArg) :
    t.unmark.seenArg m₀ m a = t.argContents m₀ a := by
  have hat := seenAt_unmark m₀ m t
  cases t with
  | scalar s => rfl
  | str k ref => cases a <;> rfl
  | _ =>
    cases a with
    | ptr p => exact congrArg (fun read => if p = 0 then Except.error .undefined else read p) hat
    | _ => rfl

/-- Below a mark the caller's memory is seen as it is. -/
theorem seenArg_reference (m₀ m : Memory) {t : TypeTree} {ts : List TypeTree}
    (h : t.container = some (true, ts)) (a : VArg) : t.seenArg m₀ m a = t.argContents m a := by
  have hseen := seenAt_reference m₀ m h
  cases t with
  | scalar s => cases h
  | str k ref => cases h
  | _ =>
    cases a with
    | ptr p => exact congrArg (fun read => if p = 0 then Except.error .undefined else read p) hseen
    | _ => rfl

end Adiak
