import Adiak.Namevalue
import Adiak.Typestring.Denotation
import Adiak.Values.References
import Adiak.Values.Seen

/-!
# What `adiak_namevalue` records

The value recorded for a type expression represents what the caller's argument holds, whichever
nodes of the expression carry a `&`.

1. Rereading keeps what the parser passes down: a container below a reference is a reference.
2. `TypeTree.argContents` is what the value argument holds, `TypeTree.seenArg` what it shows in a later
   memory. `storeFetched_represents` says that the recorded value represents the second, and
   `namevalueArgs_represents` is the case of one memory.
3. `namevalue_unmark_iff` puts the recorded values of an expression and of the expression without its
   `&`s side by side.
-/

namespace Adiak

namespace TypeTree

/-! ## What rereading keeps -/

theorem mem_of_readComps {rs : List (Bool × CompReader)} {n : Nat} {ap ap' : List VArg}
    {ts : List TypeTree} (h : readComps rs n ap = .ok (ts, ap')) {t : TypeTree} (ht : t ∈ ts) :
    ∃ r ∈ rs, ∃ ap₁ ap₂, r.2 ap₁ = .ok (t, ap₂) := by
  induction n generalizing rs ap ts with
  | zero =>
    obtain ⟨rfl, -⟩ : [] = ts ∧ ap = ap' := by simpa [readComps] using h
    cases ht
  | succ n ih =>
    cases rs with
    | nil => cases h
    | cons r rs =>
      simp only [readComps, bind_eq_ok] at h
      obtain ⟨⟨u, ap₁⟩, hu, ⟨us, ap₂⟩, hus, h⟩ := h
      obtain ⟨rfl, rfl⟩ : u :: us = ts ∧ ap₂ = ap' := by simpa using h
      rcases List.mem_cons.mp ht with rfl | ht
      · exact ⟨r, List.mem_cons_self, ap, ap₁, hu⟩
      · obtain ⟨r', hr', hread⟩ := ih hus ht
        refine ⟨r', ?_, hread⟩
        split_ifs at hr'
        · exact hr'
        · exact List.mem_cons_of_mem r hr'

theorem dtype_reread {a t : TypeTree} {ap ap' : List VArg} (h : a.reread ap = .ok (t, ap')) :
    t.dtype = a.dtype := by
  cases a with
  | scalar s =>
    obtain ⟨rfl, -⟩ : scalar s = t ∧ ap = ap' := by simpa [reread] using h
    rfl
  | str k ref =>
    obtain ⟨rfl, -⟩ : str k ref = t ∧ ap = ap' := by simpa [reread] using h
    rfl
  | coll k ref n elem =>
    simp only [reread, bind_eq_ok] at h
    obtain ⟨⟨m, ap₁⟩, -, ⟨elem', ap₂⟩, -, h⟩ := h
    obtain ⟨rfl, -⟩ : coll k ref m elem' = t ∧ ap₂ = ap' := by simpa using h
    rfl
  | range ref elem =>
    simp only [reread, bind_eq_ok] at h
    obtain ⟨⟨elem', ap₁⟩, -, h⟩ := h
    obtain ⟨rfl, -⟩ : range ref elem' = t ∧ ap₁ = ap' := by simpa using h
    rfl
  | tuple ref comps =>
    obtain ⟨-, -, comps', -, -, -, rfl⟩ := reread_tuple h
    rfl

theorem refClosed_reread {a t : TypeTree} {under : Bool} {ap ap' : List VArg}
    (ha : a.RefClosed under) (h : a.reread ap = .ok (t, ap')) : t.RefClosed under := by
  induction a generalizing under t ap ap' with
  | scalar s =>
    obtain ⟨rfl, -⟩ : scalar s = t ∧ ap = ap' := by simpa [reread] using h
    trivial
  | str k ref =>
    obtain ⟨rfl, -⟩ : str k ref = t ∧ ap = ap' := by simpa [reread] using h
    trivial
  | coll k ref n elem ih =>
    simp only [reread, bind_eq_ok] at h
    obtain ⟨⟨m, ap₁⟩, -, ⟨elem', ap₂⟩, helem, h⟩ := h
    obtain ⟨rfl, -⟩ : coll k ref m elem' = t ∧ ap₂ = ap' := by simpa using h
    exact ⟨ha.1, ih ha.2 helem⟩
  | range ref elem ih =>
    simp only [reread, bind_eq_ok] at h
    obtain ⟨⟨elem', ap₁⟩, helem, h⟩ := h
    obtain ⟨rfl, -⟩ : range ref elem' = t ∧ ap₁ = ap' := by simpa using h
    exact ⟨ha.1, ih ha.2 helem⟩
  | tuple ref comps ih =>
    obtain ⟨n, ap₁, comps', -, -, hcomps, rfl⟩ := reread_tuple h
    refine ⟨ha.1, refClosedSeq_iff.mpr fun u hu => ?_⟩
    obtain ⟨r, hr, _, _, hread⟩ := mem_of_readComps hcomps hu
    obtain ⟨c, hc, rfl⟩ := mem_readers hr
    exact ih c hc (refClosedSeq_iff.mp ha.2 c hc) hread

end TypeTree

/-! ## Expressions -/

namespace TypeExpr

/-- Below a `&` every container is a reference. -/
theorem refClosed_tree (e : TypeExpr) (ref : Bool) : (e.tree ref).RefClosed ref := by
  induction e generalizing ref with
  | spec sep amp s => cases s <;> trivial
  | coll sep amp k n elem ih => exact ⟨fun h => by rw [h, Bool.true_or], ih (ref || amp)⟩
  | range sep amp elem ih => exact ⟨fun h => by rw [h, Bool.true_or], ih (ref || amp)⟩
  | tuple sep amp comps ih =>
    refine ⟨fun h => by rw [h, Bool.true_or], TypeTree.refClosedSeq_iff.mpr ?_⟩
    rw [trees_eq_map]
    intro t ht
    obtain ⟨u, hu, rfl⟩ := List.mem_map.mp ht
    exact ih u hu (ref || amp)

/-- What the parser returned was read with the counts. -/
theorem reread_of_parse (e : TypeExpr) {ap rest : List VArg} {t : TypeTree}
    (h : parseTypestr e.text ap = .ok (t.datatype, rest)) :
    (e.tree false).reread ap = .ok (t, rest) := by
  rw [e.parseTypestr_text (text_fits h)] at h
  obtain ⟨⟨u, ap'⟩, hu, h⟩ := bind_eq_ok.mp h
  obtain ⟨hdatatype, rfl⟩ : u.datatype = t.datatype ∧ ap' = rest := by simpa using h
  rw [hu, TypeTree.datatype_injective hdatatype]

theorem tree_unmark (e : TypeExpr) (ref : Bool) : e.unmark.tree false = (e.tree ref).unmark := by
  induction e generalizing ref with
  | spec sep amp s => cases s <;> rfl
  | coll sep amp k n elem ih =>
    show TypeTree.coll k false n (elem.unmark.tree false) = _
    rw [ih (ref || amp)]
    rfl
  | range sep amp elem ih =>
    show TypeTree.range false (elem.unmark.tree false) = _
    rw [ih (ref || amp)]
    rfl
  | tuple sep amp comps ih =>
    have hcomps : trees (unmarks comps) false = (trees comps (ref || amp)).map TypeTree.unmark := by
      induction comps with
      | nil => rfl
      | cons u us ihus =>
        rw [unmarks, trees, trees, List.map_cons, ih u List.mem_cons_self (ref || amp),
          ihus fun v hv => ih v (List.mem_cons_of_mem u hv)]
    rw [tree, TypeTree.unmark_tuple, ← hcomps]
    rfl

theorem length_front_le (sep : Sep) (amp : Bool) : (front sep false).length ≤ (front sep amp).length := by
  cases amp
  · exact le_rfl
  · simp [front]

/-- Without its `&`s the text of an expression is not longer. -/
theorem length_unmark_le (e : TypeExpr) : e.unmark.text.length ≤ e.text.length := by
  induction e with
  | spec sep amp s =>
    have hfront := length_front_le sep amp
    rw [unmark, text, text, List.length_append, List.length_append]
    omega
  | coll sep amp k n elem ih =>
    have hfront := length_front_le sep amp
    rw [unmark, text, text]
    simp only [List.length_append, List.length_cons]
    omega
  | range sep amp elem ih =>
    have hfront := length_front_le sep amp
    rw [unmark, text, text]
    simp only [List.length_append, List.length_cons]
    omega
  | tuple sep amp comps ih =>
    have hfront := length_front_le sep amp
    have hcomps : (texts (unmarks comps)).length ≤ (texts comps).length := by
      induction comps with
      | nil => exact le_rfl
      | cons u us ihus =>
        have hu := ih u List.mem_cons_self
        have hus := ihus fun v hv => ih v (List.mem_cons_of_mem u hv)
        rw [unmarks, texts, texts, List.length_append, List.length_append]
        omega
    rw [unmark, text, text]
    simp only [List.length_append, List.length_cons]
    omega

theorem dropWhile_front (sep : Sep) (amp : Bool) {c : Char} (hc : isFront c = false)
    (w : List Char) : (front sep amp ++ c :: w).dropWhile isFront = c :: w := by
  have hfront : ∀ d ∈ front sep amp, isFront d = true := by
    intro d hd
    rcases List.mem_append.mp hd with hd | hd
    · rw [isFront, sep.isSep d hd]; rfl
    · cases amp
      · cases hd
      · rw [List.mem_singleton.mp hd]; rfl
  rw [List.dropWhile_append_of_pos hfront, List.dropWhile_cons_of_neg (by simp [hc])]

/-- `toplevel_type` on the text of an expression. -/
theorem toplevelType_text (e : TypeExpr) (ref : Bool) :
    toplevelType e.text = .ok (e.tree ref).dtype := by
  unfold toplevelType
  rw [cStr_text]
  cases e with
  | spec sep amp s =>
    rw [text, dropWhile_front sep amp (by decide)]
    cases s <;> rfl
  | coll sep amp k n elem =>
    rw [text, dropWhile_front sep amp (by cases k <;> decide)]
    cases k <;> rfl
  | range sep amp elem =>
    rw [text, dropWhile_front sep amp (by decide)]
    rfl
  | tuple sep amp comps =>
    rw [text, dropWhile_front sep amp (by decide)]
    rfl

end TypeExpr

open TypeTree

/-! ## The value argument -/

/-- A value passed at the type of a scalar. -/
def ScalarKind.argLeaf (m : Memory) (s : ScalarKind) (a : VArg) : Except Stop Leaf :=
  match s.dtype, a with
  | .long, .long x | .ulong, .long x | .date, .long x => .ok (.long x)
  | .int, .int x | .uint, .int x => .ok (.int x)
  | .longlong, .longlong x | .ulonglong, .longlong x => .ok (.longlong x)
  | .double, .double x => .ok (.double x)
  | .timeval, .ptr p => do
    let tv ← m.loadTimeval p
    .ok (.timeval tv)
  | _, _ => .error .undefined

/-- What the value argument holds: a scalar, a string, or a packed buffer. -/
def TypeTree.argContents (m : Memory) (t : TypeTree) (a : VArg) : Except Stop Content :=
  match t, a with
  | .scalar s, a => do
    let x ← s.argLeaf m a
    .ok (.leaf s.dtype x)
  | .str k _, .ptr p =>
    if p = 0 then .error .undefined
    else do
      let s ← m.loadCstr p
      .ok (.leaf k.dtype (.str s))
  | t, .ptr p => if p = 0 then .error .undefined else t.contentsAt m p
  | _, _ => .error .undefined

/-- What the value argument shows later. -/
def TypeTree.seenArg (m₀ m : Memory) (t : TypeTree) (a : VArg) : Except Stop Content :=
  match t, a with
  | .scalar s, a => do
    let x ← s.argLeaf m₀ a
    .ok (.leaf s.dtype x)
  | .str k ref, .ptr p =>
    if p = 0 then .error .undefined
    else do
      let s ← (if ref then m else m₀).loadCstr p
      .ok (.leaf k.dtype (.str s))
  | t, .ptr p => if p = 0 then .error .undefined else t.seenAt m₀ m p
  | _, _ => .error .undefined

/-- In one memory, that is what it holds. -/
theorem seenArg_self (m : Memory) (t : TypeTree) (a : VArg) : t.seenArg m m a = t.argContents m a := by
  have hat : t.seenAt m m = t.contentsAt m := seenAt_self m t
  cases t with
  | scalar s => rfl
  | str k ref =>
    cases a with
    | ptr p =>
      show (if p = 0 then _ else (ite (ref = true) m m).loadCstr p >>= _) = _
      rw [ite_self]
      rfl
    | _ => rfl
  | _ =>
    cases a with
    | ptr p => exact congrArg (fun read => if p = 0 then Except.error .undefined else read p) hat
    | _ => rfl

theorem argContents_unmark (m : Memory) (t : TypeTree) (a : VArg) :
    t.unmark.argContents m a = t.argContents m a := by
  have hat := contentsAt_unmark m t
  cases t with
  | scalar s => rfl
  | str k ref => cases a <;> rfl
  | _ =>
    cases a with
    | ptr p => exact congrArg (fun read => if p = 0 then Except.error .undefined else read p) hat
    | _ => rfl

/-- Storing the argument of a container. -/
theorem storeFetched_seen {m₀ m : Memory} {t : TypeTree} {p : Addr} {c : Content} {ref : Bool}
    {ts : List TypeTree} (hc : t.container = some (ref, ts)) (hp : p ≠ 0) (hcounts : t.CountsOk)
    (href : t.RefClosed false) (hsize : t.packedSize < 2 ^ 31) (hseen : t.seenAt m₀ m p = .ok c) :
    ∃ v, storeFetched m₀ ⟨.indeterminate, 0, p⟩ t.datatype = .ok v ∧ Represents m t v c := by
  have hisref : t.datatype.isReference = ref := by
    obtain ⟨-, -, -, subs, hdatatype, -⟩ := datatype_container hcounts hc
    rw [hdatatype]
    rfl
  unfold storeFetched
  rw [if_neg (not_not.mpr rfl), if_pos hp, hisref]
  cases ref with
  | true =>
    rw [seenAt_reference m₀ m hc] at hseen
    exact ⟨_, rfl, .referenced hcounts hc (href.of_container hc) hsize hseen⟩
  | false =>
    obtain ⟨v, hcopy, hrep⟩ := copyValue_seen t hcounts href hsize hseen
    rw [if_neg Bool.false_ne_true, hcopy]
    exact ⟨v, rfl, hrep⟩

/-- A scalar argument is recorded with what it holds. -/
theorem fetchArg_copied {m₀ : Memory} {s : ScalarKind} {a : VArg} {x : Leaf}
    (h : s.argLeaf m₀ a = .ok x) (ap : List VArg) :
    ∃ v, fetchArg m₀ s.dtype (a :: ap) = .ok (.ofValue v, ap) ∧ ∀ m, readLeaf m s.dtype v = .ok x := by
  unfold ScalarKind.argLeaf at h
  split at h
  any_goals
    rename_i hdtype
    obtain rfl := Except.ok.inj h
    exact ⟨_, by rw [hdtype]; rfl, fun m => by rw [hdtype]; rfl⟩
  · rename_i p hdtype
    obtain ⟨tv, htv, h⟩ := bind_eq_ok.mp h
    obtain rfl := Except.ok.inj h
    refine ⟨.vPtr (.timeval tv), ?_, fun m => by rw [hdtype]; rfl⟩
    rw [hdtype]
    show (m₀.loadTimeval p >>= _) = _
    rw [htv]
    rfl
  · cases h

theorem isReference_str (k : StringKind) (ref : Bool) :
    (TypeTree.str k ref).datatype.isReference = ref := by
  cases k <;> cases ref <;> rfl

/-- What is recorded in `m₀` represents what is then seen in `m`. -/
theorem storeFetched_represents {m₀ m : Memory} {a : VArg} {ap : List VArg} {t : TypeTree} {c : Content}
    (hcounts : t.CountsOk) (href : t.RefClosed false) (hsize : t.packedSize < 2 ^ 31)
    (hseen : t.seenArg m₀ m a = .ok c) : ∃ f v, fetchArg m₀ t.dtype (a :: ap) = .ok (f, ap) ∧
      storeFetched m₀ f t.datatype = .ok v ∧ Represents m t v c := by
  have hcontainer : ∀ {ref ts p}, t.container = some (ref, ts) → a = .ptr p →
      fetchArg m₀ t.dtype (.ptr p :: ap) = .ok (⟨.indeterminate, 0, p⟩, ap) →
      (if p = 0 then .error .undefined else t.seenAt m₀ m p) = .ok c →
      ∃ f v, fetchArg m₀ t.dtype (a :: ap) = .ok (f, ap) ∧
        storeFetched m₀ f t.datatype = .ok v ∧ Represents m t v c := by
    intro ref ts p hc ha hfetch hat
    split_ifs at hat with hp
    obtain ⟨v, hstore, hrep⟩ := storeFetched_seen hc hp hcounts href hsize hat
    exact ⟨_, v, ha ▸ hfetch, hstore, hrep⟩
  cases t with
  | scalar s =>
    obtain ⟨x, hx, h⟩ := bind_eq_ok.mp hseen
    obtain rfl := Except.ok.inj h
    obtain ⟨v, hfetch, hv⟩ := fetchArg_copied hx ap
    exact ⟨_, v, hfetch, rfl, .leaf rfl (hv m)⟩
  | str k ref =>
    cases a with
    | ptr p =>
      replace hseen : (if p = 0 then .error .undefined else do
          let s ← (if ref then m else m₀).loadCstr p
          .ok (.leaf k.dtype (.str s))) = Except.ok c := hseen
      have hp : p ≠ 0 := by
        rintro rfl
        rw [if_pos rfl] at hseen
        cases hseen
      rw [if_neg hp] at hseen
      obtain ⟨s, hs, h⟩ := bind_eq_ok.mp hseen
      obtain rfl := Except.ok.inj h
      have hfetch : fetchArg m₀ (TypeTree.str k ref).dtype (.ptr p :: ap) =
          .ok (⟨.indeterminate, p, 0⟩, ap) := by cases k <;> rfl
      have hleaf : ∀ q : Pointer, q.cstr m = .ok s → readLeaf m k.dtype (.vPtr q) = .ok (.str s) := by
        intro q hq
        cases k <;> (show (q.cstr m >>= _) = _; rw [hq]; rfl)
      refine ⟨_, _, hfetch, ?_, .leaf rfl (hleaf (if ref then .caller p else .strdup s) ?_)⟩
      · unfold storeFetched
        rw [if_pos hp, isReference_str]
        cases ref with
        | true => rfl
        | false =>
          rw [if_neg Bool.false_ne_true] at hs ⊢
          rw [hs]
          rfl
      · cases ref with
        | true => exact hs
        | false => rfl
    | _ => cases hseen
  | coll k ref n elem =>
    cases a with
    | ptr p => exact hcontainer rfl rfl (by cases k <;> rfl) hseen
    | _ => cases hseen
  | range ref elem =>
    cases a with
    | ptr p => exact hcontainer rfl rfl rfl hseen
    | _ => cases hseen
  | tuple ref comps =>
    cases a with
    | ptr p => exact hcontainer rfl rfl rfl hseen
    | _ => cases hseen

/-- Once the argument is fetched and the value stored, the three steps of `adiak_namevalue` are one. -/
theorem namevalueArgs_eq_ok {m : Memory} {e : TypeExpr} {a : VArg} {ap rest : List VArg} {t : TypeTree}
    {f : Fetched} {v : AdiakValue} (hread : (e.tree false).reread ap = .ok (t, rest))
    (hfits : e.text.length < 2 ^ 31) (hfetch : fetchArg m t.dtype (a :: ap) = .ok (f, ap))
    (hstore : storeFetched m f t.datatype = .ok v) :
    namevalueArgs m e.text (a :: ap) = .ok (v, t.datatype) := by
  have htop := e.toplevelType_text false
  rw [← dtype_reread hread] at htop
  unfold namevalueArgs
  simp only [htop, hfetch, e.parseTypestr_text hfits, hread, ok_bind, hstore]

theorem namevalueArgs_spec {m : Memory} {s : Spec} {a : VArg} {f : Fetched} {v : AdiakValue}
    (hfetch : fetchArg m (s.tree false).dtype [a] = .ok (f, []))
    (hstore : storeFetched m f (s.tree false).datatype = .ok v) :
    namevalueArgs m (TypeExpr.spec .none false s).text [a] = .ok (v, (s.tree false).datatype) :=
  namevalueArgs_eq_ok (e := .spec .none false s) (by cases s <;> rfl) (by cases s <;> decide) hfetch
    hstore

/-- The value that is recorded represents what the argument holds. -/
theorem namevalueArgs_represents {m : Memory} {e : TypeExpr} {a : VArg} {ap rest : List VArg}
    {t : TypeTree} {c : Content} (hread : (e.tree false).reread ap = .ok (t, rest))
    (hfits : e.text.length < 2 ^ 31) (hcounts : t.CountsOk) (hsize : t.packedSize < 2 ^ 31)
    (harg : t.argContents m a = .ok c) :
    ∃ v, namevalueArgs m e.text (a :: ap) = .ok (v, t.datatype) ∧ Represents m t v c := by
  have href := refClosed_reread (e.refClosed_tree false) hread
  obtain ⟨f, v, hfetch, hstore, hrep⟩ := storeFetched_represents hcounts href hsize
    (by rwa [seenArg_self])
  exact ⟨v, namevalueArgs_eq_ok hread hfits hfetch hstore, hrep⟩

/-! ## The two recorded values -/

/-- At every container within reach, `adiak_get_subval` succeeds exactly for the indices below
`adiak_num_subvals`, and otherwise returns `-1` and clears what it was to write. -/
def SubvalBounds (m : Memory) (t : AdiakDatatype) (v : AdiakValue) : Prop :=
  ∀ t' v', Reaches m t v t' v' → isBasetype t'.dtype = false →
    ∃ n, adiakNumSubvals t' = .ok n ∧ ∀ elem : Int, ∃ r, adiakGetSubval m t' v' elem = .ok r ∧
      (r.ret = 0 ↔ 0 ≤ elem ∧ elem < n) ∧ (¬(0 ≤ elem ∧ elem < n) → r = .error)

theorem Represents.subvalBounds {m : Memory} {t : TypeTree} {v : AdiakValue} {c : Content}
    (h : Represents m t v c) : SubvalBounds m t.datatype v := by
  intro t' v' hreach hbase
  obtain ⟨u, c', rfl, hrep⟩ := h.reaches hreach
  rw [dtype_datatype] at hbase
  cases hc : u.container with
  | none => rw [isBasetype_leaf hc] at hbase; cases hbase
  | some r =>
    obtain ⟨ref, ts⟩ := r
    obtain ⟨cs, -, hlen, hnum, hout, hin⟩ := hrep.adiakGetSubval hc
    refine ⟨ts.length, hnum, fun elem => ?_⟩
    by_cases hrange : 0 ≤ elem ∧ elem < ts.length
    · obtain ⟨i, rfl⟩ : ∃ i : Nat, elem = i := ⟨elem.toNat, by omega⟩
      have hi : i < ts.length := by omega
      obtain ⟨w, hget, -⟩ := hin i hi (hlen ▸ hi)
      exact ⟨_, hget, iff_of_true rfl hrange, fun h => absurd hrange h⟩
    · refine ⟨_, hout elem (by omega), iff_of_false ?_ hrange, fun _ => rfl⟩
      show ¬ (-1 : Int) = 0
      decide

/-- Once the value argument has been fetched, the counts are left. -/
theorem fetchArg_rest {m : Memory} {top : AdiakType} {a : VArg} {ap ap' : List VArg} {f : Fetched}
    (h : fetchArg m top (a :: ap) = .ok (f, ap')) : ap' = ap := by
  unfold fetchArg at h
  split at h
  any_goals
    rename_i heq
    obtain ⟨-, rfl⟩ := Prod.mk.inj (Except.ok.inj h)
    exact (List.cons.inj heq).2.symm
  · cases h
  · rename_i heq
    obtain ⟨tv, -, h⟩ := bind_eq_ok.mp h
    obtain ⟨-, rfl⟩ := Prod.mk.inj (Except.ok.inj h)
    exact (List.cons.inj heq).2.symm
  · cases h

/-- If an expression is recorded with its own type, the parser has returned that type. -/
theorem parse_of_namevalueArgs {m : Memory} {e : TypeExpr} {a : VArg} {rest : List VArg}
    {v : AdiakValue} (h : namevalueArgs m e.text (a :: ((e.tree false).args ++ rest)) =
      .ok (v, (e.tree false).datatype)) :
    parseTypestr e.text ((e.tree false).args ++ rest) = .ok ((e.tree false).datatype, rest) := by
  unfold namevalueArgs at h
  obtain ⟨top, -, h⟩ := bind_eq_ok.mp h
  obtain ⟨⟨f, ap⟩, hfetch, h⟩ := bind_eq_ok.mp h
  obtain rfl := fetchArg_rest hfetch
  obtain ⟨⟨t, rest'⟩, hparse, h⟩ := bind_eq_ok.mp h
  obtain ⟨w, -, h⟩ := bind_eq_ok.mp h
  obtain ⟨-, rfl⟩ := Prod.mk.inj (Except.ok.inj h)
  obtain rfl := List.append_cancel_left (args_of_reread (e.reread_of_parse hparse))
  exact hparse

/-- Copying and referencing show the same: an expression and the expression without its `&`s are recorded
with their types, with what the argument holds at the type of the expression, and within the bounds of its
containers. -/
def Unmarks (m : Memory) (e : TypeExpr) (a : VArg) (rest : List VArg) (c : Content) : Prop :=
  ∃ v v₀,
    namevalueArgs m e.text (a :: ((e.tree false).args ++ rest)) = .ok (v, (e.tree false).datatype) ∧
    namevalueArgs m e.unmark.text (a :: ((e.tree false).args ++ rest)) =
      .ok (v₀, (e.tree false).unmark.datatype) ∧
    (∀ fuel, (e.tree false).height < fuel → readTree m fuel (e.tree false).datatype v = .ok c ∧
      readTree m fuel (e.tree false).unmark.datatype v₀ = .ok c) ∧
    SubvalBounds m (e.tree false).datatype v ∧ SubvalBounds m (e.tree false).unmark.datatype v₀

/-- An expression is recorded so exactly when the parser returns the type that it denotes. -/
theorem namevalue_unmark_iff {m : Memory} {e : TypeExpr} {a : VArg} {c : Content} (rest : List VArg)
    (hcounts : (e.tree false).CountsOk) (hsize : (e.tree false).packedSize < 2 ^ 31)
    (harg : (e.tree false).argContents m a = .ok c) :
    Unmarks m e a rest c ↔ (e.tree false).Reads (e.tree false) ∧ e.text.length < 2 ^ 31 := by
  constructor
  · rintro ⟨v, v₀, hv, -⟩
    exact reads_of_parse (parse_of_namevalueArgs hv)
  rintro ⟨hreads, hfits⟩
  have hread := (reread_iff _ _ rest).mpr hreads
  have hread₀ : (e.unmark.tree false).reread ((e.tree false).args ++ rest) =
      .ok ((e.tree false).unmark, rest) := by
    rw [e.tree_unmark false, TypeTree.unmark, reread_map, hread]
    rfl
  have hcounts₀ : (e.tree false).unmark.CountsOk := by
    unfold CountsOk TypeTree.unmark
    rw [counts_map]
    exact hcounts
  obtain ⟨v, hv, hrep⟩ := namevalueArgs_represents hread hfits hcounts hsize harg
  obtain ⟨v₀, hv₀, hrep₀⟩ := namevalueArgs_represents hread₀ (e.length_unmark_le.trans_lt hfits)
    hcounts₀ (by rwa [packedSize_unmark]) (by rwa [argContents_unmark])
  refine ⟨v, v₀, hv, hv₀, fun fuel hfuel => ⟨hrep.readTree hfuel, hrep₀.readTree ?_⟩,
    hrep.subvalBounds, hrep₀.subvalBounds⟩
  rwa [height_unmark]

/-- `{&(%u8,%i16)}` with two elements, over memory filled with the byte `1`. -/
theorem namevalue_unmark_list : ∃ v v₀ t t₀ c,
    namevalueArgs { Memory.empty with byte := fun _ => some 1 }
      "\x7b&(%u8,%i16)\x7d".toList [.ptr 16, .int 2, .int 2] = .ok (v, t) ∧
    namevalueArgs { Memory.empty with byte := fun _ => some 1 }
      "\x7b(%u8,%i16)\x7d".toList [.ptr 16, .int 2, .int 2] = .ok (v₀, t₀) ∧
    readTree { Memory.empty with byte := fun _ => some 1 } 3 t v = .ok c ∧
    readTree { Memory.empty with byte := fun _ => some 1 } 3 t₀ v₀ = .ok c := by
  obtain ⟨v, v₀, hv, hv₀, hread, -, -⟩ := (namevalue_unmark_iff (a := .ptr 16)
    (m := { Memory.empty with byte := fun _ => some 1 })
    (e := .coll .none false .list 2 (.tuple .none true [.spec .none false .u8, .spec .comma false .i16]))
    [] (by unfold CountsOk; decide) (by decide) rfl).mpr ⟨reads_self_of_tuplesLast
      (by simp [TypeExpr.tree, TypeExpr.trees, TuplesLast, TuplesLastSeq, Spec.tree, isTuple]), by decide⟩
  obtain ⟨h, h₀⟩ := hread 3 (by decide)
  exact ⟨v, v₀, _, _, _, hv, hv₀, h, h₀⟩

/-- `((%d,%d),&%s)`: the string is read as the tuple in front of it, with a count that is not there. -/
theorem namevalue_unmark_not_always :
    ¬ ∀ (m : Memory) (e : TypeExpr) (a : VArg) (rest : List VArg) (c : Content),
      (e.tree false).CountsOk → (e.tree false).packedSize < 2 ^ 31 →
      (e.tree false).argContents m a = .ok c → Unmarks m e a rest c := by
  intro h
  obtain ⟨c, hc⟩ := exists_of_isOk (x := (TypeExpr.tree (.tuple .none false [.tuple .none false
    [.spec .none false .d, .spec .comma false .d], .spec .comma true .string]) false).argContents
      { Memory.empty with byte := fun _ => some 1, cstr := fun _ => some ['a'] } (.ptr 16))
    (by decide +kernel)
  obtain ⟨v, v₀, hv, -⟩ := h _ _ _ [] c (by unfold CountsOk; decide) (by decide) hc
  exact absurd (congrArg Except.isOk (parse_of_namevalueArgs hv)) (by decide +kernel)

end Adiak
