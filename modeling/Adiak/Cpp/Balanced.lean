import Adiak.Cpp.Blocks
import Adiak.Cpp.RoundTrip

/-!
# Which C++ values are released

The node of a container holds the length of the last value made for it, and `free_adiak_value_worker` goes
by the node.

1. `CppType.Balanced` is the condition: at every node whose elements lead to blocks all containers have one
   length.
2. `CppType.Covers` says for one value that the counts come to all its elements that lead to blocks, and to
   no others. It is what releasing the value needs (`releases_iff_covers`).
3. `releases_iff_balanced` is the induction over the type: all values that share a type release all their
   blocks if and only if they are balanced.
-/

namespace Adiak

open CppType

/-! ## The condition -/

/-- The scalars that are copied to a block. -/
def CppScalar.isCopied : CppScalar → Bool
  | .charPtr | .string | .timevalPtr | .version | .path | .catstring | .jsonstring => true
  | _ => false

namespace CppType

/-- Whether the values of a type take blocks. -/
def takesBlocks : CppType → Bool
  | .scalar s => s.isCopied
  | .other => false
  | .container _ _ | .tuple _ => true

mutual

/-- Where elements take blocks, all containers that share a node have one length, which is an `int`. -/
def Balanced : CppType → List CppValue → Prop
  | .scalar _, _ | .other, _ => True
  | .container _ elem, vs =>
    (elem.takesBlocks = true → ∃ n : Nat, (n : Int) < 2 ^ 31 ∧ ∀ v ∈ vs, v.elements.length = n) ∧
      Balanced elem (vs.flatMap CppValue.elements)
  | .tuple ts, vs => BalancedSeq ts (vs.map CppValue.elements)

def BalancedSeq : List CppType → List (List CppValue) → Prop
  | [], _ => True
  | t :: ts, rows => Balanced t (rows.filterMap List.head?) ∧ BalancedSeq ts (rows.map List.tail)

end

mutual

/-- The counts that the values `ws` have left are those of `v`, wherever elements take blocks. -/
def Covers : CppType → List CppValue → CppValue → Prop
  | .scalar _, _, _ | .other, _, _ => True
  | .container _ elem, ws, v =>
    (elem.takesBlocks = true → v.elements.length = (lastLength ws).toNat) ∧
      ∀ e ∈ v.elements, Covers elem (ws.flatMap CppValue.elements) e
  | .tuple ts, ws, v => CoversSeq ts (ws.map CppValue.elements) v.elements

def CoversSeq : List CppType → List (List CppValue) → List CppValue → Prop
  | t :: ts, rows, e :: es => Covers t (rows.filterMap List.head?) e ∧ CoversSeq ts (rows.map List.tail) es
  | _, _, _ => True

end

end CppType

/-! ## One value -/

theorem fills_vSubval {as : List AdiakValue} {x : BlockValue} {ns : List Nat}
    (h : Fills (.vSubval as) x ns) : ∃ b xs ns', x = .vSubval (some b) xs ∧ FillsEach as xs ns' := by
  obtain ⟨hvalue, hfilled, htaken⟩ := h
  cases x with
  | vSubval block xs =>
    obtain ⟨b, rfl⟩ := Option.isSome_iff_exists.mp hfilled.1
    exact ⟨b, xs, _, rfl, AdiakValue.vSubval.inj hvalue, hfilled.2, rfl⟩
  | _ => cases hvalue

/-- A scalar releases its copy, if it has one. -/
theorem fills_scalar {s : CppScalar} {v : CppValue} (hv : s.HasValue v) {x : BlockValue} {ns : List Nat}
    (h : Fills ((CppType.scalar s).stored v) x ns) :
    Releases s.tree.datatype x x.blocks ∧ (x.blocks = [] ↔ s.isCopied = false) := by
  have hvalue := h.value
  cases v with
  | integer y =>
    obtain ⟨k, hk, -⟩ : ∃ k, s.integral = some k ∧ k.InRange y := by cases s <;> exact hv
    cases s <;> first
      | cases hk; done
      | (cases x <;> first
          | cases hvalue; done
          | exact ⟨⟨[], rfl, .nil⟩, iff_of_true rfl rfl⟩)
  | floating y =>
    cases y <;> cases s <;> first
      | exact hv.elim
      | (cases x <;> first
          | cases hvalue; done
          | exact ⟨⟨[], rfl, .nil⟩, iff_of_true rfl rfl⟩)
  | str l =>
    obtain ⟨b, rfl⟩ : ∃ b, x = .vPtr (.strdup b (cStr l)) := by
      have hstored : x.erase = .vPtr (.strdup (cStr l)) := by
        cases s <;> first | exact hvalue | exact hv.elim
      cases x with
      | vPtr p =>
        cases p with
        | strdup b str =>
          obtain rfl := Pointer.strdup.inj (AdiakValue.vPtr.inj hstored)
          exact ⟨b, rfl⟩
        | caller p => cases hstored
        | timeval b tv => cases hstored
      | _ => cases hstored
    cases s <;> first
      | exact hv.elim
      | exact ⟨⟨[b], rfl, .refl _⟩, iff_of_false (List.cons_ne_nil _ _) nofun⟩
  | timeval tv =>
    obtain ⟨b, rfl⟩ : ∃ b, x = .vPtr (.timeval b tv) := by
      have hstored : x.erase = .vPtr (.timeval tv) := by
        cases s <;> first | exact hvalue | exact hv.elim
      cases x with
      | vPtr p =>
        cases p with
        | timeval b tv' =>
          obtain rfl := Pointer.timeval.inj (AdiakValue.vPtr.inj hstored)
          exact ⟨b, rfl⟩
        | caller p => cases hstored
        | strdup b s => cases hstored
      | _ => cases hstored
    cases s <;> first
      | exact hv.elim
      | exact ⟨⟨[b], rfl, .refl _⟩, iff_of_false (List.cons_ne_nil _ _) nofun⟩
  | pointer p => cases s <;> exact hv.elim
  | elems vs => cases s <;> exact hv.elim

/-- A value takes blocks if its type says so. -/
theorem fills_blocks {t : CppType} {v : CppValue} (hv : HasType t v) {x : BlockValue} {ns : List Nat}
    (h : Fills (t.stored v) x ns) : x.blocks = [] ↔ t.takesBlocks = false := by
  cases t with
  | scalar s => exact (fills_scalar hv h).2
  | other => cases v <;> cases hv
  | container c elem =>
    obtain ⟨b, xs, ns', rfl, -⟩ := fills_vSubval h
    exact iff_of_false (List.cons_ne_nil _ _) nofun
  | tuple ts =>
    obtain ⟨b, xs, ns', rfl, -⟩ := fills_vSubval h
    exact iff_of_false (List.cons_ne_nil _ _) nofun

/-- Types without blocks have nothing to cover. -/
theorem covers_of_not_takesBlocks {t : CppType} (h : t.takesBlocks = false) (ws : List CppValue)
    (v : CppValue) : t.Covers ws v := by
  cases t with
  | scalar s => trivial
  | other => trivial
  | container c elem => cases h
  | tuple ts => cases h

/-- Behind the elements that were made, nothing is released, and nothing may be read. -/
theorem releases_behind_iff (t : CppType) (ws : List CppValue) :
    Releases (t.tree ws).datatype .indeterminate [] ↔ t.takesBlocks = false := by
  cases t with
  | scalar s =>
    cases s <;> first
      | exact iff_of_true ⟨[], rfl, .nil⟩ rfl
      | exact iff_of_false (fun ⟨_, hbs, _⟩ => by cases hbs) nofun
  | other => exact iff_of_true ⟨[], rfl, .nil⟩ rfl
  | container c elem => exact iff_of_false (not_releases_container rfl _) nofun
  | tuple ts => exact iff_of_false (not_releases_container rfl _) nofun

/-- Elements of one type. -/
theorem releasesEach_replicate {elem : CppType} {ws : List CppValue}
    (helem : ∀ {v : CppValue} {x : BlockValue} {ns : List Nat}, HasType elem v →
      Fills (elem.stored v) x ns →
        (Releases (elem.tree ws).datatype x x.blocks ↔ elem.Covers ws v))
    {es : List CppValue} (hes : ∀ e ∈ es, HasType elem e) {xs : List BlockValue} {ns : List Nat}
    (hxs : FillsEach (es.map fun e => elem.stored e) xs ns) (k : Nat) :
    ReleasesEach (List.replicate k (elem.tree ws)) xs ↔
      (elem.takesBlocks = true → es.length = k) ∧ ∀ e ∈ es, elem.Covers ws e := by
  induction es generalizing xs ns k with
  | nil =>
    cases xs with
    | cons x xs => cases hxs.values
    | nil =>
      rw [and_iff_left fun _ h => absurd h List.not_mem_nil]
      clear hes hxs
      induction k with
      | zero => exact iff_of_true (fun _ h => absurd h List.not_mem_nil) fun _ => rfl
      | succ k ihk =>
        rw [List.replicate_succ, ReleasesEach]
        show Releases (elem.tree ws).datatype .indeterminate [] ∧
          ReleasesEach (List.replicate k (elem.tree ws)) [] ↔ _
        rw [releases_behind_iff, ihk]
        cases elem.takesBlocks <;> simp
  | cons e es ih =>
    obtain ⟨he, hes⟩ := List.forall_mem_cons.mp hes
    cases xs with
    | nil => cases hxs.values
    | cons x xs =>
      obtain ⟨hvalue, hvalues⟩ := List.cons.inj hxs.values
      have hx : Fills (elem.stored e) x x.blocks := ⟨hvalue, hxs.filled.1, rfl⟩
      have hrest : FillsEach (es.map fun e => elem.stored e) xs (blocksOfEach xs) :=
        ⟨hvalues, hxs.filled.2, rfl⟩
      cases k with
      | zero =>
        have hfirst := fills_blocks he hx
        have hbehind := ih hes hrest 0
        show (∀ y ∈ x :: xs, y.blocks = []) ↔ _
        rw [List.forall_mem_cons, hfirst]
        cases htakes : elem.takesBlocks with
        | true =>
          refine iff_of_false ?_ fun h => Nat.succ_ne_zero _ (h.1 rfl)
          rintro ⟨h, -⟩
          cases h
        | false =>
          have hcovers := covers_of_not_takesBlocks htakes ws
          refine iff_of_true ⟨rfl, ?_⟩ ⟨(fun h => by cases h), fun e _ => hcovers e⟩
          refine hbehind.mpr ⟨fun h => ?_, fun e _ => hcovers e⟩
          rw [htakes] at h
          cases h
      | succ k =>
        rw [List.replicate_succ, ReleasesEach, List.headD_cons, List.tail_cons, helem he hx,
          ih hes hrest, List.forall_mem_cons, List.length_cons, Nat.succ_inj]
        exact and_left_comm

/-- The components of a tuple. -/
theorem releasesEach_trees {ts : List CppType}
    (hts : ∀ t ∈ ts, ∀ {ws : List CppValue} {v : CppValue} {x : BlockValue} {ns : List Nat},
      HasType t v → Fills (t.stored v) x ns →
        (Releases (t.tree ws).datatype x x.blocks ↔ t.Covers ws v))
    {rows : List (List CppValue)} {es : List CppValue} (hes : HasTypes ts es) {xs : List BlockValue}
    {ns : List Nat} (hxs : FillsEach (storedSeq ts es) xs ns) :
    ReleasesEach (trees ts rows) xs ↔ CoversSeq ts rows es := by
  induction ts generalizing rows es xs ns with
  | nil =>
    cases es with
    | cons e es => cases hes
    | nil =>
      cases xs with
      | cons x xs => cases hxs.values
      | nil => exact iff_of_true (fun _ h => absurd h List.not_mem_nil) trivial
  | cons t ts ih =>
    cases es with
    | nil => cases hes
    | cons e es =>
      cases xs with
      | nil => cases hxs.values
      | cons x xs =>
        obtain ⟨hvalue, hvalues⟩ := List.cons.inj hxs.values
        rw [trees, ReleasesEach, CoversSeq, List.headD_cons, List.tail_cons,
          hts t List.mem_cons_self hes.1 ⟨hvalue, hxs.filled.1, rfl⟩,
          ih (fun u hu => hts u (List.mem_cons_of_mem t hu)) hes.2 ⟨hvalues, hxs.filled.2, rfl⟩]

/-- A value releases all its blocks if the counts cover it. -/
theorem releases_iff_covers {t : CppType} {ws : List CppValue} {v : CppValue} (hv : HasType t v)
    {x : BlockValue} {ns : List Nat} (hx : Fills (t.stored v) x ns) :
    Releases (t.tree ws).datatype x x.blocks ↔ t.Covers ws v := by
  induction t generalizing ws v x ns with
  | scalar s => exact iff_of_true (fills_scalar hv hx).1 trivial
  | other => cases v <;> cases hv
  | container c elem ih =>
    cases v with
    | elems es =>
      obtain ⟨b, xs, ns', rfl, hxs⟩ := fills_vSubval hx
      rw [tree, releases_container_iff rfl, releasesEach_replicate (fun he hx => ih he hx) hv.2 hxs,
        Covers]
      rfl
    | _ => cases hv
  | tuple ts ih =>
    cases v with
    | elems es =>
      obtain ⟨b, xs, ns', rfl, hxs⟩ := fills_vSubval hx
      rw [tree, releases_container_iff rfl, releasesEach_trees (fun t ht _ _ _ _ he hx => ih t ht he hx)
        hv hxs, Covers]
      rfl
    | _ => cases hv

/-! ## All values at a node -/

/-- Tuples of one type, by their first components and their rests. -/
theorem forall_rows_iff {t : CppType} {ts : List CppType} {rows : List (List CppValue)}
    (hrows : ∀ row ∈ rows, HasTypes (t :: ts) row) {P : CppValue → Prop} {Q : List CppValue → Prop}
    {R : List CppValue → Prop} (hR : ∀ v vs, R (v :: vs) ↔ P v ∧ Q vs) :
    (∀ row ∈ rows, R row) ↔
      (∀ v ∈ rows.filterMap List.head?, P v) ∧ ∀ row ∈ rows.map List.tail, Q row := by
  induction rows with
  | nil => simp
  | cons row rows ih =>
    obtain ⟨hrow, hrest⟩ := List.forall_mem_cons.mp hrows
    cases row with
    | nil => cases hrow
    | cons v vs =>
      rw [List.forall_mem_cons, hR, ih hrest, List.filterMap_cons, List.map_cons, List.forall_mem_cons]
      simp only [List.head?_cons, List.tail_cons, List.forall_mem_cons]
      exact and_and_and_comm

/-- The components of well typed tuples are well typed. -/
theorem hasTypes_rows {t : CppType} {ts : List CppType} {rows : List (List CppValue)}
    (hrows : ∀ row ∈ rows, HasTypes (t :: ts) row) :
    (∀ v ∈ rows.filterMap List.head?, HasType t v) ∧ ∀ row ∈ rows.map List.tail, HasTypes ts row :=
  (forall_rows_iff hrows fun _ _ => Iff.rfl).mp hrows

theorem coversSeq_iff_balancedSeq {ts : List CppType}
    (hts : ∀ t ∈ ts, ∀ {vs : List CppValue}, (∀ v ∈ vs, HasType t v) →
      ((∀ v ∈ vs, t.Covers vs v) ↔ t.Balanced vs))
    {rows : List (List CppValue)} (hrows : ∀ row ∈ rows, HasTypes ts row) :
    (∀ row ∈ rows, CoversSeq ts rows row) ↔ BalancedSeq ts rows := by
  induction ts generalizing rows with
  | nil => exact iff_of_true (fun row _ => by cases row <;> trivial) trivial
  | cons t ts ih =>
    obtain ⟨hheads, htails⟩ := hasTypes_rows hrows
    rw [BalancedSeq, ← hts t List.mem_cons_self hheads,
      ← ih (fun u hu => hts u (List.mem_cons_of_mem t hu)) htails]
    exact forall_rows_iff hrows fun _ _ => Iff.rfl

/-- The elements of well typed containers are well typed. -/
theorem hasType_elements {c : CppContainer} {elem : CppType} {vs : List CppValue}
    (hvs : ∀ v ∈ vs, HasType (.container c elem) v) :
    ∀ e ∈ vs.flatMap CppValue.elements, HasType elem e := by
  intro e he
  obtain ⟨v, hv, he⟩ := List.mem_flatMap.mp he
  have htype := hvs v hv
  cases v with
  | elems es => exact htype.2 e he
  | _ => cases htype

/-- All values that share a type are covered if and only if they are balanced. -/
theorem covers_iff_balanced {t : CppType} {vs : List CppValue} (hvs : ∀ v ∈ vs, HasType t v) :
    (∀ v ∈ vs, t.Covers vs v) ↔ t.Balanced vs := by
  induction t generalizing vs with
  | scalar s => exact iff_of_true (fun _ _ => trivial) trivial
  | other => exact iff_of_true (fun _ _ => trivial) trivial
  | container c elem ih =>
    have hflat : (∀ v ∈ vs, ∀ e ∈ v.elements, elem.Covers (vs.flatMap CppValue.elements) e) ↔
        elem.Balanced (vs.flatMap CppValue.elements) := by
      rw [← ih (hasType_elements hvs)]
      simp only [List.mem_flatMap]
      exact ⟨fun h e ⟨v, hv, he⟩ => h v hv e he, fun h v hv e he => h e ⟨v, hv, he⟩⟩
    have hcount : (∀ v ∈ vs, elem.takesBlocks = true → v.elements.length = (lastLength vs).toNat) ↔
        (elem.takesBlocks = true → ∃ n : Nat, (n : Int) < 2 ^ 31 ∧ ∀ v ∈ vs, v.elements.length = n) := by
      rw [← forall_lastLength_iff]
      exact ⟨fun h htakes v hv => h v hv htakes, fun h v hv htakes => h htakes v hv⟩
    rw [CppType.Balanced, ← hflat, ← hcount, ← forall₂_and]
    simp only [Covers]
  | tuple ts ih =>
    have hrows : ∀ row ∈ vs.map CppValue.elements, HasTypes ts row := by
      intro row hrow
      obtain ⟨v, hv, rfl⟩ := List.mem_map.mp hrow
      have htype := hvs v hv
      cases v with
      | elems es => exact htype
      | _ => cases htype
    rw [CppType.Balanced, ← coversSeq_iff_balancedSeq (fun t ht _ hus => ih t ht hus) hrows, List.forall_mem_map]
    rfl

/-- Values that come back from the store are balanced. -/
theorem CppType.Uniform.balanced {t : CppType} {vs : List CppValue} (h : t.Uniform vs) :
    t.Balanced vs := by
  induction t generalizing vs with
  | scalar s => trivial
  | other => trivial
  | container c elem ih =>
    obtain ⟨hlen, helems⟩ := h
    exact ⟨fun _ => hlen, ih helems⟩
  | tuple ts ih =>
    have hseq : ∀ rows, UniformSeq ts rows → BalancedSeq ts rows := by
      clear h
      induction ts with
      | nil => exact fun _ _ => trivial
      | cons t ts ihts =>
        intro rows hrows
        exact ⟨ih t List.mem_cons_self hrows.1,
          ihts (fun u hu => ih u (List.mem_cons_of_mem t hu)) _ hrows.2⟩
    exact hseq _ h

end Adiak
