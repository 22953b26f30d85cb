import Mathlib.Data.List.Perm.Subperm
import Adiak.Values.Blocks

/-!
# Values that are released in part

The blocks that hang from a value, whether or not its type leads to them.

1. `BlockValue.blocks` are the blocks of a value.
2. At whatever type a value is released, these are its own blocks, each at most once
   (`releaseBlocks_subperm`).
3. `releases_container_iff`: a container releases all its blocks if its elements do as far as its type
   counts them, and the elements behind have none.
-/

namespace Adiak

open TypeTree

/-! ## The blocks of a value -/

def BlockPointer.blocks : BlockPointer → List Nat
  | .caller _ => []
  | .strdup b _ | .timeval b _ => [b]

mutual

/-- An array, then what its elements lead to. -/
def BlockValue.blocks : BlockValue → List Nat
  | .indeterminate | .vLong _ | .vInt _ | .vDouble _ | .vLonglong _ => []
  | .vPtr p => p.blocks
  | .vSubval block elems => block.toList ++ blocksOfEach elems

def blocksOfEach : List BlockValue → List Nat
  | [] => []
  | v :: vs => v.blocks ++ blocksOfEach vs

end

theorem blocksOfEach_eq_nil {vs : List BlockValue} :
    blocksOfEach vs = [] ↔ ∀ v ∈ vs, v.blocks = [] := by
  induction vs with
  | nil => simp [blocksOfEach]
  | cons v vs ih => rw [blocksOfEach, List.append_eq_nil_iff, ih, List.forall_mem_cons]

theorem blocksOfEach_eq (vs : List BlockValue) :
    blocksOfEach vs = (vs.headD .indeterminate).blocks ++ blocksOfEach vs.tail := by
  cases vs <;> rfl

/-! ## Releasing in part -/

theorem freeBlock_subperm {v : BlockValue} {bs : List Nat} (h : freeBlock v = .ok bs) :
    bs.Subperm v.blocks := by
  cases v with
  | vPtr p =>
    cases p with
    | caller p =>
      unfold freeBlock at h
      dsimp only at h
      split_ifs at h
      obtain rfl := Except.ok.inj h
      exact List.nil_subperm
    | strdup b s =>
      obtain rfl := Except.ok.inj h
      exact .refl _
    | timeval b tv =>
      obtain rfl := Except.ok.inj h
      exact .refl _
  | _ => cases h

theorem releaseLoop_subperm {subtype : List AdiakDatatype}
    (h : ∀ s ∈ subtype, ∀ (v : BlockValue) (bs : List Nat), releaseBlocks s v = .ok bs →
      bs.Subperm v.blocks)
    {isTuple : Bool} {values : List BlockValue} {n i : Nat} {bs : List Nat}
    (hloop : releaseLoop (subtype.map releaseBlocks) isTuple values n i = .ok bs) :
    bs.Subperm (blocksOfEach (values.drop i)) := by
  induction n generalizing i bs with
  | zero =>
    obtain rfl := Except.ok.inj hloop
    exact List.nil_subperm
  | succ n ih =>
    rw [releaseLoop, List.getElem?_map] at hloop
    have hblocks : blocksOfEach (values.drop i) =
        (values[i]?.getD .indeterminate).blocks ++ blocksOfEach (values.drop (i + 1)) := by
      rw [← List.tail_drop, ← List.head?_drop]
      cases values.drop i <;> rfl
    cases hs : subtype[if isTuple then i else 0]? with
    | none =>
      rw [hs] at hloop
      cases hloop
    | some s =>
      rw [hs] at hloop
      obtain ⟨bs₁, hfirst, hloop⟩ := bind_eq_ok.mp hloop
      obtain ⟨bs₂, hrest, hloop⟩ := bind_eq_ok.mp hloop
      obtain rfl := Except.ok.inj hloop
      rw [hblocks]
      exact (h s (List.mem_of_getElem? hs) _ _ hfirst).append (ih hrest)

/-- Nothing, what one pointer leads to, or the elements of an array and the array, or what is released
where there is no array. -/
theorem releaseBlocks_cases {info : TypeNode} {subtype : List AdiakDatatype} {v : BlockValue}
    {bs : List Nat} (h : releaseBlocks (.node info subtype) v = .ok bs) :
    bs = [] ∨ freeBlock v = .ok bs ∨ ∃ values bs₁ bs₂,
      releaseLoop (releasers subtype) (info.dtype = .tuple) values info.numElements.toNat 0 = .ok bs₁ ∧
      bs = bs₁ ++ bs₂ ∧ ((∃ block, v = .vSubval block values ∧ bs₂ = block.toList) ∨
        values = [] ∧ freeBlock v = .ok bs₂) := by
  unfold releaseBlocks at h
  by_cases href : info.isReference = true
  · rw [if_pos href] at h
    exact .inl (Except.ok.inj h).symm
  rw [if_neg href] at h
  cases hd : info.dtype
  case timeval | version | string | catstring | jsonstring | path =>
    simp only [hd] at h
    exact .inr (.inl h)
  case range | set | list | tuple =>
    simp only [hd] at h
    cases v with
    | vSubval block values =>
      obtain ⟨bs₁, hloop, h⟩ := bind_eq_ok.mp h
      exact .inr (.inr ⟨values, bs₁, _, hloop, (Except.ok.inj h).symm, .inl ⟨block, rfl, rfl⟩⟩)
    | _ =>
      obtain ⟨bs₁, hloop, h⟩ := bind_eq_ok.mp h
      obtain ⟨bs₂, hfree, h⟩ := bind_eq_ok.mp h
      exact .inr (.inr ⟨[], bs₁, bs₂, hloop, (Except.ok.inj h).symm, .inr ⟨rfl, hfree⟩⟩)
  all_goals
    simp only [hd] at h
    exact .inl (Except.ok.inj h).symm

/-- What is released of a value are blocks of the value, each at most once. -/
theorem releaseBlocks_subperm {t : AdiakDatatype} {v : BlockValue} {bs : List Nat}
    (h : releaseBlocks t v = .ok bs) : bs.Subperm v.blocks := by
  induction t generalizing v bs with
  | null => cases h
  | node info subtype ih =>
    rcases releaseBlocks_cases h with rfl | hfree | ⟨values, bs₁, bs₂, hloop, rfl, harray⟩
    · exact List.nil_subperm
    · exact freeBlock_subperm hfree
    · rw [releasers_eq_map] at hloop
      have hsub := releaseLoop_subperm (fun s hs v bs => ih s hs) hloop
      rcases harray with ⟨block, rfl, rfl⟩ | ⟨rfl, hfree⟩
      · exact List.perm_append_comm.subperm.trans ((List.subperm_append_left _).mpr hsub)
      · obtain rfl : bs₁ = [] := List.subperm_nil.mp hsub
        exact freeBlock_subperm hfree

theorem releaseEach_subperm {us : List TypeTree} {vs : List BlockValue} {bs : List Nat}
    (h : releaseEach us vs = .ok bs) : bs.Subperm (blocksOfEach vs) := by
  induction us generalizing vs bs with
  | nil =>
    obtain rfl := Except.ok.inj h
    exact List.nil_subperm
  | cons u us ih =>
    obtain ⟨bs₁, hfirst, h⟩ := bind_eq_ok.mp h
    obtain ⟨bs₂, hrest, h⟩ := bind_eq_ok.mp h
    obtain rfl := Except.ok.inj h
    rw [blocksOfEach_eq]
    exact (releaseBlocks_subperm hfirst).append (ih hrest)

/-! ## Releasing everything -/

/-- Two parts that make up the whole are whole themselves. -/
theorem subperm_append_perm {l₁ l₂ m₁ m₂ : List Nat} (h₁ : l₁.Subperm m₁) (h₂ : l₂.Subperm m₂) :
    (l₁ ++ l₂).Perm (m₁ ++ m₂) ↔ l₁.Perm m₁ ∧ l₂.Perm m₂ := by
  constructor
  · intro h
    have hlen := h.length_eq
    rw [List.length_append, List.length_append] at hlen
    have hle₁ := h₁.length_le
    have hle₂ := h₂.length_le
    exact ⟨h₁.perm_of_length_le (by omega), h₂.perm_of_length_le (by omega)⟩
  · rintro ⟨h₁, h₂⟩
    exact h₁.append h₂

/-- The elements release all their blocks, and those behind the last type have none. -/
def ReleasesEach : List TypeTree → List BlockValue → Prop
  | [], vs => ∀ v ∈ vs, v.blocks = []
  | u :: us, vs => Releases u.datatype (vs.headD .indeterminate) (vs.headD .indeterminate).blocks ∧
      ReleasesEach us vs.tail

theorem releasesEach_iff {us : List TypeTree} {vs : List BlockValue} :
    (∃ bs, releaseEach us vs = .ok bs ∧ bs.Perm (blocksOfEach vs)) ↔ ReleasesEach us vs := by
  induction us generalizing vs with
  | nil =>
    rw [ReleasesEach, ← blocksOfEach_eq_nil]
    constructor
    · rintro ⟨bs, hbs, hperm⟩
      obtain rfl := Except.ok.inj hbs
      exact hperm.nil_eq.symm
    · intro h
      exact ⟨[], rfl, by rw [h]⟩
  | cons u us ih =>
    rw [ReleasesEach, ← ih, blocksOfEach_eq vs]
    constructor
    · rintro ⟨bs, hbs, hperm⟩
      obtain ⟨bs₁, hfirst, hbs⟩ := bind_eq_ok.mp hbs
      obtain ⟨bs₂, hrest, hbs⟩ := bind_eq_ok.mp hbs
      obtain rfl := Except.ok.inj hbs
      obtain ⟨h₁, h₂⟩ :=
        (subperm_append_perm (releaseBlocks_subperm hfirst) (releaseEach_subperm hrest)).mp hperm
      exact ⟨⟨bs₁, hfirst, h₁⟩, bs₂, hrest, h₂⟩
    · rintro ⟨⟨bs₁, hfirst, h₁⟩, bs₂, hrest, h₂⟩
      refine ⟨bs₁ ++ bs₂, ?_, h₁.append h₂⟩
      rw [releaseEach, hfirst, ok_bind, hrest, ok_bind]

/-- A container with an array releases what its elements lead to and the array. -/
theorem releases_container_iff {t : TypeTree} {ts : List TypeTree}
    (hc : t.container = some (false, ts)) (b : Nat) (vs : List BlockValue) :
    Releases t.datatype (.vSubval (some b) vs) (BlockValue.vSubval (some b) vs).blocks ↔
      ReleasesEach ts vs := by
  obtain ⟨hbase, n, subs, hn, -, hdatatype, hsubs⟩ := datatype_shape hc
  have hloop : releaseLoop (releasers subs) (decide (t.dtype = .tuple)) vs ts.length 0 =
      releaseEach ts vs := by
    rw [releasers_eq_map]
    refine releaseLoop_eq ?_ List.drop_zero
    have h := indexes_container (f := releaseBlocks) hsubs
    rwa [ite_self]
  have hrelease : releaseBlocks t.datatype (.vSubval (some b) vs) =
      releaseEach ts vs >>= fun bs => .ok (bs ++ [b]) := by
    have hnum : (containerNode t.dtype false n).numElements.toNat = ts.length := hn
    have hdtype : (containerNode t.dtype false n).dtype = t.dtype := rfl
    rw [hdatatype, releaseBlocks_container subs (some b) vs hbase rfl, hnum, hdtype, hloop]
    rfl
  unfold Releases
  rw [hrelease, ← releasesEach_iff]
  have hcomm : ∀ bs, (bs ++ [b]).Perm (b :: blocksOfEach vs) ↔ bs.Perm (blocksOfEach vs) := by
    intro bs
    have hswap : (bs ++ [b]).Perm (b :: bs) := List.perm_append_comm
    exact ⟨fun h => (hswap.symm.trans h).cons_inv, fun h => hswap.trans (h.cons b)⟩
  constructor
  · rintro ⟨bs, hbs, hperm⟩
    obtain ⟨bs', hbs', hbs⟩ := bind_eq_ok.mp hbs
    obtain rfl := Except.ok.inj hbs
    exact ⟨bs', hbs', (hcomm bs').mp hperm⟩
  · rintro ⟨bs, hbs, hperm⟩
    refine ⟨bs ++ [b], ?_, (hcomm bs).mpr hperm⟩
    rw [hbs, ok_bind]

/-- A copied container that was not written cannot be released. -/
theorem not_releases_container {t : TypeTree} {ts : List TypeTree}
    (hc : t.container = some (false, ts)) (ns : List Nat) : ¬ Releases t.datatype .indeterminate ns := by
  rintro ⟨bs, hbs, -⟩
  obtain ⟨hbase, n, subs, -, -, hdatatype, -⟩ := datatype_shape hc
  have hfail : freeAdiakValueWorker t.datatype .indeterminate = false := by
    rw [hdatatype]
    generalize t.dtype = d at hbase
    cases d <;> first
      | exact absurd hbase (by decide)
      | exact Bool.and_false _
  have hok := releaseBlocks_isOk t.datatype .indeterminate
  rw [hbs, BlockValue.erase, hfail] at hok
  cases hok

/-- The `numerical` of a node plays no part. -/
theorem releaseBlocks_numerical (info : TypeNode) (numerical : AdiakNumerical)
    (subtype : List AdiakDatatype) (v : BlockValue) :
    releaseBlocks (.node { info with numerical } subtype) v = releaseBlocks (.node info subtype) v := by
  unfold releaseBlocks
  rfl

end Adiak
