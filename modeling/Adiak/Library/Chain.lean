import Mathlib.Data.List.Nodup
import Mathlib.Data.List.Perm.Subperm

/-!
# Linked lists in a memory of nodes

A memory maps addresses to nodes, and a field of the node, `next`, links a node to another one.

1. `Linked` says that following `next` from a head visits given addresses and ends in `NULL`.
2. `search` and `traverse` are the two loops over such a list, bounded by fuel.
3. On a linked list both loops end within as many rounds as there are nodes (`search_eq`,
   `traverse_eq`), and writes that keep the links of the visited nodes keep the list
   (`Linked.congr`).
-/

namespace Chain

variable {ι ρ ε : Type}

/-- Following `next` from `head` visits exactly the addresses of the list, in order. -/
inductive Linked (next : ρ → Option ι) (mem : ι → Option ρ) : Option ι → List ι → Prop
  | nil : Linked next mem none []
  | cons {p : ι} {r : ρ} {ps : List ι} (hmem : mem p = some r) (htail : Linked next mem (next r) ps) :
    Linked next mem (some p) (p :: ps)

namespace Linked

variable {next : ρ → Option ι} {mem mem' : ι → Option ρ} {head : Option ι} {ps qs : List ι}

/-- A head determines the list. -/
theorem unique (h : Linked next mem head ps) (h' : Linked next mem head qs) : ps = qs := by
  induction h generalizing qs with
  | nil => cases h'; rfl
  | cons hmem _ ih =>
    cases h' with
    | cons hmem' htail' =>
      obtain rfl := Option.some.inj (hmem.symm.trans hmem')
      rw [ih htail']

/-- A visited address is the head of a shorter list. -/
theorem suffix (h : Linked next mem head ps) {p : ι} (hp : p ∈ ps) :
    ∃ qs, Linked next mem (some p) qs ∧ qs.length ≤ ps.length := by
  induction h with
  | nil => cases hp
  | cons hmem htail ih =>
    rcases List.mem_cons.mp hp with rfl | hp
    · exact ⟨_, .cons hmem htail, Nat.le_refl _⟩
    · obtain ⟨qs, hqs, hlen⟩ := ih hp
      exact ⟨qs, hqs, Nat.le_succ_of_le hlen⟩

/-- A list that ends does not come back to an address. -/
theorem nodup (h : Linked next mem head ps) : ps.Nodup := by
  induction h with
  | nil => exact List.nodup_nil
  | cons hmem htail ih =>
    refine List.nodup_cons.mpr ⟨fun hp => ?_, ih⟩
    obtain ⟨qs, hqs, hlen⟩ := htail.suffix hp
    rw [hqs.unique (.cons hmem htail), List.length_cons] at hlen
    omega

/-- Writes that keep the links of the visited nodes keep the list. -/
theorem congr (h : Linked next mem head ps)
    (hlinks : ∀ p ∈ ps, (mem' p).map next = (mem p).map next) : Linked next mem' head ps := by
  induction h with
  | nil => exact .nil
  | @cons p r ps hmem htail ih =>
    have hp := hlinks p List.mem_cons_self
    rw [hmem, Option.map_some, Option.map_eq_some_iff] at hp
    obtain ⟨r', hmem', hnext⟩ := hp
    refine .cons hmem' ?_
    rw [hnext]
    exact ih fun q hq => hlinks q (List.mem_cons_of_mem p hq)

/-- A bound on the addresses bounds the length. -/
theorem length_le {next : ρ → Option Nat} {mem : Nat → Option ρ} {head : Option Nat} {ps : List Nat}
    (h : Linked next mem head ps) {n : Nat} (hps : ∀ p ∈ ps, p < n) : ps.length ≤ n := by
  have hsub : ps ⊆ List.range n := fun p hp => List.mem_range.mpr (hps p hp)
  simpa using (h.nodup.subperm hsub).length_le

end Linked

/-! ## Loops -/

section Loops

variable (dangling exhausted : ε) (next : ρ → Option ι) (mem : ι → Option ρ)

/-- The address of the first node that passes a test. -/
def search (test : ρ → Bool) : Nat → Option ι → Except ε (Option ι)
  | _, none => .ok none
  | 0, some _ => .error exhausted
  | fuel + 1, some p =>
    match mem p with
    | none => .error dangling
    | some r => if test r then .ok (some p) else search test fuel (next r)

/-- The nodes of the list. -/
def traverse : Nat → Option ι → Except ε (List (ι × ρ))
  | _, none => .ok []
  | 0, some _ => .error exhausted
  | fuel + 1, some p =>
    match mem p with
    | none => .error dangling
    | some r =>
      match traverse fuel (next r) with
      | .error e => .error e
      | .ok rs => .ok ((p, r) :: rs)

variable {dangling exhausted next mem} {head : Option ι} {ps : List ι} {fuel : Nat}

theorem search_eq (h : Linked next mem head ps) (hfuel : ps.length ≤ fuel) (test : ρ → Bool) :
    search dangling exhausted next mem test fuel head =
      .ok (ps.find? fun p => (mem p).any test) := by
  induction h generalizing fuel with
  | nil => cases fuel <;> rfl
  | @cons p r ps hmem _ ih =>
    obtain ⟨fuel, rfl⟩ : ∃ n, fuel = n + 1 := ⟨fuel - 1, by simp at hfuel; omega⟩
    rw [search, hmem, List.find?_cons, hmem]
    cases htest : test r with
    | true => simp [htest]
    | false => simpa [htest] using ih (by simpa using hfuel)

theorem traverse_eq (h : Linked next mem head ps) (hfuel : ps.length ≤ fuel) :
    traverse dangling exhausted next mem fuel head =
      .ok (ps.filterMap fun p => (mem p).map (p, ·)) := by
  induction h generalizing fuel with
  | nil => cases fuel <;> rfl
  | @cons p r ps hmem _ ih =>
    obtain ⟨fuel, rfl⟩ : ∃ n, fuel = n + 1 := ⟨fuel - 1, by simp at hfuel; omega⟩
    simp only [traverse, hmem, ih (Nat.le_of_succ_le_succ hfuel), List.filterMap_cons,
      Option.map_some]

end Loops

end Chain
