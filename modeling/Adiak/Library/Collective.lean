import Mathlib.Data.List.Basic
import Mathlib.Algebra.Order.Ring.Int

/-!
# Collective operations

A group of processes is the list of its members, and the rank of a member is its position in it. All
members take part in a collective operation, each with a value of its own.

1. `split` makes a group of the members with one color, ordered by key, `bcast` hands out the value of
   the first member, `land` and `maximum` combine the values, `gather` puts them one behind another.
2. Of a group that is ordered by key, `split` keeps the order (`split_eq`), and rank `0` is the member
   with the lowest key (`rank_eq_zero_iff`).
3. Values of one length are found in slots of that length (`gather_slot`).
-/

namespace Collective

variable {ρ κ α β : Type} [DecidableEq κ]

/-- The group of the member `r` after a split. -/
def split (group : List ρ) (color : ρ → κ) (key : ρ → Int) (r : ρ) : List ρ :=
  (group.filter fun r' => color r' = color r).mergeSort fun a b => key a ≤ key b

/-- The rank of a member. -/
def rank [DecidableEq ρ] (group : List ρ) (r : ρ) : Nat := group.idxOf r

/-- The value of rank `0`. -/
def bcast (group : List ρ) (value : ρ → α) : Option α := group.head?.map value

/-- Whether all values are true. -/
def land (group : List ρ) (value : ρ → Bool) : Bool := group.all value

/-- The largest value. -/
def maximum (group : List ρ) (value : ρ → Nat) : Nat := (group.map value).foldr max 0

/-- The values one behind another. -/
def gather (group : List ρ) (value : ρ → List β) : List β := group.flatMap value

/-! ## Splitting -/

/-- The members stand in the order of their keys. -/
def Ordered (key : ρ → Int) (group : List ρ) : Prop := group.Pairwise fun a b => key a < key b

theorem mem_split {group : List ρ} {color : ρ → κ} {key : ρ → Int} {r r' : ρ} :
    r' ∈ split group color key r ↔ r' ∈ group ∧ color r' = color r := by
  unfold split
  rw [List.mem_mergeSort, List.mem_filter, decide_eq_true_eq]

/-- Members with one color get one group. -/
theorem split_congr {group : List ρ} {color : ρ → κ} {key : ρ → Int} {r r' : ρ}
    (h : color r' = color r) : split group color key r' = split group color key r := by
  unfold split
  rw [h]

theorem split_eq {group : List ρ} {key : ρ → Int} (h : Ordered key group) (color : ρ → κ) (r : ρ) :
    split group color key r = group.filter fun r' => color r' = color r := by
  unfold split
  refine List.mergeSort_of_pairwise ((h.filter _).imp fun hab => ?_)
  exact decide_eq_true (Int.le_of_lt hab)

theorem Ordered.split {group : List ρ} {key : ρ → Int} (h : Ordered key group) (color : ρ → κ)
    (r : ρ) : Ordered key (split group color key r) := by
  rw [split_eq h]
  exact h.filter _

/-! ## Ranks -/

/-- The root of an ordered group has the lowest key. -/
theorem Ordered.exists_root {group : List ρ} {key : ρ → Int} (h : Ordered key group) {r : ρ}
    (hr : r ∈ group) :
    ∃ root ∈ group, group.head? = some root ∧ ∀ r' ∈ group, key root ≤ key r' := by
  cases group with
  | nil => cases hr
  | cons root group =>
    refine ⟨root, List.mem_cons_self, rfl, fun r' hr' => ?_⟩
    rcases List.mem_cons.mp hr' with rfl | hr'
    · exact le_rfl
    · exact Int.le_of_lt ((List.pairwise_cons.mp h).1 r' hr')

theorem rank_eq_zero_iff [DecidableEq ρ] {group : List ρ} {key : ρ → Int} (h : Ordered key group) {r : ρ}
    (hr : r ∈ group) : rank group r = 0 ↔ ∀ r' ∈ group, key r ≤ key r' := by
  cases group with
  | nil => cases hr
  | cons root group =>
    have hroot := (List.pairwise_cons.mp h).1
    unfold rank
    by_cases heq : root = r
    · obtain rfl := heq
      rw [List.idxOf_cons_self]
      refine iff_of_true rfl fun r' hr' => ?_
      rcases List.mem_cons.mp hr' with rfl | hr'
      · exact le_rfl
      · exact Int.le_of_lt (hroot r' hr')
    · rw [List.idxOf_cons_ne _ heq]
      refine iff_of_false (Nat.succ_ne_zero _) fun hle => ?_
      have hlt := hroot r ((List.mem_cons.mp hr).resolve_left fun h => heq h.symm)
      exact absurd (hle root List.mem_cons_self) (not_le.mpr hlt)

theorem bcast_of_head {group : List ρ} {root : ρ} (h : group.head? = some root) (value : ρ → α) :
    bcast group value = some (value root) := by
  unfold bcast
  rw [h]
  rfl

/-! ## Combining values -/

theorem gather_congr {group : List ρ} {value value' : ρ → List β}
    (h : ∀ r ∈ group, value r = value' r) : gather group value = gather group value' := by
  unfold gather
  rw [List.flatMap_def, List.flatMap_def, List.map_congr_left h]

theorem le_maximum {group : List ρ} (value : ρ → Nat) {r : ρ} (hr : r ∈ group) :
    value r ≤ maximum group value := by
  unfold maximum
  induction group with
  | nil => cases hr
  | cons root group ih =>
    rw [List.map_cons, List.foldr_cons]
    rcases List.mem_cons.mp hr with rfl | hr
    · exact Nat.le_max_left _ _
    · exact (ih hr).trans (Nat.le_max_right _ _)

theorem maximum_le {group : List ρ} {value : ρ → Nat} {b : Nat} (h : ∀ r ∈ group, value r ≤ b) :
    maximum group value ≤ b := by
  unfold maximum
  induction group with
  | nil => exact Nat.zero_le b
  | cons root group ih =>
    rw [List.map_cons, List.foldr_cons]
    exact Nat.max_le.mpr ⟨h root List.mem_cons_self, ih fun r hr => h r (List.mem_cons_of_mem root hr)⟩

theorem length_gather {group : List ρ} {value : ρ → List β} {w : Nat}
    (h : ∀ r ∈ group, (value r).length = w) : (gather group value).length = group.length * w := by
  unfold gather
  induction group with
  | nil => rw [List.flatMap_nil, List.length_nil, List.length_nil, Nat.zero_mul]
  | cons root group ih =>
    rw [List.flatMap_cons, List.length_append, h root List.mem_cons_self,
      ih fun r hr => h r (List.mem_cons_of_mem root hr), List.length_cons, Nat.succ_mul, Nat.add_comm]

/-- The value of the rank `i` is in the slot `i`. -/
theorem gather_slot {group : List ρ} {value : ρ → List β} {w : Nat}
    (h : ∀ r ∈ group, (value r).length = w) {i : Nat} (hi : i < group.length) :
    ((gather group value).drop (i * w)).take w = value group[i] := by
  unfold gather
  induction group generalizing i with
  | nil => cases hi
  | cons root group ih =>
    have hroot := h root List.mem_cons_self
    have htail : ∀ r ∈ group, (value r).length = w := fun r hr => h r (List.mem_cons_of_mem root hr)
    rw [List.flatMap_cons]
    cases i with
    | zero =>
      rw [Nat.zero_mul, List.drop_zero, List.take_append_of_le_length (Nat.le_of_eq hroot.symm),
        List.take_of_length_le (Nat.le_of_eq hroot), List.getElem_cons_zero]
    | succ i =>
      have hdrop : (i + 1) * w = (value root).length + i * w := by rw [hroot, Nat.succ_mul, Nat.add_comm]
      rw [hdrop, List.drop_append, List.drop_eq_nil_of_le (Nat.le_add_right _ _), List.nil_append,
        Nat.add_sub_cancel_left, List.getElem_cons_succ]
      exact ih htail (Nat.lt_of_succ_lt_succ hi)

end Collective
