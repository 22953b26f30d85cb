import Mathlib.Algebra.BigOperators.Group.List.Basic
import Mathlib.Algebra.Order.BigOperators.Group.List
import Mathlib.Algebra.Order.Ring.Int

/-!
# Packed records

Fields that lie in memory one behind another, without gaps.

1. `span` is the size of the fields together, `offset` the place of one of them.
2. `readAll` reads the fields in order, and `readAll_get` finds what it read at the offsets.
-/

namespace Packed

variable {ε α β : Type}

/-- A field: its size, and how it is read at an address. -/
structure Field (ε α : Type) where
  size : Int
  read : Int → Except ε α

/-- The size of the fields together. -/
def span (fs : List (Field ε α)) : Int := (fs.map Field.size).sum

/-- The place of the field `i`. -/
def offset (fs : List (Field ε α)) (i : Nat) : Int := span (fs.take i)

/-- The fields read one behind another. -/
def readAll : List (Field ε α) → Int → Except ε (List α)
  | [], _ => .ok []
  | f :: fs, p =>
    match f.read p with
    | .error e => .error e
    | .ok x =>
      match readAll fs (p + f.size) with
      | .error e => .error e
      | .ok xs => .ok (x :: xs)

/-! ## Offsets -/

theorem span_nil : span ([] : List (Field ε α)) = 0 := rfl

theorem span_cons (f : Field ε α) (fs : List (Field ε α)) : span (f :: fs) = f.size + span fs := by
  unfold span
  rw [List.map_cons, List.sum_cons]

theorem offset_zero (fs : List (Field ε α)) : offset fs 0 = 0 := by
  unfold offset
  rw [List.take_zero, span_nil]

theorem offset_cons_succ (f : Field ε α) (fs : List (Field ε α)) (i : Nat) :
    offset (f :: fs) (i + 1) = f.size + offset fs i := by
  unfold offset
  rw [List.take_succ_cons, span_cons]

theorem span_replicate (n : Nat) (f : Field ε α) : span (List.replicate n f) = n * f.size := by
  unfold span
  rw [List.map_replicate, List.sum_replicate, nsmul_eq_mul]

theorem offset_replicate {n i : Nat} (hi : i ≤ n) (f : Field ε α) :
    offset (List.replicate n f) i = i * f.size := by
  unfold offset
  rw [List.take_replicate, Nat.min_eq_left hi, span_replicate]

/-- Fields of one size lie like an array. -/
theorem offset_of_size {s : Int} {fs : List (Field ε α)} (hs : ∀ f ∈ fs, f.size = s) {i : Nat}
    (hi : i ≤ fs.length) : offset fs i = i * s := by
  induction fs generalizing i with
  | nil =>
    obtain rfl := Nat.le_zero.mp hi
    rw [offset_zero, Nat.cast_zero, Int.zero_mul]
  | cons f fs ih =>
    cases i with
    | zero => rw [offset_zero, Nat.cast_zero, Int.zero_mul]
    | succ i =>
      rw [offset_cons_succ, hs f List.mem_cons_self,
        ih (fun g hg => hs g (List.mem_cons_of_mem f hg)) (Nat.le_of_succ_le_succ hi), Nat.cast_succ,
        Int.add_mul, Int.one_mul, Int.add_comm]

section Nonneg

variable {fs : List (Field ε α)} (hsize : ∀ f ∈ fs, 0 ≤ f.size)
include hsize

theorem span_nonneg : 0 ≤ span fs := by
  refine List.sum_nonneg fun x hx => ?_
  obtain ⟨f, hf, rfl⟩ := List.mem_map.mp hx
  exact hsize f hf

theorem offset_nonneg (i : Nat) : 0 ≤ offset fs i :=
  span_nonneg fun f hf => hsize f (List.mem_of_mem_take hf)

/-- A field ends before the record does. -/
theorem offset_add_size_le {i : Nat} (hi : i < fs.length) : offset fs i + fs[i].size ≤ span fs := by
  induction fs generalizing i with
  | nil => exact absurd hi (Nat.not_lt_zero i)
  | cons f fs ih =>
    have htail : ∀ f' ∈ fs, 0 ≤ f'.size := fun f' hf' => hsize f' (List.mem_cons_of_mem f hf')
    rw [span_cons]
    cases i with
    | zero =>
      have hspan := span_nonneg htail
      rw [offset_zero]
      show 0 + f.size ≤ f.size + span fs
      omega
    | succ i =>
      have hi' : i < fs.length := Nat.lt_of_succ_lt_succ hi
      have h := ih htail hi'
      rw [offset_cons_succ]
      show f.size + offset fs i + fs[i].size ≤ f.size + span fs
      omega

/-- No field is larger than the record. -/
theorem size_le_span {f : Field ε α} (hf : f ∈ fs) : f.size ≤ span fs := by
  refine List.single_le_sum (fun x hx => ?_) f.size (List.mem_map_of_mem hf)
  obtain ⟨g, hg, rfl⟩ := List.mem_map.mp hx
  exact hsize g hg

end Nonneg

/-! ## Reading -/

theorem readAll_cons_eq_ok {f : Field ε α} {fs : List (Field ε α)} {p : Int} {xs : List α} :
    readAll (f :: fs) p = .ok xs ↔
      ∃ y ys, f.read p = .ok y ∧ readAll fs (p + f.size) = .ok ys ∧ xs = y :: ys := by
  rw [readAll]
  cases hf : f.read p with
  | error e => simp
  | ok y =>
    cases hfs : readAll fs (p + f.size) with
    | error e => simp
    | ok ys => simp [eq_comm]

theorem length_readAll {fs : List (Field ε α)} {p : Int} {xs : List α}
    (h : readAll fs p = .ok xs) : xs.length = fs.length := by
  induction fs generalizing p xs with
  | nil =>
    obtain rfl := Except.ok.inj h
    rfl
  | cons f fs ih =>
    obtain ⟨y, ys, -, hys, rfl⟩ := readAll_cons_eq_ok.mp h
    rw [List.length_cons, List.length_cons, ih hys]

/-- Each field is read at its offset. -/
theorem readAll_get {fs : List (Field ε α)} {p : Int} {xs : List α} (h : readAll fs p = .ok xs)
    {i : Nat} (hi : i < fs.length) (hi' : i < xs.length) :
    fs[i].read (p + offset fs i) = .ok xs[i] := by
  induction fs generalizing p xs i with
  | nil => exact absurd hi (Nat.not_lt_zero i)
  | cons f fs ih =>
    obtain ⟨y, ys, hy, hys, rfl⟩ := readAll_cons_eq_ok.mp h
    cases i with
    | zero =>
      rw [offset_zero, Int.add_zero]
      exact hy
    | succ i =>
      have htail := ih hys (Nat.lt_of_succ_lt_succ hi) (Nat.lt_of_succ_lt_succ hi')
      rw [offset_cons_succ, ← Int.add_assoc]
      exact htail

/-- Fields that can all be read at their offsets are read one behind another. -/
theorem exists_readAll {fs : List (Field ε α)} {p : Int}
    (h : ∀ i (hi : i < fs.length), ∃ x, fs[i].read (p + offset fs i) = .ok x) :
    ∃ xs, readAll fs p = .ok xs := by
  induction fs generalizing p with
  | nil => exact ⟨[], rfl⟩
  | cons f fs ih =>
    obtain ⟨y, hy⟩ := h 0 (Nat.succ_pos _)
    rw [offset_zero, Int.add_zero] at hy
    have htail : ∀ i (hi : i < fs.length), ∃ x, fs[i].read (p + f.size + offset fs i) = .ok x := by
      intro i hi
      obtain ⟨x, hx⟩ := h (i + 1) (Nat.succ_lt_succ hi)
      rw [offset_cons_succ, ← Int.add_assoc] at hx
      exact ⟨x, hx⟩
    obtain ⟨ys, hys⟩ := ih htail
    exact ⟨y :: ys, readAll_cons_eq_ok.mpr ⟨y, ys, hy, hys, rfl⟩⟩

/-- The fields in front of one. -/
theorem readAll_take {fs : List (Field ε α)} {p : Int} {xs : List α} (h : readAll fs p = .ok xs)
    (i : Nat) : readAll (fs.take i) p = .ok (xs.take i) := by
  induction fs generalizing p xs i with
  | nil =>
    obtain rfl := Except.ok.inj h
    rw [List.take_nil, List.take_nil]
    rfl
  | cons f fs ih =>
    obtain ⟨y, ys, hy, hys, rfl⟩ := readAll_cons_eq_ok.mp h
    cases i with
    | zero => rfl
    | succ i => exact readAll_cons_eq_ok.mpr ⟨y, ys.take i, hy, ih hys i, rfl⟩

/-- Reading one behind another is reading each field at its offset. -/
theorem readAll_eq_ok {fs : List (Field ε α)} {p : Int} {xs : List α} :
    readAll fs p = .ok xs ↔ xs.length = fs.length ∧
      ∀ i (hi : i < fs.length) (hx : i < xs.length), fs[i].read (p + offset fs i) = .ok xs[i] := by
  constructor
  · intro h
    exact ⟨length_readAll h, fun i hi hx => readAll_get h hi hx⟩
  · rintro ⟨hlen, hget⟩
    obtain ⟨ys, hys⟩ := exists_readAll fun i hi => by
      have hx : i < xs.length := hlen ▸ hi
      exact ⟨xs[i], hget i hi hx⟩
    obtain rfl : ys = xs := by
      refine List.ext_getElem ((length_readAll hys).trans hlen.symm) fun i hy hx => ?_
      have hi : i < fs.length := hlen ▸ hx
      exact Except.ok.inj ((readAll_get hys hi hy).symm.trans (hget i hi hx))
    exact hys

end Packed
