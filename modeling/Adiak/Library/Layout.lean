import Mathlib.Algebra.Order.Ring.Int
import Mathlib.Algebra.Order.BigOperators.Group.List
import Mathlib.Tactic.Ring

/-!
# Records with natural alignment

Members that are put into memory one behind another, each at a multiple of its alignment.

1. `roundUp` is the next multiple of an alignment.
2. `place` and `fill` put the members from a start on: where each of them lies and where the last
   one ends. `size` rounds the end up to the largest alignment.
3. `Tight`: without gaps, every member begins and all but the last end where the next one may begin.
   Exactly then the members lie where they lie without gaps (`place_eq_iff`).
-/

namespace Layout

/-! ## Rounding -/

/-- The next multiple of `a` from `x` on. -/
def roundUp (x a : Int) : Int := x + -x % a

theorem le_roundUp (x : Int) {a : Int} (ha : 0 < a) : x ≤ roundUp x a := by
  have hmod := Int.emod_nonneg (-x) ha.ne'
  unfold roundUp
  omega

theorem dvd_roundUp (x a : Int) : a ∣ roundUp x a := by
  have hdvd : a ∣ -x - -x % a := Int.dvd_self_sub_emod
  rw [← Int.dvd_neg] at hdvd
  unfold roundUp
  rwa [show x + -x % a = -(-x - -x % a) by ring]

theorem roundUp_of_dvd {x a : Int} (h : a ∣ x) : roundUp x a = x := by
  unfold roundUp
  rw [Int.emod_eq_zero_of_dvd (Int.dvd_neg.mpr h), Int.add_zero]

/-! ## Members -/

/-- A member: its size and its alignment. -/
structure Member where
  size : Int
  align : Int

/-- The place of the member `i`, with the members put from `start` on. -/
def place : List Member → Int → Nat → Int
  | [], start, _ => start
  | m :: _, start, 0 => roundUp start m.align
  | m :: ms, start, i + 1 => place ms (roundUp start m.align + m.size) i

/-- The end of the last member. -/
def fill : List Member → Int → Int
  | [], start => start
  | m :: ms, start => fill ms (roundUp start m.align + m.size)

/-- The alignment of the record. -/
def align (ms : List Member) : Int := (ms.map Member.align).foldr max 1

/-- The size of the record. -/
def size (ms : List Member) : Int := roundUp (fill ms 0) (align ms)

/-! ## Alignments -/

theorem align_cons (m : Member) (ms : List Member) : align (m :: ms) = max m.align (align ms) := rfl

/-- Alignments that are powers of two divide the alignment of the record, which is one too. -/
theorem align_of_pow {ms : List Member} (h : ∀ m ∈ ms, ∃ e : Nat, m.align = 2 ^ e) :
    (∃ e : Nat, align ms = 2 ^ e) ∧ ∀ m ∈ ms, m.align ∣ align ms := by
  induction ms with
  | nil => exact ⟨⟨0, rfl⟩, fun m hm => absurd hm List.not_mem_nil⟩
  | cons m ms ih =>
    obtain ⟨e, he⟩ := h m List.mem_cons_self
    obtain ⟨⟨e', he'⟩, hdvd⟩ := ih fun m' hm' => h m' (List.mem_cons_of_mem m hm')
    have hmax : align (m :: ms) = 2 ^ max e e' := by
      rw [align_cons, he, he']
      rcases Nat.le_total e e' with hle | hle
      · rw [Nat.max_eq_right hle, max_eq_right (pow_le_pow_right₀ (by decide) hle)]
      · rw [Nat.max_eq_left hle, max_eq_left (pow_le_pow_right₀ (by decide) hle)]
    refine ⟨⟨_, hmax⟩, fun m' hm' => ?_⟩
    rw [hmax]
    rcases List.mem_cons.mp hm' with rfl | hm'
    · rw [he]
      exact pow_dvd_pow 2 (Nat.le_max_left e e')
    · have hm'' := hdvd m' hm'
      rw [he'] at hm''
      exact hm''.trans (pow_dvd_pow 2 (Nat.le_max_right e e'))

/-! ## Arrays -/

/-- Equal members whose size is a multiple of their alignment lie one behind another. -/
theorem place_replicate {m : Member} (h : m.align ∣ m.size) {start : Int} (hs : m.align ∣ start)
    {n i : Nat} (hi : i < n) : place (List.replicate n m) start i = start + i * m.size := by
  induction n generalizing start i with
  | zero => exact absurd hi (Nat.not_lt_zero i)
  | succ n ih =>
    rw [List.replicate_succ]
    cases i with
    | zero => rw [place, roundUp_of_dvd hs, Nat.cast_zero, Int.zero_mul, Int.add_zero]
    | succ i =>
      rw [place, roundUp_of_dvd hs, ih (Int.dvd_add hs h) (Nat.lt_of_succ_lt_succ hi),
        Nat.cast_succ]
      ring

theorem fill_replicate {m : Member} (h : m.align ∣ m.size) {start : Int} (hs : m.align ∣ start)
    (n : Nat) : fill (List.replicate n m) start = start + n * m.size := by
  induction n generalizing start with
  | zero => simp [fill]
  | succ n ih =>
    rw [List.replicate_succ, fill, roundUp_of_dvd hs, ih (Int.dvd_add hs h), Nat.cast_succ]
    ring

/-! ## Members without gaps -/

section Tight

variable {ι : Type} (w : ι → Member) (k : ι → Int)

/-- Put one behind another from `start` on with the sizes `k`, each member begins at a multiple of its
alignment, and all but the last have a size that is a multiple of it. -/
def Tight : Int → List ι → Prop
  | _, [] => True
  | start, t :: ts =>
    (w t).align ∣ start ∧ (ts ≠ [] → (w t).align ∣ k t) ∧ Tight (start + k t) ts

variable {w k}

/-- Gaps only move the end backwards. -/
theorem le_fill {ts : List ι} (ha : ∀ t ∈ ts, 0 < (w t).align) (hk : ∀ t ∈ ts, k t ≤ (w t).size)
    (start : Int) : start + (ts.map k).sum ≤ fill (ts.map w) start := by
  induction ts generalizing start with
  | nil => simp [fill]
  | cons t ts ih =>
    have hrec := ih (fun u hu => ha u (List.mem_cons_of_mem t hu))
      (fun u hu => hk u (List.mem_cons_of_mem t hu)) (roundUp start (w t).align + (w t).size)
    have hround := le_roundUp start (ha t List.mem_cons_self)
    have hsize := hk t List.mem_cons_self
    rw [List.map_cons, List.map_cons, List.sum_cons, fill]
    omega

/-- The same for the place of a member. -/
theorem le_place {ts : List ι} (ha : ∀ t ∈ ts, 0 < (w t).align) (hk : ∀ t ∈ ts, k t ≤ (w t).size)
    (start : Int) {i : Nat} (hi : i < ts.length) :
    start + ((ts.take i).map k).sum ≤ place (ts.map w) start i := by
  induction ts generalizing start i with
  | nil => exact absurd hi (Nat.not_lt_zero i)
  | cons t ts ih =>
    have hround := le_roundUp start (ha t List.mem_cons_self)
    cases i with
    | zero => simpa [place] using hround
    | succ i =>
      have hrec := ih (fun u hu => ha u (List.mem_cons_of_mem t hu))
        (fun u hu => hk u (List.mem_cons_of_mem t hu)) (roundUp start (w t).align + (w t).size)
        (Nat.lt_of_succ_lt_succ hi)
      have hsize := hk t List.mem_cons_self
      rw [List.map_cons, List.take_succ_cons, List.map_cons, List.sum_cons, place]
      omega

/-- The members lie where they lie without gaps exactly if they are tight. A member has the size `k`
if that is a multiple of its alignment. -/
theorem place_eq_iff {ts : List ι} (ha : ∀ t ∈ ts, 0 < (w t).align)
    (hk : ∀ t ∈ ts, k t ≤ (w t).size)
    (hdense : ∀ t ∈ ts, (w t).size = k t ↔ (w t).align ∣ k t) (start : Int) :
    (∀ i < ts.length, place (ts.map w) start i = start + ((ts.take i).map k).sum) ↔
      Tight w k start ts := by
  induction ts generalizing start with
  | nil => exact iff_of_true (fun i hi => absurd hi (Nat.not_lt_zero i)) trivial
  | cons t ts ih =>
    have hat := ha t List.mem_cons_self
    have hkt := hk t List.mem_cons_self
    have hats : ∀ u ∈ ts, 0 < (w u).align := fun u hu => ha u (List.mem_cons_of_mem t hu)
    have hkts : ∀ u ∈ ts, k u ≤ (w u).size := fun u hu => hk u (List.mem_cons_of_mem t hu)
    have ih := ih hats hkts fun u hu => hdense u (List.mem_cons_of_mem t hu)
    rw [Tight, ← ih]
    constructor
    · intro h
      have hstart : roundUp start (w t).align = start := by
        simpa [place] using h 0 (Nat.succ_pos _)
      have hdvd : (w t).align ∣ start := hstart ▸ dvd_roundUp start (w t).align
      have htail : ∀ i < ts.length, place (ts.map w) (start + (w t).size) i =
          start + k t + ((ts.take i).map k).sum := by
        intro i hi
        have hi' := h (i + 1) (Nat.succ_lt_succ hi)
        rw [List.map_cons, place, hstart, List.take_succ_cons, List.map_cons, List.sum_cons] at hi'
        rw [hi', Int.add_assoc]
      -- a member that is larger than `k` pushes the next one away
      have hsize : ts ≠ [] → (w t).size = k t := by
        intro hne
        have hzero := htail 0 (List.length_pos_iff.mpr hne)
        have hle := le_place hats hkts (start + (w t).size) (List.length_pos_iff.mpr hne)
        simp only [List.take_zero, List.map_nil, List.sum_nil] at hzero hle
        omega
      refine ⟨hdvd, fun hne => (hdense t List.mem_cons_self).mp (hsize hne), fun i hi => ?_⟩
      have hne : ts ≠ [] := List.length_pos_iff.mp (Nat.lt_of_le_of_lt (Nat.zero_le i) hi)
      rw [← hsize hne]
      rw [htail i hi, hsize hne]
    · rintro ⟨hdvd, hlast, htail⟩ i hi
      rw [List.map_cons]
      cases i with
      | zero => simpa [place] using roundUp_of_dvd hdvd
      | succ i =>
        have hi' : i < ts.length := Nat.lt_of_succ_lt_succ hi
        have hne : ts ≠ [] := List.length_pos_iff.mp (Nat.lt_of_le_of_lt (Nat.zero_le i) hi')
        rw [place, roundUp_of_dvd hdvd, (hdense t List.mem_cons_self).mpr (hlast hne), htail i hi',
          List.take_succ_cons, List.map_cons, List.sum_cons, Int.add_assoc]

/-- A tight record whose size without gaps is a multiple of every alignment ends where it ends
without gaps. -/
theorem fill_eq {ts : List ι} (hdense : ∀ t ∈ ts, (w t).size = k t ↔ (w t).align ∣ k t)
    {start : Int} (h : Tight w k start ts)
    (hend : ∀ t ∈ ts, (w t).align ∣ start + (ts.map k).sum) :
    fill (ts.map w) start = start + (ts.map k).sum := by
  induction ts generalizing start with
  | nil => simp [fill]
  | cons t ts ih =>
    obtain ⟨hdvd, hlast, htail⟩ := h
    have hk : (w t).align ∣ k t := by
      by_cases hne : ts = []
      · have ht := hend t List.mem_cons_self
        rw [hne, List.map_cons, List.map_nil, List.sum_cons, List.sum_nil, Int.add_zero] at ht
        exact (Int.dvd_add_right hdvd).mp ht
      · exact hlast hne
    rw [List.map_cons, List.sum_cons, ← Int.add_assoc] at hend
    rw [List.map_cons, List.map_cons, fill, roundUp_of_dvd hdvd,
      (hdense t List.mem_cons_self).mpr hk, List.sum_cons, ← Int.add_assoc]
    exact ih (fun u hu => hdense u (List.mem_cons_of_mem t hu)) htail
      fun u hu => hend u (List.mem_cons_of_mem t hu)

end Tight

end Layout
