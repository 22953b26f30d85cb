import Mathlib.Algebra.BigOperators.Group.Finset.Basic
import Mathlib.Tactic.Abel

/-!
# Affine functions on the cube

A function on the finite subsets of `ι` is affine if each element adds its own coefficient to the value.

1. `affine_insert` and `affine_singleton` are the steps, `vanishes_iff` says when all values are zero.
2. `covers_iff`: two affine functions leave no subset on which neither is zero if one of them vanishes,
   or if they alternate with the parity of the subset.
-/

namespace Cube

open Finset

variable {ι A : Type} [AddCommGroup A]

/-- The affine function with start `a` and coefficients `c`. -/
def affine (a : A) (c : ι → A) (J : Finset ι) : A := a + ∑ j ∈ J, c j

section Values

variable {a : A} {c : ι → A}

@[simp] theorem affine_empty : affine a c ∅ = a := by
  unfold affine
  rw [sum_empty, add_zero]

theorem affine_singleton (j : ι) : affine a c {j} = a + c j := by
  unfold affine
  rw [sum_singleton]

theorem affine_add (a b : A) (c d : ι → A) (J : Finset ι) :
    affine a c J + affine b d J = affine (a + b) (fun j => c j + d j) J := by
  unfold affine
  rw [sum_add_distrib]
  abel

theorem affine_sub (a b : A) (c d : ι → A) (J : Finset ι) :
    affine a c J - affine b d J = affine (a - b) (fun j => c j - d j) J := by
  unfold affine
  rw [sum_sub_distrib]
  abel

/-- All values are zero. -/
theorem vanishes_iff : (∀ J, affine a c J = 0) ↔ a = 0 ∧ ∀ j, c j = 0 := by
  constructor
  · intro h
    have ha : a = 0 := by simpa using h ∅
    refine ⟨ha, fun j => ?_⟩
    have hj := h {j}
    rwa [affine_singleton, ha, zero_add] at hj
  · rintro ⟨rfl, hc⟩ J
    unfold affine
    rw [sum_eq_zero fun j _ => hc j, add_zero]

variable [DecidableEq ι]

theorem affine_insert {j : ι} {J : Finset ι} (hj : j ∉ J) :
    affine a c (insert j J) = affine a c J + c j := by
  unfold affine
  rw [sum_insert hj, add_assoc, add_comm (c j)]

theorem affine_pair {j k : ι} (hjk : j ≠ k) : affine a c {j, k} = a + c j + c k := by
  unfold affine
  rw [sum_pair hjk, add_assoc]

theorem affine_triple {j k l : ι} (hjk : j ≠ k) (hjl : j ≠ l) (hkl : k ≠ l) :
    affine a c {j, k, l} = a + c j + c k + c l := by
  have hj : j ∉ ({k, l} : Finset ι) := by
    rw [mem_insert, mem_singleton, not_or]
    exact ⟨hjk, hjl⟩
  rw [affine_insert hj, affine_pair hkl]
  abel

end Values

/-! ## Two functions -/

/-- The first function is zero on the subsets with an even number of its elements, the second one on the
others. -/
structure Alternates (a : A) (c : ι → A) (b : A) (d : ι → A) : Prop where
  start : a = 0
  outside : ∀ j, c j = 0 → d j = 0
  inside : ∀ j, c j ≠ 0 → d j = -b
  pair : ∀ j k, j ≠ k → c j ≠ 0 → c k ≠ 0 → c j + c k = 0
  triple : ∀ j k l, j ≠ k → j ≠ l → k ≠ l → c j ≠ 0 → c k ≠ 0 → c l ≠ 0 → b + b = 0

section Covers

variable {a b : A} {c d : ι → A}

/-- On each subset, one of the functions is zero. -/
def Covers (a : A) (c : ι → A) (b : A) (d : ι → A) : Prop :=
  ∀ J : Finset ι, affine a c J = 0 ∨ affine b d J = 0

theorem Covers.symm (h : Covers a c b d) : Covers b d a c := fun J => (h J).symm

variable [DecidableEq ι]

/-- An element that changes the first function only makes the second one vanish. -/
theorem Covers.vanishes (h : Covers a c b d) {j : ι} (hc : c j ≠ 0) (hd : d j = 0) :
    ∀ J, affine b d J = 0 := by
  have hstep : ∀ J, j ∉ J → affine b d J = 0 := by
    intro J hj
    by_contra hne
    have hzero := (h J).resolve_right hne
    have hnext : affine a c (insert j J) ≠ 0 := by
      rw [affine_insert hj, hzero, zero_add]
      exact hc
    have hsame := (h (insert j J)).resolve_left hnext
    rw [affine_insert hj, hd, add_zero] at hsame
    exact hne hsame
  intro J
  by_cases hj : j ∈ J
  · rw [← insert_erase hj, affine_insert (notMem_erase j J), hd, add_zero]
    exact hstep _ (notMem_erase j J)
  · exact hstep J hj

/-- If both change with the same elements, small subsets show that they alternate. -/
theorem Covers.alternates (h : Covers a c b d) (hstart : a = 0) (hsame : ∀ j, c j = 0 ↔ d j = 0) :
    Alternates a c b d := by
  have hinside : ∀ j, c j ≠ 0 → d j = -b := by
    intro j hj
    have hne : affine a c {j} ≠ 0 := by
      rw [affine_singleton, hstart, zero_add]
      exact hj
    have hzero := (h {j}).resolve_left hne
    rw [affine_singleton] at hzero
    exact eq_neg_of_add_eq_zero_right hzero
  have hstart' : ∀ j, c j ≠ 0 → b ≠ 0 := by
    intro j hj hb
    have hd := hinside j hj
    rw [hb, neg_zero] at hd
    exact hj ((hsame j).mpr hd)
  have hpair : ∀ j k, j ≠ k → c j ≠ 0 → c k ≠ 0 → c j + c k = 0 := by
    intro j k hjk hj hk
    have hne : affine b d {j, k} ≠ 0 := by
      rw [affine_pair hjk, hinside j hj, hinside k hk, add_neg_cancel, zero_add]
      exact neg_ne_zero.mpr (hstart' j hj)
    have hzero := (h {j, k}).resolve_right hne
    rwa [affine_pair hjk, hstart, zero_add] at hzero
  refine ⟨hstart, fun j hj => (hsame j).mp hj, hinside, hpair, ?_⟩
  intro j k l hjk hjl hkl hj hk hl
  have hne : affine a c {j, k, l} ≠ 0 := by
    rw [affine_triple hjk hjl hkl, hstart, zero_add, hpair j k hjk hj hk, zero_add]
    exact hl
  have hzero := (h {j, k, l}).resolve_left hne
  rw [affine_triple hjk hjl hkl, hinside j hj, hinside k hk, hinside l hl, add_neg_cancel, zero_add,
    ← neg_add, neg_eq_zero] at hzero
  exact hzero

/-- Three elements that count make all coefficients one element of order two. -/
theorem Alternates.order_two (h : Alternates a c b d) {J : Finset ι} (hJ : ∀ j ∈ J, c j ≠ 0)
    (hcard : 2 < J.card) : ∃ e, e + e = 0 ∧ (∀ j ∈ J, c j = e) ∧ b + b = 0 := by
  obtain ⟨j, hj, k, hk, l, hl, hjk, hjl, hkl⟩ := two_lt_card.mp hcard
  have hpair : ∀ x ∈ J, ∀ y ∈ J, x ≠ y → c x = -c y := fun x hx y hy hxy =>
    eq_neg_of_add_eq_zero_left (h.pair x y hxy (hJ x hx) (hJ y hy))
  have hsame : c k = c j := by rw [hpair k hk l hl hkl, hpair j hj l hl hjl]
  have hneg : c j = -c j := by
    conv_lhs => rw [hpair j hj k hk hjk, hsame]
  refine ⟨c j, ?_, fun x hx => ?_, h.triple j k l hjk hjl hkl (hJ j hj) (hJ k hk) (hJ l hl)⟩
  · exact eq_neg_iff_add_eq_zero.mp hneg
  · by_cases hxj : x = j
    · rw [hxj]
    · rw [hpair x hx j hj hxj, ← hneg]

/-- The values of alternating functions, by the number of the elements that count. -/
theorem Alternates.values (h : Alternates a c b d) {J : Finset ι} (hJ : ∀ j ∈ J, c j ≠ 0) :
    affine a c J = 0 ∨ affine b d J = 0 := by
  have hd : ∀ j ∈ J, d j = -b := fun j hj => h.inside j (hJ j hj)
  by_cases hcard : 2 < J.card
  · obtain ⟨e, he, hc, hb⟩ := h.order_two hJ hcard
    unfold affine
    rw [sum_eq_card_nsmul hc, sum_eq_card_nsmul hd, h.start, zero_add]
    obtain ⟨k, hk | hk⟩ : ∃ k, J.card = 2 * k ∨ J.card = 2 * k + 1 := ⟨J.card / 2, by omega⟩
    · left
      rw [hk, mul_nsmul, two_nsmul, he, nsmul_zero]
    · right
      have hneg : -b + -b = 0 := by rw [← neg_add, hb, neg_zero]
      rw [hk, succ_nsmul, mul_nsmul, two_nsmul, hneg, nsmul_zero, zero_add, add_neg_cancel]
  · obtain hzero | hone | htwo : J.card = 0 ∨ J.card = 1 ∨ J.card = 2 := by omega
    · left
      rw [card_eq_zero.mp hzero, affine_empty, h.start]
    · right
      obtain ⟨j, rfl⟩ := card_eq_one.mp hone
      rw [affine_singleton, hd j (mem_singleton_self j), add_neg_cancel]
    · left
      obtain ⟨j, k, hjk, rfl⟩ := card_eq_two.mp htwo
      rw [affine_pair hjk, h.start, zero_add]
      exact h.pair j k hjk (hJ j (mem_insert_self j _)) (hJ k (mem_insert_of_mem (mem_singleton_self k)))

theorem Alternates.covers (h : Alternates a c b d) : Covers a c b d := by
  classical
  intro J
  -- only the elements that count change the values
  have hfirst : affine a c J = affine a c (J.filter fun j => c j ≠ 0) := by
    unfold affine
    rw [sum_filter_of_ne fun j _ hne => hne]
  have hsecond : affine b d J = affine b d (J.filter fun j => c j ≠ 0) := by
    have hcount : ∀ j ∈ J, d j ≠ 0 → c j ≠ 0 := fun j _ hne hj => hne (h.outside j hj)
    unfold affine
    rw [sum_filter_of_ne hcount]
  rw [hfirst, hsecond]
  exact h.values fun j hj => (mem_filter.mp hj).2

/-- Two affine functions leave no subset on which neither is zero. -/
theorem covers_iff : Covers a c b d ↔
    (a = 0 ∧ ∀ j, c j = 0) ∨ (b = 0 ∧ ∀ j, d j = 0) ∨ Alternates a c b d ∨ Alternates b d a c := by
  constructor
  · intro h
    by_cases hfirst : ∀ J, affine a c J = 0
    · exact .inl (vanishes_iff.mp hfirst)
    by_cases hsecond : ∀ J, affine b d J = 0
    · exact .inr (.inl (vanishes_iff.mp hsecond))
    have hsame : ∀ j, c j = 0 ↔ d j = 0 := fun j =>
      ⟨fun hc => by_contra fun hd => hfirst (h.symm.vanishes hd hc),
        fun hd => by_contra fun hc => hsecond (h.vanishes hc hd)⟩
    refine .inr (.inr ?_)
    rcases h ∅ with hzero | hzero
    · rw [affine_empty] at hzero
      exact .inl (h.alternates hzero hsame)
    · rw [affine_empty] at hzero
      exact .inr (h.symm.alternates hzero fun j => (hsame j).symm)
  · rintro (hvanish | hvanish | halt | halt)
    · exact fun J => .inl (vanishes_iff.mpr hvanish J)
    · exact fun J => .inr (vanishes_iff.mpr hvanish J)
    · exact halt.covers
    · exact halt.covers.symm

end Covers

end Cube
