import Adiak.Hosts.Protocol
import Adiak.Library.Cube

/-!
# Hashes of all rounds

`hostname_color` of `adksys_mpi.c` salts each character with the number of the round.

1. `hostnameColor_eq`: each bit of the salt adds an amount of its own to the hash of a name, so the
   hashes of all rounds are an affine function on the sets of bits.
2. `color_eq_iff`: two names have one color if their hashes are equal or opposite.
3. `tied_iff`: what it takes of two names to have one color in every round.
-/

namespace Adiak

/-! ## Bits of a salt -/

/-- What flipping a bit adds. -/
def flipBit (x : BitVec 32) (j : Fin 32) : BitVec 32 :=
  if x.getLsbD j then -BitVec.twoPow 32 j else BitVec.twoPow 32 j

/-- The bits of a salt. -/
def HasBits (i : BitVec 32) (J : Finset (Fin 32)) : Prop :=
  ∀ k : Fin 32, i.getLsbD k = decide (k ∈ J)

theorem hasBits_filter (i : BitVec 32) :
    HasBits i (Finset.univ.filter fun k : Fin 32 => i.getLsbD k = true) := by
  intro k
  simp

/-- Without common bits, nothing is carried. -/
theorem xor_eq_add {x y : BitVec 32} (h : x &&& y = 0#32) : x ^^^ y = x + y := by
  rw [BitVec.add_eq_or_of_and_eq_zero _ _ h]
  ext k hk
  have hbit : (x &&& y)[k] = false := by rw [h, BitVec.getElem_zero]
  rw [BitVec.getElem_and] at hbit
  rw [BitVec.getElem_xor, BitVec.getElem_or]
  cases hx : x[k]
  · rw [Bool.false_xor, Bool.false_or]
  · rw [hx, Bool.true_and] at hbit
    rw [hbit]
    rfl

theorem xor_twoPow (x : BitVec 32) (j : Fin 32) : x ^^^ BitVec.twoPow 32 j = x + flipBit x j := by
  have hclear : ∀ y : BitVec 32, y.getLsbD j = false →
      y ^^^ BitVec.twoPow 32 j = y + BitVec.twoPow 32 j := by
    intro y hy
    refine xor_eq_add ?_
    rw [BitVec.and_twoPow, hy]
    rfl
  unfold flipBit
  by_cases hx : x.getLsbD j = true
  · rw [if_pos hx]
    have hflip : (x ^^^ BitVec.twoPow 32 j).getLsbD j = false := by
      rw [BitVec.getLsbD_xor, hx, BitVec.getLsbD_twoPow]
      simp
    have hback := hclear _ hflip
    rw [BitVec.xor_assoc, BitVec.xor_self, BitVec.xor_zero] at hback
    conv_rhs => rw [hback]
    rw [BitVec.add_neg_eq_sub, BitVec.add_sub_cancel]
  · rw [if_neg hx]
    exact hclear x (Bool.eq_false_iff.mpr hx)

theorem flipBit_congr {x y : BitVec 32} {j : Fin 32} (h : x.getLsbD j = y.getLsbD j) :
    flipBit x j = flipBit y j := by
  unfold flipBit
  rw [h]

/-- Taking a bit out of a salt. -/
theorem HasBits.erase {i : BitVec 32} {j : Fin 32} {J : Finset (Fin 32)} (hj : j ∉ J)
    (h : HasBits i (insert j J)) : HasBits (i ^^^ BitVec.twoPow 32 j) J := by
  intro k
  rw [BitVec.getLsbD_xor, h k, BitVec.getLsbD_twoPow]
  by_cases hk : k = j
  · rw [hk]
    simp [hj]
  · have hne : ¬ (j : Nat) = k := fun heq => hk (Fin.ext heq.symm)
    simp [hk, hne]

theorem HasBits.insert {i : BitVec 32} {j : Fin 32} {J : Finset (Fin 32)} (hj : j ∉ J)
    (h : HasBits i J) : HasBits (i ^^^ BitVec.twoPow 32 j) (insert j J) := by
  intro k
  rw [BitVec.getLsbD_xor, h k, BitVec.getLsbD_twoPow]
  by_cases hk : k = j
  · rw [hk]
    simp [hj]
  · have hne : ¬ (j : Nat) = k := fun heq => hk (Fin.ext heq.symm)
    simp [hk, hne]

theorem exists_hasBits (J : Finset (Fin 32)) : ∃ i : Nat, HasBits (BitVec.ofNat 32 i) J := by
  induction J using Finset.induction_on with
  | empty => exact ⟨0, fun k => by simp⟩
  | insert j J hj ih =>
    obtain ⟨i, hi⟩ := ih
    refine ⟨(BitVec.ofNat 32 i ^^^ BitVec.twoPow 32 j).toNat, ?_⟩
    rw [BitVec.ofNat_toNat, BitVec.setWidth_eq]
    exact hi.insert hj

/-- A salted character: each bit of the salt adds an amount of its own. -/
theorem xor_eq_affine (x : BitVec 32) {i : BitVec 32} {J : Finset (Fin 32)} (h : HasBits i J) :
    x ^^^ i = Cube.affine x (flipBit x) J := by
  induction J using Finset.induction_on generalizing i with
  | empty =>
    have hzero : i = 0#32 := by
      refine BitVec.eq_of_getLsbD_eq fun k hk => ?_
      rw [h ⟨k, hk⟩, BitVec.getLsbD_zero]
      rfl
    rw [hzero, BitVec.xor_zero, Cube.affine_empty]
  | insert j J hj ih =>
    have herase := h.erase hj
    have hclear : (i ^^^ BitVec.twoPow 32 j).getLsbD j = false := by
      rw [herase j]
      exact decide_eq_false hj
    have hsame : (x ^^^ (i ^^^ BitVec.twoPow 32 j)).getLsbD j = x.getLsbD j := by
      rw [BitVec.getLsbD_xor, hclear, Bool.xor_false]
    have hsplit : x ^^^ i = x ^^^ (i ^^^ BitVec.twoPow 32 j) ^^^ BitVec.twoPow 32 j := by
      rw [BitVec.xor_assoc, BitVec.xor_assoc, BitVec.xor_self, BitVec.xor_zero]
    rw [hsplit, xor_twoPow, flipBit_congr hsame, ih herase, Cube.affine_insert hj]

/-! ## Bits of a name -/

/-- A character as the `int` it is promoted to. -/
def charInt (c : Char) : BitVec 32 := BitVec.ofInt 32 (signed 1 c.toNat)

/-- A step of `hostname_color`. -/
def hashStep (index : Nat) (hash : BitVec 32) (c : Char) : BitVec 32 :=
  33 * hash + (charInt c ^^^ BitVec.ofNat 32 index)

/-- What a bit of the salt adds in a step. -/
def bitStep (j : Fin 32) (sum : BitVec 32) (c : Char) : BitVec 32 := 33 * sum + flipBit (charInt c) j

/-- What a bit of the salt adds to the hash of a name: the amounts of its characters, weighted with the
powers of 33. -/
def bitSum (str : CStr) (j : Fin 32) : BitVec 32 := str.foldl (bitStep j) 0

theorem hostnameColor_eq_foldl (str : CStr) (index : Nat) :
    hostnameColor str index = str.foldl (hashStep index) 5381#32 := by
  have hstep : (fun (hash : BitVec 32) (c : Char) => ((hash <<< 5) + hash) +
      (BitVec.ofInt 32 (signed 1 c.toNat) ^^^ BitVec.ofNat 32 index)) = hashStep index := by
    funext hash c
    have hshift : hash <<< 5 = hash * 32 := BitVec.shiftLeft_eq_mul_twoPow hash 5
    unfold hashStep charInt
    rw [hshift]
    ring
  unfold hostnameColor
  rw [hstep]

/-- The hash of a round, with what the characters so far have added. -/
theorem foldl_hashStep (str : CStr) {index : Nat} {J : Finset (Fin 32)}
    (h : HasBits (BitVec.ofNat 32 index) J) (hash : BitVec 32) (sums : Fin 32 → BitVec 32) :
    str.foldl (hashStep index) (Cube.affine hash sums J) =
      Cube.affine (str.foldl (hashStep 0) hash) (fun j => str.foldl (bitStep j) (sums j)) J := by
  induction str generalizing hash sums with
  | nil => rfl
  | cons c str ih =>
    have hstep : hashStep index (Cube.affine hash sums J) c =
        Cube.affine (hashStep 0 hash c) (fun j => bitStep j (sums j) c) J := by
      have hzero : charInt c ^^^ BitVec.ofNat 32 0 = charInt c := BitVec.xor_zero
      unfold hashStep bitStep
      rw [xor_eq_affine (charInt c) h, hzero]
      unfold Cube.affine
      rw [Finset.sum_add_distrib, ← Finset.mul_sum]
      ring
    rw [List.foldl_cons, hstep, ih]
    rfl

/-- The hash of a name in a round. -/
theorem hostnameColor_eq (str : CStr) {index : Nat} {J : Finset (Fin 32)}
    (h : HasBits (BitVec.ofNat 32 index) J) :
    hostnameColor str index = Cube.affine (hostnameColor str 0) (bitSum str) J := by
  have hstart : Cube.affine 5381#32 (fun _ : Fin 32 => (0 : BitVec 32)) J = 5381#32 := by
    unfold Cube.affine
    rw [Finset.sum_const_zero, add_zero]
  have hfold := foldl_hashStep str h 5381#32 fun _ => 0
  rw [hstart] at hfold
  rw [hostnameColor_eq_foldl, hostnameColor_eq_foldl, hfold]
  rfl

/-! ## Colors -/

/-- The opposite of an `int`. The smallest one is its own. -/
theorem toInt_neg_cases (x : BitVec 32) :
    (-x).toInt = -x.toInt ∨ x.toInt = -2 ^ 31 ∧ (-x).toInt = -2 ^ 31 := by
  have hlo := BitVec.le_toInt x
  have hhi := BitVec.toInt_lt (x := x)
  rw [BitVec.toInt_neg]
  by_cases hmin : x.toInt = -2 ^ 31
  · right
    rw [hmin]
    exact ⟨rfl, by decide⟩
  · left
    exact Int.bmod_eq_of_le (by omega) (by omega)

/-- The color of a hash. -/
theorem color_eq (str : CStr) (i : Nat) : color str i =
    if (hostnameColor str i).toInt < 0 then (-hostnameColor str i).toInt
    else (hostnameColor str i).toInt := by
  unfold color wrapInt
  rw [BitVec.toInt_neg, mul_neg_one]

/-- Two hashes are one color if they are equal or opposite. -/
theorem color_eq_iff {a b : CStr} {i : Nat} : color a i = color b i ↔
    hostnameColor a i = hostnameColor b i ∨ hostnameColor a i = -hostnameColor b i := by
  rw [color_eq, color_eq]
  generalize hostnameColor a i = x
  generalize hostnameColor b i = y
  constructor
  · intro h
    split_ifs at h
    · exact .inl (neg_injective (BitVec.eq_of_toInt_eq h))
    · exact .inr (by rw [← BitVec.eq_of_toInt_eq h, neg_neg])
    · exact .inr (BitVec.eq_of_toInt_eq h)
    · exact .inl (BitVec.eq_of_toInt_eq h)
  · rintro (rfl | rfl)
    · rfl
    · rw [neg_neg]
      rcases toInt_neg_cases y with hneg | ⟨hmin, hneg⟩
      · split_ifs <;> omega
      · split_ifs <;> omega

/-! ## Colors of all rounds -/

/-- The names have one color in every round: their hashes and the amounts of the bits are equal, or
opposite, or the differences and the sums alternate. -/
def Tied (a b : CStr) : Prop :=
  (hostnameColor a 0 = hostnameColor b 0 ∧ ∀ j, bitSum a j = bitSum b j) ∨
    (hostnameColor a 0 = -hostnameColor b 0 ∧ ∀ j, bitSum a j = -bitSum b j) ∨
    Cube.Alternates (hostnameColor a 0 - hostnameColor b 0) (fun j => bitSum a j - bitSum b j)
      (hostnameColor a 0 + hostnameColor b 0) (fun j => bitSum a j + bitSum b j) ∨
    Cube.Alternates (hostnameColor a 0 + hostnameColor b 0) (fun j => bitSum a j + bitSum b j)
      (hostnameColor a 0 - hostnameColor b 0) (fun j => bitSum a j - bitSum b j)

theorem tied_iff {a b : CStr} : Tied a b ↔ ∀ i, color a i = color b i := by
  have hcolor : ∀ i J, HasBits (BitVec.ofNat 32 i) J → (color a i = color b i ↔
      Cube.affine (hostnameColor a 0 - hostnameColor b 0) (fun j => bitSum a j - bitSum b j) J = 0 ∨
      Cube.affine (hostnameColor a 0 + hostnameColor b 0) (fun j => bitSum a j + bitSum b j) J = 0) := by
    intro i J h
    rw [color_eq_iff, hostnameColor_eq a h, hostnameColor_eq b h, ← Cube.affine_sub,
      ← Cube.affine_add, sub_eq_zero, add_eq_zero_iff_eq_neg]
  have hcovers : (∀ i, color a i = color b i) ↔
      Cube.Covers (hostnameColor a 0 - hostnameColor b 0) (fun j => bitSum a j - bitSum b j)
        (hostnameColor a 0 + hostnameColor b 0) (fun j => bitSum a j + bitSum b j) := by
    constructor
    · intro h J
      obtain ⟨i, hi⟩ := exists_hasBits J
      exact (hcolor i J hi).mp (h i)
    · intro h i
      exact (hcolor i _ (hasBits_filter _)).mpr (h _)
  rw [hcovers, Cube.covers_iff]
  unfold Tied
  simp only [sub_eq_zero, add_eq_zero_iff_eq_neg]

end Adiak
