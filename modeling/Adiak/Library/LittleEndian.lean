import Mathlib.Algebra.Order.Ring.Int
import Mathlib.Tactic.Ring
import Mathlib.Tactic.Positivity

/-!
# Little-endian bytes of integers

The bytes that stand for an integer in two's complement, least significant first, and what a reader
makes of `w` of them.

`byteAt` is one byte, and `emod_pow_succ` is how a word splits into its first byte and the rest.
-/

namespace LittleEndian

/-- The byte `i` of an integer in two's complement. -/
def byteAt (x : Int) (i : Nat) : UInt8 := UInt8.ofNat (x / 256 ^ i % 256).toNat

theorem toNat_byteAt_zero (x : Int) : ((byteAt x 0).toNat : Int) = x % 256 := by
  unfold byteAt
  rw [pow_zero, Int.ediv_one, UInt8.toNat_ofNat']
  omega

theorem byteAt_succ (x : Int) (i : Nat) : byteAt x (i + 1) = byteAt (x / 256) i := by
  unfold byteAt
  rw [pow_succ', Int.ediv_ediv_of_nonneg (by omega)]

/-- The remainder by a product, digit by digit. -/
theorem emod_mul (x : Int) {b c : Int} (hb : 0 < b) (hc : 0 < c) :
    x % (b * c) = x % b + b * (x / b % c) := by
  have hr := Int.emod_nonneg x hb.ne'
  have hr' := Int.emod_lt_of_pos x hb
  have hs := Int.emod_nonneg (x / b) hc.ne'
  have hs' := Int.emod_lt_of_pos (x / b) hc
  have hx : x = x % b + b * (x / b % c) + b * c * (x / b / c) := by
    calc x = x % b + b * (x / b) := (Int.emod_add_mul_ediv x b).symm
      _ = x % b + b * (x / b % c + c * (x / b / c)) := by rw [Int.emod_add_mul_ediv (x / b) c]
      _ = x % b + b * (x / b % c) + b * c * (x / b / c) := by ring
  have hlt : x % b + b * (x / b % c) < b * c := by
    have hle : b * (x / b % c + 1) ≤ b * c := Int.mul_le_mul_of_nonneg_left (by omega) hb.le
    rw [mul_add, mul_one] at hle
    omega
  conv_lhs => rw [hx]
  rw [Int.add_mul_emod_self_left]
  exact Int.emod_eq_of_lt (by positivity) hlt

/-- A word is its first byte and the word behind it. -/
theorem emod_pow_succ (x : Int) (w : Nat) :
    x % 256 ^ (w + 1) = x % 256 + 256 * (x / 256 % 256 ^ w) := by
  rw [pow_succ']
  exact emod_mul x (by omega) (by positivity)

end LittleEndian
