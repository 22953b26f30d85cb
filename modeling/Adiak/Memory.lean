import Adiak.Types
import Mathlib.Algebra.Order.Ring.Int

/-!
# Arguments, memory and values

What the library is handed and what it records.

1. `Stop` says how a C function can fail to return a result: it returned `NULL` (or `-1` with
   nothing written), it did something undefined, or a bounded loop of the model ran out.
2. `VArg` is a variable argument, `Memory` the caller's memory at the time of a call.
3. `AdiakValue` is an `adiak_value_t` together with the blocks it owns.
-/

namespace Adiak

/-- How a modelled function ends without a result. -/
inductive Stop where
  /-- The C function returned `NULL`, or `-1` without writing its target. -/
  | null
  /-- Undefined behaviour: a missing argument, an invalid pointer, a read out of bounds. -/
  | undefined
  /-- The bound on the recursion depth of the model was reached. -/
  | fuel
  deriving DecidableEq

@[simp] theorem ok_bind {ε α β : Type} (a : α) (f : α → Except ε β) :
    (Except.ok a >>= f) = f a := rfl

@[simp] theorem error_bind {ε α β : Type} (e : ε) (f : α → Except ε β) :
    (Except.error e >>= f) = .error e := rfl

/-- A computation that ends well is its first step, then the rest. -/
theorem bind_eq_ok {ε α β : Type} {x : Except ε α} {f : α → Except ε β} {b : β} :
    x >>= f = .ok b ↔ ∃ a, x = .ok a ∧ f a = .ok b := by
  cases x with
  | error e => simp
  | ok a => simp

theorem exists_of_isOk {ε α : Type} {x : Except ε α} (h : x.isOk = true) : ∃ a, x = .ok a := by
  cases x with
  | error e => cases h
  | ok a => exact ⟨a, rfl⟩

/-- A C `double`: its 64-bit pattern, or the widening of a `float` given by its 32-bit pattern. -/
inductive CDouble where
  | f64 (bits : Nat)
  | ofFloat (bits : Nat)
  deriving DecidableEq

/-- A `struct timeval`. -/
structure Timeval where
  tvSec : Int
  tvUsec : Int
  deriving DecidableEq

/-- An address of the caller's memory; `0` is `NULL`. -/
abbrev Addr := Int

/-- A C string without its terminating NUL. -/
abbrev CStr := List Char

/-- A variable argument, with the type it was passed at. -/
inductive VArg where
  | int (x : Int)
  | long (x : Int)
  | longlong (x : Int)
  | double (x : CDouble)
  | ptr (p : Addr)

/-- `va_arg(ap, int)`. -/
def vaArgInt : List VArg → Except Stop (Int × List VArg)
  | .int x :: ap => .ok (x, ap)
  | _ => .error .undefined

/-- The two's complement reading of `w` bytes. -/
def signed (w : Nat) (x : Nat) : Int := Int.bmod x (256 ^ w)

/-- `int` arithmetic keeps the low 32 bits. -/
def wrapInt (x : Int) : Int := Int.bmod x (2 ^ 32)

theorem wrapInt_of_lt {x : Int} (h0 : 0 ≤ x) (h : x < 2 ^ 31) : wrapInt x = x := by
  unfold wrapInt
  exact Int.bmod_eq_of_le (by omega) (by omega)

@[simp] theorem wrapInt_add_wrapInt (x y : Int) : wrapInt (x + wrapInt y) = wrapInt (x + y) := by
  unfold wrapInt
  exact Int.add_bmod_bmod

@[simp] theorem wrapInt_wrapInt_add (x y : Int) : wrapInt (wrapInt x + y) = wrapInt (x + y) := by
  unfold wrapInt
  exact Int.bmod_add_bmod

theorem wrapInt_mul_wrapInt (x y : Int) : wrapInt (wrapInt x * wrapInt y) = wrapInt (x * y) := by
  unfold wrapInt
  rw [Int.mul_bmod_bmod, Int.bmod_mul_bmod]

theorem wrapInt_idem (x : Int) : wrapInt (wrapInt x) = wrapInt x := by
  have h := wrapInt_add_wrapInt 0 x
  rwa [Int.zero_add, Int.zero_add] at h

/-- The caller's memory: the mapped bytes, and the C strings and `struct timeval`s that pointers
into it lead to. -/
structure Memory where
  byte : Addr → Option UInt8
  cstr : Addr → Option CStr
  timeval : Addr → Option Timeval

/-- Memory with nothing mapped. -/
def Memory.empty : Memory where
  byte := fun _ => none
  cstr := fun _ => none
  timeval := fun _ => none

/-- A little-endian load of `w` bytes. -/
def Memory.load (m : Memory) (p : Addr) : Nat → Except Stop Nat
  | 0 => .ok 0
  | w + 1 =>
    match m.byte p with
    | none => .error .undefined
    | some b => do
      let hi ← m.load (p + 1) w
      .ok (b.toNat + 256 * hi)

/-- Following a `char *`. -/
def Memory.loadCstr (m : Memory) (p : Addr) : Except Stop CStr :=
  match m.cstr p with
  | none => .error .undefined
  | some s => .ok s

/-- Following a `struct timeval *`. -/
def Memory.loadTimeval (m : Memory) (p : Addr) : Except Stop Timeval :=
  match m.timeval p with
  | none => .error .undefined
  | some v => .ok v

/-- A signed integer of `w` bytes in memory. -/
def Memory.loadSigned (m : Memory) (p : Addr) (w : Nat) : Except Stop Int := do
  let x ← m.load p w
  .ok (signed w x)

/-- A pointer in memory. -/
def Memory.loadAddr (m : Memory) (p : Addr) : Except Stop Addr := do
  let x ← m.load p 8
  .ok x

/-- What a `void *` in an `adiak_value_t` leads to. -/
inductive Pointer where
  /-- A pointer of the caller's, or `NULL`. -/
  | caller (p : Addr)
  /-- A copy made by `strdup`. -/
  | strdup (s : CStr)
  /-- A copy of a `struct timeval`. -/
  | timeval (tv : Timeval)
  deriving DecidableEq

/-- `NULL`. -/
def Pointer.null : Pointer := .caller 0

/-- An `adiak_value_t`, named by the member that was last written. `v_subval` carries the array
it points to, which the value owns. -/
inductive AdiakValue where
  /-- Allocated and not written. -/
  | indeterminate
  | vLong (x : Int)
  | vInt (x : Int)
  | vDouble (x : CDouble)
  | vLonglong (x : Int)
  | vPtr (p : Pointer)
  | vSubval (elems : List AdiakValue)

end Adiak
