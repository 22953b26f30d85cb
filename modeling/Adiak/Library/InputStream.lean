import Mathlib.Data.List.Basic

/-!
# Input streams

A stream of `stdio.h` that is open for reading, over contents that do not change. What goes wrong is a
schedule of faults: each call that has to read takes the next entry, and `none` lets it go through. After the
schedule all calls go through.

1. `fgetc`, `fread`, `fseek` and the end-of-file indicator; once it is set, nothing is read until a seek.
2. `fgetc_cases`, `fread_cases`: what a call does.
3. `failures`: how many of the calls that read a stream to its end one element after another fail.
-/

/-- `errno` after a call: interrupted by a signal, or anything else. -/
inductive Errno
  | eintr
  | other
deriving DecidableEq, Repr

/-- A call that fails after it has read some elements. -/
structure Fault where
  taken : Nat
  errno : Errno
deriving DecidableEq, Repr

structure InputStream (α : Type) where
  content : List α
  pos : Nat
  eof : Bool
  errno : Errno
  faults : List (Option Fault)

namespace InputStream

variable {α : Type}

/-- What is opened, where `errno` is that of an earlier call. -/
def opened (content : List α) (errno : Errno) (faults : List (Option Fault)) : InputStream α where
  content := content
  pos := 0
  eof := false
  errno := errno
  faults := faults

/-- What happens to the next call that reads. -/
def nextFault (f : InputStream α) : Option Fault := f.faults.head?.join

def fgetc (f : InputStream α) : Option α × InputStream α :=
  if f.eof then (none, f)
  else
    match f.nextFault with
    | some fault => (none, { f with errno := fault.errno, faults := f.faults.tail })
    | none =>
      match f.content[f.pos]? with
      | none => (none, { f with eof := true, faults := f.faults.tail })
      | some a => (some a, { f with pos := f.pos + 1, faults := f.faults.tail })

/-- `fread(ptr, 1, n, f)`: a call that fails has read less than `n`. -/
def fread (n : Nat) (f : InputStream α) : List α × InputStream α :=
  if n = 0 ∨ f.eof then ([], f)
  else
    match f.nextFault with
    | some fault =>
      let elems := (f.content.drop f.pos).take (min fault.taken (n - 1))
      (elems, { f with
        pos := f.pos + elems.length, errno := fault.errno, faults := f.faults.tail })
    | none =>
      let elems := (f.content.drop f.pos).take n
      (elems, { f with
        pos := f.pos + elems.length, eof := decide (elems.length < n), faults := f.faults.tail })

/-- `SEEK_SET`, `SEEK_CUR` and `SEEK_END`. -/
def seekSet : Int := 0
def seekCur : Int := 1
def seekEnd : Int := 2

/-- `fseek`: a place in front of the contents is refused. -/
def fseek (offset whence : Int) (f : InputStream α) : Int × InputStream α :=
  let start : Int :=
    if whence = seekSet then 0 else if whence = seekCur then f.pos else f.content.length
  if whence ∉ [seekSet, seekCur, seekEnd] ∨ start + offset < 0 then (-1, { f with errno := .other })
  else (0, { f with pos := (start + offset).toNat, eof := false })

/-! ## What a call does -/

theorem length_tail_lt {f : InputStream α} {fault : Fault} (h : f.nextFault = some fault) :
    f.faults.tail.length < f.faults.length := by
  unfold nextFault at h
  cases hfaults : f.faults with
  | nil => rw [hfaults] at h; cases h
  | cons fault faults => exact Nat.lt_succ_self _

theorem nextFault_mem {f : InputStream α} {fault : Fault} (h : f.nextFault = some fault) :
    some fault ∈ f.faults := by
  unfold nextFault at h
  cases hfaults : f.faults with
  | nil => rw [hfaults] at h; cases h
  | cons head faults =>
    rw [hfaults] at h
    obtain rfl : head = some fault := h
    exact List.mem_cons_self

/-- `fgetc` on a stream whose indicator is not set: it fails, or is at the end, or reads. -/
theorem fgetc_cases {f : InputStream α} (heof : f.eof = false) :
    (∃ fault, f.nextFault = some fault ∧
      f.fgetc = (none, { f with errno := fault.errno, faults := f.faults.tail })) ∨
    (f.nextFault = none ∧ f.content.length ≤ f.pos ∧
      f.fgetc = (none, { f with eof := true, faults := f.faults.tail })) ∨
    (f.nextFault = none ∧ ∃ hpos : f.pos < f.content.length,
      f.fgetc = (some f.content[f.pos], { f with pos := f.pos + 1, faults := f.faults.tail })) := by
  unfold fgetc
  rw [if_neg (ne_true_of_eq_false heof)]
  cases hfault : f.nextFault with
  | some fault => exact .inl ⟨fault, rfl, rfl⟩
  | none =>
    refine .inr ?_
    by_cases hpos : f.pos < f.content.length
    · refine .inr ⟨rfl, hpos, ?_⟩
      dsimp only
      rw [List.getElem?_eq_getElem hpos]
    · refine .inl ⟨rfl, Nat.le_of_not_lt hpos, ?_⟩
      dsimp only
      rw [List.getElem?_eq_none (Nat.le_of_not_lt hpos)]

/-- What every `fread` does: it reads what comes next, and sets the indicator at the end only. -/
structure Reads (f : InputStream α) (n : Nat) (elems : List α) (f' : InputStream α) : Prop where
  content : f'.content = f.content
  pos : f'.pos = f.pos + elems.length
  taken : elems = (f.content.drop f.pos).take elems.length
  length : elems.length ≤ n
  eof : f'.eof = true → f.eof = true ∨ f.content.length ≤ f'.pos
  errno : f'.errno = f.errno ∨ ∃ fault, some fault ∈ f.faults ∧ f'.errno = fault.errno
  faults : f'.faults <:+ f.faults
  progress : 0 < n → f.eof = false →
    (elems.length < n ∧ f'.faults.length < f.faults.length ∧
      ∃ fault, some fault ∈ f.faults ∧ f'.errno = fault.errno) ∨
    elems.length = min n (f.content.length - f.pos)

theorem fread_reads (f : InputStream α) (n : Nat) : f.Reads n (f.fread n).1 (f.fread n).2 := by
  unfold fread
  by_cases hquiet : n = 0 ∨ f.eof = true
  · rw [if_pos hquiet]
    refine ⟨rfl, rfl, rfl, Nat.zero_le n, .inl, .inl rfl, List.suffix_refl _, fun hn heof => ?_⟩
    rcases hquiet with rfl | hquiet
    · exact absurd hn (Nat.lt_irrefl 0)
    · rw [heof] at hquiet
      cases hquiet
  · rw [if_neg hquiet]
    cases hfault : f.nextFault with
    | some fault =>
      have hle := List.length_take_le (min fault.taken (n - 1)) (f.content.drop f.pos)
      have hpos : 0 < n := Nat.pos_of_ne_zero fun h => hquiet (.inl h)
      refine ⟨rfl, rfl, by simp, ?_, fun heof => absurd (.inr heof) hquiet,
        .inr ⟨fault, nextFault_mem hfault, rfl⟩, List.tail_suffix _,
        fun _ _ => .inl ⟨?_, length_tail_lt hfault, fault, nextFault_mem hfault, rfl⟩⟩
      · show ((f.content.drop f.pos).take _).length ≤ n
        omega
      · show ((f.content.drop f.pos).take _).length < n
        omega
    | none =>
      have hlen : ((f.content.drop f.pos).take n).length = min n (f.content.length - f.pos) := by
        rw [List.length_take, List.length_drop]
      refine ⟨rfl, rfl, by simp, List.length_take_le _ _, fun heof => .inr ?_, .inl rfl,
        List.tail_suffix _, fun _ _ => .inr hlen⟩
      have hlt := of_decide_eq_true heof
      show f.content.length ≤ f.pos + ((f.content.drop f.pos).take n).length
      omega

theorem Reads.length_le {f f' : InputStream α} {n : Nat} {elems : List α} (h : f.Reads n elems f') :
    elems.length ≤ f.content.length - f.pos := by
  rw [h.taken, List.length_take, List.length_drop]
  exact Nat.min_le_right _ _

/-! ## Reading to the end -/

/-- How many calls fail before `n` calls have gone through, and one more. -/
def failures : List (Option Fault) → Nat → Nat
  | [], _ => 0
  | some _ :: faults, n => failures faults n + 1
  | none :: _, 0 => 0
  | none :: faults, n + 1 => failures faults n

section Failures

variable {f : InputStream α}

theorem failures_of_some {fault : Fault} (h : f.nextFault = some fault) (n : Nat) :
    failures f.faults n = failures f.faults.tail n + 1 := by
  unfold nextFault at h
  cases hfaults : f.faults with
  | nil => rw [hfaults] at h; cases h
  | cons head faults =>
    rw [hfaults] at h
    obtain rfl : head = some fault := h
    rfl

theorem failures_succ (h : f.nextFault = none) (n : Nat) :
    failures f.faults (n + 1) = failures f.faults.tail n := by
  unfold nextFault at h
  cases hfaults : f.faults with
  | nil => cases n <;> rfl
  | cons head faults =>
    rw [hfaults] at h
    obtain rfl : head = none := h
    rfl

theorem failures_zero (h : f.nextFault = none) : failures f.faults 0 = 0 := by
  unfold nextFault at h
  cases hfaults : f.faults with
  | nil => rfl
  | cons head faults =>
    rw [hfaults] at h
    obtain rfl : head = none := h
    rfl

end Failures

end InputStream
