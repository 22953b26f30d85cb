import Mathlib.Algebra.Order.Group.Multiset
import Mathlib.Data.Multiset.Count
import Mathlib.Data.Multiset.MapFold

/-!
# Requests to an allocator

A program asks for blocks and releases them. Blocks are named after the request that they were allocated
for, by any type of names.

1. `run live log` answers the requests of a log when the blocks `live` are allocated. It refuses to
   release a block that is not allocated at that moment.
2. `run_append`, `run_frame`: logs behind each other, and the blocks that a log has nothing to do with.
3. `run_balance`: what is allocated at the end and what was released make up what there was.
4. `Sound` logs, whose blocks have different names: each block is released at most once, behind its
   allocation, and it is released if and only if it is not allocated at the end.
-/

namespace Allocator

/-- A request, with the name of the block. -/
inductive Request (β : Type*) where
  | malloc (block : β)
  | free (block : β)
  deriving DecidableEq

namespace Request

variable {β γ : Type*}

def malloced : Request β → Option β
  | .malloc block => some block
  | .free _ => none

def freed : Request β → Option β
  | .malloc _ => none
  | .free block => some block

/-- The request under another name. -/
def map (f : β → γ) : Request β → Request γ
  | .malloc block => .malloc (f block)
  | .free block => .free (f block)

end Request

variable {β γ : Type*}

/-- The blocks that are asked for. -/
def mallocs (log : List (Request β)) : List β := log.filterMap Request.malloced

/-- The blocks that are released. -/
def frees (log : List (Request β)) : List β := log.filterMap Request.freed

@[simp] theorem mallocs_nil : mallocs ([] : List (Request β)) = [] := rfl

@[simp] theorem frees_nil : frees ([] : List (Request β)) = [] := rfl

@[simp] theorem mallocs_cons_malloc (b : β) (log : List (Request β)) :
    mallocs (.malloc b :: log) = b :: mallocs log := rfl

@[simp] theorem mallocs_cons_free (b : β) (log : List (Request β)) :
    mallocs (.free b :: log) = mallocs log := rfl

@[simp] theorem frees_cons_malloc (b : β) (log : List (Request β)) :
    frees (.malloc b :: log) = frees log := rfl

@[simp] theorem frees_cons_free (b : β) (log : List (Request β)) :
    frees (.free b :: log) = b :: frees log := rfl

@[simp] theorem mallocs_append (l m : List (Request β)) : mallocs (l ++ m) = mallocs l ++ mallocs m :=
  List.filterMap_append

@[simp] theorem frees_append (l m : List (Request β)) : frees (l ++ m) = frees l ++ frees m :=
  List.filterMap_append

@[simp] theorem mallocs_map_malloc (bs : List β) : mallocs (bs.map .malloc) = bs := by
  induction bs with
  | nil => rfl
  | cons b bs ih => rw [List.map_cons, mallocs_cons_malloc, ih]

@[simp] theorem mallocs_map_free (bs : List β) : mallocs (bs.map .free) = [] := by
  induction bs with
  | nil => rfl
  | cons b bs ih => rw [List.map_cons, mallocs_cons_free, ih]

@[simp] theorem frees_map_malloc (bs : List β) : frees (bs.map .malloc) = [] := by
  induction bs with
  | nil => rfl
  | cons b bs ih => rw [List.map_cons, frees_cons_malloc, ih]

@[simp] theorem frees_map_free (bs : List β) : frees (bs.map .free) = bs := by
  induction bs with
  | nil => rfl
  | cons b bs ih => rw [List.map_cons, frees_cons_free, ih]

theorem mallocs_map (f : β → γ) (log : List (Request β)) :
    mallocs (log.map (Request.map f)) = (mallocs log).map f := by
  induction log with
  | nil => rfl
  | cons r log ih =>
    cases r with
    | malloc b => exact congrArg (f b :: ·) ih
    | free b => exact ih

theorem frees_map (f : β → γ) (log : List (Request β)) :
    frees (log.map (Request.map f)) = (frees log).map f := by
  induction log with
  | nil => rfl
  | cons r log ih =>
    cases r with
    | malloc b => exact ih
    | free b => exact congrArg (f b :: ·) ih

theorem mem_mallocs {log : List (Request β)} {b : β} : b ∈ mallocs log ↔ .malloc b ∈ log := by
  induction log with
  | nil => simp
  | cons r log ih => cases r <;> simp [ih]

theorem mem_frees {log : List (Request β)} {b : β} : b ∈ frees log ↔ .free b ∈ log := by
  induction log with
  | nil => simp
  | cons r log ih => cases r <;> simp [ih]

/-! ## The allocator -/

variable [DecidableEq β] [DecidableEq γ]

/-- The blocks that are allocated behind a request. -/
def step (live : Multiset β) : Request β → Option (Multiset β)
  | .malloc b => some (b ::ₘ live)
  | .free b => if b ∈ live then some (live.erase b) else none

theorem step_free {live live' : Multiset β} {b : β} :
    step live (.free b) = some live' ↔ b ∈ live ∧ live.erase b = live' := by
  show (if b ∈ live then some (live.erase b) else none) = some live' ↔ _
  split_ifs with hb
  · exact Option.some_inj.trans (and_iff_right hb).symm
  · exact iff_of_false nofun fun h => hb h.1

/-- The blocks that are allocated behind a log, if no request is refused. -/
def run (live : Multiset β) : List (Request β) → Option (Multiset β)
  | [] => some live
  | r :: log => (step live r).bind fun live => run live log

section Run

variable {live live' rest : Multiset β} {log log' : List (Request β)}

theorem run_append (live : Multiset β) (log log' : List (Request β)) :
    run live (log ++ log') = (run live log).bind fun live => run live log' := by
  induction log generalizing live with
  | nil => rfl
  | cons r log ih =>
    rw [List.cons_append, run, run, Option.bind_assoc]
    congr 1
    funext live
    exact ih live

/-- One log behind another. -/
theorem run_trans {mid : Multiset β} (h : run live log = some mid) (h' : run mid log' = some live') :
    run live (log ++ log') = some live' := by
  rw [run_append, h, Option.bind_some, h']

theorem step_frame {r : Request β} (h : step live r = some live') (rest : Multiset β) :
    step (live + rest) r = some (live' + rest) := by
  cases r with
  | malloc b =>
    obtain rfl := Option.some.inj h
    rw [Multiset.cons_add]
    rfl
  | free b =>
    obtain ⟨hb, rfl⟩ := step_free.mp h
    exact step_free.mpr ⟨Multiset.mem_add.mpr (.inl hb), Multiset.erase_add_left_pos _ hb⟩

/-- Blocks that a log has nothing to do with stay allocated. -/
theorem run_frame (h : run live log = some live') (rest : Multiset β) :
    run (live + rest) log = some (live' + rest) := by
  induction log generalizing live with
  | nil =>
    obtain rfl := Option.some.inj h
    rfl
  | cons r log ih =>
    obtain ⟨mid, hstep, hrun⟩ := Option.bind_eq_some_iff.mp h
    rw [run, step_frame hstep rest, Option.bind_some]
    exact ih hrun

/-- The same behind a log that leaves the blocks. -/
theorem run_behind (h : run live log = some (rest + live')) {mid : Multiset β}
    (h' : run live' log' = some mid) : run live (log ++ log') = some (rest + mid) := by
  apply run_trans h
  rw [add_comm rest, add_comm rest]
  exact run_frame h' rest

theorem run_mallocs (live : Multiset β) (bs : List β) :
    run live (bs.map .malloc) = some ((bs : Multiset β) + live) := by
  induction bs generalizing live with
  | nil => exact congrArg some (zero_add live).symm
  | cons b bs ih =>
    rw [List.map_cons, run]
    show run (b ::ₘ live) _ = _
    rw [ih, Multiset.add_cons, ← Multiset.cons_coe, Multiset.cons_add]

theorem run_frees (live : Multiset β) (bs : List β) :
    run ((bs : Multiset β) + live) (bs.map .free) = some live := by
  induction bs with
  | nil => exact congrArg some (zero_add live)
  | cons b bs ih =>
    have hstep : step (b ::ₘ ((bs : Multiset β) + live)) (.free b) = some (bs + live) :=
      step_free.mpr ⟨Multiset.mem_cons_self _ _, Multiset.erase_cons_head _ _⟩
    rw [List.map_cons, run, ← Multiset.cons_coe, Multiset.cons_add, hstep]
    exact ih

theorem step_map (f : β → γ) {r : Request β} (h : step live r = some live') :
    step (live.map f) (r.map f) = some (live'.map f) := by
  cases r with
  | malloc b =>
    obtain rfl := Option.some.inj h
    rw [Multiset.map_cons]
    rfl
  | free b =>
    obtain ⟨hb, rfl⟩ := step_free.mp h
    exact step_free.mpr ⟨Multiset.mem_map_of_mem f hb, (Multiset.map_erase_of_mem f live hb).symm⟩

/-- The blocks under other names. -/
theorem run_map (f : β → γ) (h : run live log = some live') :
    run (live.map f) (log.map (Request.map f)) = some (live'.map f) := by
  induction log generalizing live with
  | nil =>
    obtain rfl := Option.some.inj h
    rfl
  | cons r log ih =>
    obtain ⟨mid, hstep, hrun⟩ := Option.bind_eq_some_iff.mp h
    rw [List.map_cons, run, step_map f hstep, Option.bind_some]
    exact ih hrun

/-- What was released and what is allocated at the end were allocated before or asked for. -/
theorem run_balance (h : run live log = some live') :
    live + (mallocs log : Multiset β) = (frees log : Multiset β) + live' := by
  induction log generalizing live with
  | nil =>
    obtain rfl := Option.some.inj h
    exact add_comm live 0
  | cons r log ih =>
    obtain ⟨mid, hstep, hrun⟩ := Option.bind_eq_some_iff.mp h
    replace ih := ih hrun
    cases r with
    | malloc b =>
      obtain rfl := Option.some.inj hstep
      rw [mallocs_cons_malloc, frees_cons_malloc, ← ih, ← Multiset.cons_coe, Multiset.add_cons,
        Multiset.cons_add]
    | free b =>
      obtain ⟨hb, rfl⟩ := step_free.mp hstep
      rw [mallocs_cons_free, frees_cons_free, ← Multiset.cons_coe, Multiset.cons_add, ← ih,
        ← Multiset.cons_add, Multiset.cons_erase hb]

/-- What is asked for at the start of a log is not released before. -/
theorem run_prefix (h : run live (log ++ log') = some live') : ∃ mid, run live log = some mid := by
  rw [run_append] at h
  obtain ⟨mid, hmid, -⟩ := Option.bind_eq_some_iff.mp h
  exact ⟨mid, hmid⟩

end Run

/-! ## Logs of a whole program -/

/-- The log of a program that has `live` allocated: no request is refused, and blocks are told apart by
their names. -/
structure Sound (log : List (Request β)) (live : Multiset β) : Prop where
  run : run 0 log = some live
  nodup : (mallocs log).Nodup

section Sound

variable {live : Multiset β} {log log' : List (Request β)} {b : β}

theorem sound_nil : Sound ([] : List (Request β)) 0 := ⟨rfl, List.nodup_nil⟩

/-- A log behind another, for blocks with names of their own. -/
theorem Sound.append (h : Sound log live) {live' : Multiset β} (hrun : Allocator.run live log' = some live')
    (hnodup : (mallocs log').Nodup) (hnew : ∀ b ∈ mallocs log', b ∉ mallocs log) :
    Sound (log ++ log') live' := by
  refine ⟨run_trans h.run hrun, ?_⟩
  rw [mallocs_append]
  exact h.nodup.append hnodup fun b hb hb' => hnew b hb' hb

theorem Sound.count (h : Sound log live) (b : β) :
    (mallocs log).count b = (frees log).count b + live.count b := by
  have hbalance := congrArg (Multiset.count b) (run_balance h.run)
  rwa [zero_add, Multiset.count_add, Multiset.coe_count, Multiset.coe_count] at hbalance

/-- A block is released or allocated, if it was asked for, and not both. -/
theorem Sound.released_iff (h : Sound log live) (hb : .malloc b ∈ log) :
    (frees log).count b = 1 ∧ b ∉ live ∨ (frees log).count b = 0 ∧ live.count b = 1 := by
  have hone := List.count_eq_one_of_mem h.nodup (mem_mallocs.mpr hb)
  have hcount := h.count b
  rcases Nat.eq_zero_or_pos ((frees log).count b) with hzero | hpos
  · exact .inr ⟨hzero, by omega⟩
  · refine .inl ⟨by omega, fun hlive => ?_⟩
    have := Multiset.count_pos.mpr hlive
    omega

/-- A block that is released was asked for before: at the start of the log that ends there, or behind
it, it is not released again. -/
theorem Sound.free (h : Sound (log ++ .free b :: log') live) :
    .malloc b ∈ log ∧ .free b ∉ log ∧ .free b ∉ log' ∧ b ∉ live := by
  obtain ⟨mid, hmid⟩ := run_prefix h.run
  have hnodup : (mallocs log).Nodup := by
    have hall := h.nodup
    rw [mallocs_append] at hall
    exact hall.of_append_left
  have hcount := (Sound.mk hmid hnodup).count b
  have hlive : b ∈ mid := by
    have hrun := h.run
    rw [run_append, hmid, Option.bind_some] at hrun
    obtain ⟨_, hstep, -⟩ := Option.bind_eq_some_iff.mp hrun
    exact (step_free.mp hstep).1
  have hpos := Multiset.count_pos.mpr hlive
  have hle := List.nodup_iff_count_le_one.mp hnodup b
  have hmem : b ∈ mallocs log := List.count_pos_iff.mp (by omega)
  have hall : .malloc b ∈ log ++ .free b :: log' :=
    List.mem_append_left _ (mem_mallocs.mp hmem)
  have hfrees : (frees (log ++ .free b :: log')).count b =
      (frees log).count b + ((frees log').count b + 1) := by
    rw [frees_append, frees_cons_free, List.count_append, List.count_cons_self]
  rcases h.released_iff hall with ⟨hone, hdead⟩ | ⟨hzero, -⟩
  · refine ⟨mem_mallocs.mp hmem, fun hfree => ?_, fun hfree => ?_, hdead⟩
    · have := List.count_pos_iff.mpr (mem_frees.mpr hfree)
      omega
    · have := List.count_pos_iff.mpr (mem_frees.mpr hfree)
      omega
  · omega

end Sound

end Allocator
