import Mathlib.Data.List.Count
import Mathlib.Data.List.Perm.Basic
import Mathlib.Data.List.Nodup
import Adiak.Library.Allocator
import Adiak.Typestring.HeapParser

/-!
# The blocks of the parser

1. `TypePtr.blocks` are the blocks that hang from a pointer. `free_adiak_type` releases them but for
   `TypePtr.lost` (`frees_released`).
2. `Owes` says which blocks a part of a run has allocated and not released, `Owns` that it has released
   none. An allocator answers the requests of such a part (`Owes.accepted`).
3. `ReleasedOnce` is what is asked of a run that has failed: it owes nothing (`Owes.once_iff`).
-/

namespace Adiak

namespace Heap

open Allocator (Request)

/-! ## Allocated and released -/

/-- What is asked of the allocator. -/
def Access.request : Access → Option (Request Nat)
  | .malloc block => some (.malloc block)
  | .free block => some (.free block)
  | _ => none

/-- A request as an access. -/
def Access.ofRequest : Request Nat → Access
  | .malloc block => .malloc block
  | .free block => .free block

/-- The requests of a run. -/
def requests (log : List Access) : List (Request Nat) := log.filterMap Access.request

@[simp] theorem requests_append (l m : List Access) : requests (l ++ m) = requests l ++ requests m :=
  List.filterMap_append

theorem mem_requests {log : List Access} {r : Request Nat} :
    r ∈ requests log ↔ Access.ofRequest r ∈ log := by
  unfold requests
  rw [List.mem_filterMap]
  constructor
  · rintro ⟨a, ha, hr⟩
    cases a with
    | malloc block | free block =>
      obtain rfl := Option.some.inj hr
      exact ha
    | _ => cases hr
  · intro h
    exact ⟨_, h, by cases r <;> rfl⟩

/-- The blocks that are allocated. -/
def mallocs (log : List Access) : List Nat := Allocator.mallocs (requests log)

/-- The blocks that are released. -/
def frees (log : List Access) : List Nat := Allocator.frees (requests log)

@[simp] theorem frees_nil : frees [] = [] := rfl

@[simp] theorem frees_free (block : Nat) : frees [.free block] = [block] := rfl

@[simp] theorem mallocs_append (l m : List Access) : mallocs (l ++ m) = mallocs l ++ mallocs m := by
  unfold mallocs
  rw [requests_append, Allocator.mallocs_append]

@[simp] theorem frees_append (l m : List Access) : frees (l ++ m) = frees l ++ frees m := by
  unfold frees
  rw [requests_append, Allocator.frees_append]

theorem count_frees (log : List Access) (block : Nat) :
    (frees log).count block = log.count (.free block) := by
  induction log with
  | nil => rfl
  | cons a log ih =>
    cases a with
    | free block' =>
      show (block' :: frees log).count block = _
      rw [List.count_cons, List.count_cons, ih]
      simp only [beq_iff_eq, Access.free.injEq]
    | _ => exact ih.trans (List.count_cons_of_ne (by simp)).symm

theorem countP_isMalloc (log : List Access) : log.countP Access.isMalloc = (mallocs log).length := by
  induction log with
  | nil => rfl
  | cons a log ih =>
    cases a with
    | malloc block =>
      show _ = (block :: mallocs log).length
      rw [List.countP_cons_of_pos rfl, List.length_cons, ih]
    | _ => exact ih

/-! ## What hangs from a pointer -/

mutual

/-- The blocks of the nodes and of their arrays. -/
def TypePtr.blocks : TypePtr → List Nat
  | .null => []
  | .static _ => []
  | .node block _ array subtype => block :: (array.toList ++ blocksAll subtype)

def blocksAll : List TypePtr → List Nat
  | [] => []
  | t :: ts => t.blocks ++ blocksAll ts

end

mutual

/-- The blocks that `free_adiak_type` leaves alone: all of a node without a `dtype`, and an array for
no components. -/
def TypePtr.lost : TypePtr → List Nat
  | .null => []
  | .static _ => []
  | .node block info array subtype =>
    if isBasetype info.dtype then block :: (array.toList ++ blocksAll subtype)
    else (match subtype, array with
      | [], some array => [array]
      | _, _ => []) ++ lostAll subtype

def lostAll : List TypePtr → List Nat
  | [] => []
  | t :: ts => t.lost ++ lostAll ts

end

@[simp] theorem blocksAll_append (ts us : List TypePtr) :
    blocksAll (ts ++ us) = blocksAll ts ++ blocksAll us := by
  induction ts with
  | nil => rfl
  | cons t ts ih => rw [List.cons_append, blocksAll, blocksAll, ih, List.append_assoc]

@[simp] theorem lostAll_append (ts us : List TypePtr) :
    lostAll (ts ++ us) = lostAll ts ++ lostAll us := by
  induction ts with
  | nil => rfl
  | cons t ts ih => rw [List.cons_append, lostAll, lostAll, ih, List.append_assoc]

@[simp] theorem blocksAll_replicate_null (n : Nat) : blocksAll (List.replicate n .null) = [] := by
  induction n with
  | zero => rfl
  | succ n ih => rw [List.replicate_succ, blocksAll, ih]; rfl

@[simp] theorem lostAll_replicate_null (n : Nat) : lostAll (List.replicate n .null) = [] := by
  induction n with
  | zero => rfl
  | succ n ih => rw [List.replicate_succ, lostAll, ih]; rfl

/-- `free_adiak_type` releases what hangs from the pointer, but for what is lost. -/
theorem frees_released (t : TypePtr) : (frees t.released ++ t.lost).Perm t.blocks := by
  induction t with
  | null => exact .nil
  | static t =>
    unfold TypePtr.released
    split_ifs <;> exact .nil
  | node block info array subtype ih =>
    have hall : (frees (releasedAll subtype) ++ lostAll subtype).Perm (blocksAll subtype) := by
      induction subtype with
      | nil => exact .nil
      | cons t ts ihts =>
        rw [releasedAll, lostAll, blocksAll, frees_append]
        have ht := ih t List.mem_cons_self
        have hts := ihts fun u hu => ih u (List.mem_cons_of_mem t hu)
        refine List.perm_iff_count.mpr fun b => ?_
        have htb := ht.count_eq b
        have htsb := hts.count_eq b
        simp only [List.count_append] at htb htsb ⊢
        omega
    unfold TypePtr.released TypePtr.lost TypePtr.blocks
    split_ifs
    · exact .rfl
    · refine List.perm_iff_count.mpr fun b => ?_
      have hb := hall.count_eq b
      cases subtype <;> cases array <;>
        simp only [frees_append, frees_free, frees_nil, List.count_append, List.count_cons,
          Option.toList, List.count_nil] at hb ⊢ <;> omega

/-- Releasing a pointer is all requests to release. -/
theorem requests_released (t : TypePtr) : requests t.released = (frees t.released).map .free := by
  have hall : ∀ log : List Access, (∀ a ∈ log, a ∈ t.released) →
      requests log = (frees log).map .free := by
    intro log
    induction log with
    | nil => exact fun _ => rfl
    | cons a log ih =>
      intro hlog
      have htail := ih fun b hb => hlog b (List.mem_cons_of_mem a hb)
      rcases released_cases (hlog a List.mem_cons_self) with rfl | ⟨block, rfl⟩
      · exact htail
      · exact congrArg (Request.free block :: ·) htail
  exact hall _ fun _ h => h

/-! ## What is owed -/

/-- Behind `log`, `added` numbers its blocks on, and has allocated and not released `blocks`. -/
structure Owes (log added : List Access) (blocks : List Nat) : Prop where
  numbered : mallocs added = List.range' (mallocs log).length (mallocs added).length
  accepted : Allocator.run 0 (requests added) = some (blocks : Multiset Nat)
  static : Access.freeStatic ∉ added

section Owes

variable {log added added' : List Access} {blocks blocks' : List Nat}

theorem Owes.perm (h : Owes log added blocks) : (mallocs added).Perm (frees added ++ blocks) := by
  have hbalance := Allocator.run_balance h.accepted
  rw [zero_add] at hbalance
  exact Multiset.coe_eq_coe.mp hbalance

theorem Owes.of_perm (h : Owes log added blocks) (hperm : blocks.Perm blocks') :
    Owes log added blocks' :=
  ⟨h.numbered, by rw [h.accepted, Multiset.coe_eq_coe.mpr hperm], h.static⟩

theorem Owes.append (h : Owes log added blocks) (h' : Owes (log ++ added) added' blocks') :
    Owes log (added ++ added') (blocks ++ blocks') := by
  refine ⟨?_, ?_, fun hmem => (List.mem_append.mp hmem).elim h.static h'.static⟩
  · have hnum := h'.numbered
    rw [mallocs_append, List.length_append] at hnum
    rw [mallocs_append, List.length_append, ← List.range'_append_1, ← h.numbered, ← hnum]
  · have hbehind : Allocator.run 0 (requests added) = some ((blocks : Multiset Nat) + 0) := by
      rw [add_zero, h.accepted]
    rw [requests_append]
    exact Allocator.run_behind hbehind h'.accepted

/-- `added` has released nothing either. -/
structure Owns (log added : List Access) (blocks : List Nat) : Prop extends Owes log added blocks where
  kept : frees added = []

theorem Owns.of_perm (h : Owns log added blocks) (hperm : blocks.Perm blocks') :
    Owns log added blocks' :=
  ⟨h.toOwes.of_perm hperm, h.kept⟩

theorem Owns.append (h : Owns log added blocks) (h' : Owns (log ++ added) added' blocks') :
    Owns log (added ++ added') (blocks ++ blocks') := by
  refine ⟨h.toOwes.append h'.toOwes, ?_⟩
  rw [frees_append, h.kept, h'.kept]
  rfl

theorem Owns.mallocs (h : Owns log added blocks) : (Heap.mallocs added).Perm blocks := by
  have hperm := h.perm
  rwa [h.kept] at hperm

/-- An access that has nothing to do with blocks. -/
def Access.isQuiet : Access → Bool
  | .read _ => true
  | .call _ _ => true
  | _ => false

theorem owns_quiet (log : List Access) (h : ∀ a ∈ added, a.isQuiet = true) : Owns log added [] := by
  have hr : requests added = [] := by
    refine List.filterMap_eq_nil_iff.mpr fun a ha => ?_
    have hq := h a ha
    cases a <;> first | rfl | cases hq
  have hm : mallocs added = [] := congrArg Allocator.mallocs hr
  have hf : frees added = [] := congrArg Allocator.frees hr
  refine ⟨⟨by rw [hm]; rfl, by rw [hr]; rfl, fun hmem => ?_⟩, hf⟩
  cases h _ hmem

theorem owns_malloc (log : List Access) :
    Owns log [.malloc (log.countP Access.isMalloc)] [log.countP Access.isMalloc] := by
  refine ⟨⟨?_, rfl, by simp⟩, rfl⟩
  rw [countP_isMalloc]
  rfl

/-- Releasing a pointer that the owed blocks hang from. -/
theorem Owes.release {t : TypePtr} (h : Owes log added (t.blocks ++ blocks))
    (ht : Access.freeStatic ∉ t.released) : Owes log (added ++ t.released) (t.lost ++ blocks) := by
  have hm : mallocs t.released = [] := by
    unfold mallocs
    rw [requests_released, Allocator.mallocs_map_free]
  refine ⟨?_, ?_, fun hmem => (List.mem_append.mp hmem).elim h.static ht⟩
  · rw [mallocs_append, hm, List.append_nil, ← h.numbered]
  · have hall : ((t.blocks ++ blocks : List Nat) : Multiset Nat) =
        (frees t.released : Multiset Nat) + ((t.lost ++ blocks : List Nat) : Multiset Nat) := by
      rw [Multiset.coe_add, Multiset.coe_eq_coe, ← List.append_assoc]
      exact (frees_released t).symm.append_right blocks
    have haccepted := h.accepted
    rw [hall] at haccepted
    rw [requests_append, requests_released]
    exact Allocator.run_trans haccepted (Allocator.run_frees _ _)

end Owes

/-! ## Released exactly once -/

/-- What is asked of a parse that has failed. -/
structure ReleasedOnce (log : List Access) : Prop where
  once : ∀ block, .malloc block ∈ log → log.count (.free block) = 1
  allocated : ∀ block, .free block ∈ log → .malloc block ∈ log
  static : Access.freeStatic ∉ log

/-- No block is released twice. -/
theorem Owes.count_free_le {log : List Access} {blocks : List Nat} (h : Owes [] log blocks) (block : Nat) :
    log.count (.free block) ≤ 1 := by
  have hnodup : (mallocs log).Nodup := by
    rw [h.numbered]
    exact List.nodup_range'
  have hone := List.nodup_iff_count_le_one.mp hnodup block
  rw [h.perm.count_eq, List.count_append, count_frees] at hone
  omega

/-- A run releases every block exactly once if and only if it owes nothing. -/
theorem Owes.once_iff {log : List Access} {blocks : List Nat} (h : Owes [] log blocks) :
    ReleasedOnce log ↔ blocks = [] := by
  have hsound : Allocator.Sound (requests log) (blocks : Multiset Nat) := by
    refine ⟨h.accepted, ?_⟩
    show (mallocs log).Nodup
    rw [h.numbered]
    exact List.nodup_range'
  constructor
  · intro hreleased
    refine List.eq_nil_iff_forall_not_mem.mpr fun b hb => ?_
    have hmem : .malloc b ∈ requests log :=
      Allocator.mem_mallocs.mp (h.perm.mem_iff.mpr (List.mem_append_right _ hb))
    have honce := hreleased.once b (mem_requests.mp hmem)
    rcases hsound.released_iff hmem with ⟨-, hnot⟩ | ⟨hzero, -⟩
    · exact hnot hb
    · rw [← count_frees] at honce
      exact absurd (hzero.symm.trans honce) (by decide)
  · rintro rfl
    refine ⟨fun b hb => ?_, fun b hb => ?_, h.static⟩
    · rw [← count_frees]
      rcases hsound.released_iff (mem_requests.mpr hb) with ⟨hone, -⟩ | ⟨-, hone⟩
      · exact hone
      · cases hone
    · have hmem : b ∈ frees log := Allocator.mem_frees.mpr (mem_requests.mpr hb)
      have hmalloc := h.perm.mem_iff.mpr (List.mem_append_left [] hmem)
      exact mem_requests.mp (Allocator.mem_mallocs.mp hmalloc)

end Heap

end Adiak
