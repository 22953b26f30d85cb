import Adiak.Store.History
import Adiak.Values.Integers
import Adiak.Values.Recorded

/-!
# Arrays of strings

`adiak_namevalue` on an array of `char *`, as `adiak_cmdline`, `adiak_libraries` and `adiak_hostlist`
hand it over: the loop of `copy_value` counts the bytes of the array in an `int`, which holds
`2 ^ 28` pointers.
-/

namespace Adiak

/-- The array at `p` leads to the strings. -/
def Memory.HoldsStrings (m : Memory) (p : Int) (strs : List CStr) : Prop :=
  ∀ (i : Nat) (hi : i < strs.length), ∃ q, m.loadAddr (p + 8 * i) = .ok q ∧ m.loadCstr q = .ok strs[i]

/-- The bytes of an array of pointers at `base`. -/
def slotBytes (slots : List Addr) (base p : Addr) : Option UInt8 :=
  if p < base then none
  else
    match slots[((p - base) / 8).toNat]? with
    | none => none
    | some slot => some (LittleEndian.byteAt slot ((p - base) % 8).toNat)

/-- Loading a pointer of the array. -/
theorem loadAddr_slot {m : Memory} {slots : List Int} {base q : Int} {i : Nat}
    (hbyte : ∀ p, m.byte p = slotBytes slots base p) (hslot : slots[i]? = some q) (h0 : 0 ≤ q)
    (h : q < 2 ^ 64) : m.loadAddr (base + 8 * i) = .ok q := by
  have hstored : m.StoredAt (base + 8 * i) 8 q := by
    intro k hk
    have hnot : ¬ base + 8 * (i : Int) + k < base := by omega
    have hindex : ((base + 8 * (i : Int) + k - base) / 8).toNat = i := by omega
    have hrest : ((base + 8 * (i : Int) + k - base) % 8).toNat = k := by omega
    rw [hbyte, slotBytes, if_neg hnot, hindex, hrest, hslot]
  obtain ⟨y, hload, hy⟩ := load_of_storedAt hstored
  have hptr : (y : Int) = q := by
    rw [hy]
    exact Int.emod_eq_of_lt h0 h
  unfold Memory.loadAddr
  rw [hload, ok_bind, hptr]

/-- The types `%s` and `%p`. -/
def IsText (t : AdiakDatatype) : Prop := t = baseString ∨ t = basePath

theorem parse_strings (n : Int) : parseTypestr "[%s]".toList [.int n] =
    .ok (.node (containerNode .set false n) [baseString], []) := by
  rw [parseTypestr_of_lt (by decide)]
  rfl

theorem parse_paths (n : Int) : parseTypestr "[%p]".toList [.int n] =
    .ok (.node (containerNode .set false n) [basePath], []) := by
  rw [parseTypestr_of_lt (by decide)]
  rfl

/-- What is recorded for an array of strings. -/
def stringsEvent (name : CStr) (subcategory : Option CStr) (t : AdiakDatatype) (strs : List CStr) :
    Event where
  name := name
  category := adiakGeneral
  subcategory := subcategory
  value := .vSubval (strs.map fun str => .vPtr (.strdup str))
  dtype := .node (containerNode .set false strs.length) [t]

section Loop

variable {m : Memory} {p : Int} {strs : List CStr} {t : AdiakDatatype}

/-- `copy_value` on a pointer to a string. -/
theorem copyValue_text (m : Memory) (p : Addr) (ht : IsText t) :
    copyValue m t p = (do
      let sptr ← m.loadAddr p
      let s ← m.loadCstr sptr
      .ok (.vPtr (.strdup s), 8)) := by
  rcases ht with rfl | rfl
  · rfl
  · rfl

theorem copyValue_element (h : m.HoldsStrings p strs) (ht : IsText t) {i : Nat}
    (hi : i < strs.length) : copyValue m t (p + 8 * i) = .ok (.vPtr (.strdup strs[i]), 8) := by
  obtain ⟨q, hslot, hstring⟩ := h i hi
  rw [copyValue_text m _ ht, hslot, ok_bind, hstring, ok_bind]

/-- The offsets of the array are counted in an `int`, which `2 ^ 28` pointers fill. -/
theorem wrapInt_offset {i : Nat} (hi : i < 2 ^ 28) : wrapInt (8 * i) = 8 * i :=
  wrapInt_of_lt (by omega) (by omega)

theorem wrapInt_next (i : Nat) : wrapInt (wrapInt (8 * i) + 8) = wrapInt (8 * (i + 1 : Nat)) := by
  rw [wrapInt_wrapInt_add]
  congr 1

/-- The loop of `copy_value` over the rest of the array. -/
theorem copyLoop_strings (h : m.HoldsStrings p strs) (ht : IsText t)
    (hlen : strs.length ≤ 2 ^ 28) {n i : Nat} (hn : i + n = strs.length) :
    copyLoop [copyValue m t] false p n 0 (wrapInt (8 * i)) =
      .ok ((strs.drop i).map fun str => .vPtr (.strdup str), wrapInt (8 * strs.length)) := by
  induction n generalizing i with
  | zero =>
    obtain rfl : i = strs.length := by omega
    rw [List.drop_length]
    rfl
  | succ n ih =>
    have hi : i < strs.length := by omega
    have hrec := ih (i := i + 1) (by omega)
    rw [copyLoop, List.getElem?_cons_zero]
    dsimp only
    rw [wrapInt_offset (by omega), copyValue_element h ht hi, ok_bind]
    dsimp only
    rw [if_neg (by decide), if_neg Bool.false_ne_true, ← wrapInt_offset (by omega : i < 2 ^ 28),
      wrapInt_next, hrec, ok_bind, List.drop_eq_getElem_cons hi, List.map_cons]

/-- From `2 ^ 28` strings on, the loop reads in front of the array. -/
theorem copyLoop_strings_error (h : m.HoldsStrings p strs) (ht : IsText t)
    (hfront : m.byte (p + -2 ^ 31) = none) (hlen : 2 ^ 28 < strs.length) {n i : Nat}
    (hn : i + n = strs.length) (hi : i ≤ 2 ^ 28) :
    copyLoop [copyValue m t] false p n 0 (wrapInt (8 * i)) = .error .undefined := by
  induction n generalizing i with
  | zero => omega
  | succ n ih =>
    rw [copyLoop, List.getElem?_cons_zero]
    dsimp only
    rcases Nat.lt_or_eq_of_le hi with hlt | rfl
    · have hrec := ih (i := i + 1) (by omega) hlt
      rw [wrapInt_offset hlt, copyValue_element h ht (by omega), ok_bind]
      dsimp only
      rw [if_neg (by decide), if_neg Bool.false_ne_true, ← wrapInt_offset hlt, wrapInt_next, hrec]
      rfl
    · have hwrap : wrapInt (8 * ((2 ^ 28 : Nat) : Int)) = -2 ^ 31 := by decide
      have haddr : m.loadAddr (p + -2 ^ 31) = .error .undefined := by
        unfold Memory.loadAddr
        rw [Memory.load, hfront]
        rfl
      rw [hwrap, copyValue_text m _ ht, haddr]
      rfl

/-! ## `adiak_namevalue` -/

/-- `adiak_namevalue` on an array, up to the copy. -/
theorem namevalueArgs_set (m : Memory) {typestr : List Char} {n : Nat} (hp : p ≠ 0)
    (htop : toplevelType typestr = .ok .set)
    (hparse : parseTypestr typestr [.int n] = .ok (.node (containerNode .set false n) [t], [])) :
    namevalueArgs m typestr [.ptr p, .int n] =
      match copyLoop [copyValue m t] false p n 0 0 with
      | .ok (vs, _) => .ok (.vSubval vs, .node (containerNode .set false n) [t])
      | .error .null => .ok (.indeterminate, .node (containerNode .set false n) [t])
      | .error e => .error e := by
  have hcopy : copyValue m (.node (containerNode .set false n) [t]) p =
      (copyLoop [copyValue m t] false p n 0 0).map fun r => (.vSubval r.1, r.2) :=
    copyValue_container m [t] p rfl rfl
  have hfetch : fetchArg m .set [.ptr p, .int n] = .ok (⟨.indeterminate, 0, p⟩, [.int n]) := rfl
  have hstore : storeFetched m ⟨.indeterminate, 0, p⟩ (.node (containerNode .set false n) [t]) =
      match copyLoop [copyValue m t] false p n 0 0 with
      | .ok (vs, _) => .ok (.vSubval vs)
      | .error .null => .ok .indeterminate
      | .error e => .error e := by
    unfold storeFetched
    dsimp only
    rw [if_neg (by decide), if_pos hp, if_neg (by exact Bool.false_ne_true), hcopy]
    cases copyLoop [copyValue m t] false p n 0 0 with
    | ok r => rfl
    | error e => cases e <;> rfl
  unfold namevalueArgs
  rw [htop, ok_bind, hfetch, ok_bind]
  dsimp only
  rw [hparse, ok_bind]
  dsimp only
  rw [hstore]
  cases copyLoop [copyValue m t] false p n 0 0 with
  | ok r => rfl
  | error e => cases e <;> rfl

/-- An array that `copy_value` can count is recorded. -/
theorem adiakNamevalue_strings (s : AdiakState) (name : CStr) (subcategory : Option CStr)
    (typestr : List Char) (h : m.HoldsStrings p strs) (ht : IsText t) (hp : p ≠ 0)
    (htop : toplevelType typestr = .ok .set)
    (hparse : parseTypestr typestr [.int strs.length] =
      .ok (.node (containerNode .set false strs.length) [t], []))
    (hlen : strs.length ≤ 2 ^ 28) :
    adiakNamevalue s m name adiakGeneral subcategory typestr [.ptr p, .int strs.length] = (do
      let s ← adiakRawNamevalue s (stringsEvent name subcategory t strs)
      .ok (0, s)) := by
  have hloop := copyLoop_strings h ht hlen (i := 0) (Nat.zero_add _)
  have hargs := namevalueArgs_set m hp htop hparse
  change copyLoop _ _ _ _ _ 0 = _ at hloop
  rw [hloop] at hargs
  unfold adiakNamevalue
  rw [hargs]
  rfl

/-- A longer array is not. -/
theorem adiakNamevalue_strings_error (s : AdiakState) (name : CStr) (category : Int)
    (subcategory : Option CStr) (typestr : List Char) (h : m.HoldsStrings p strs) (ht : IsText t)
    (hp : p ≠ 0) (hfront : m.byte (p + -2 ^ 31) = none) (htop : toplevelType typestr = .ok .set)
    (hparse : parseTypestr typestr [.int strs.length] =
      .ok (.node (containerNode .set false strs.length) [t], []))
    (hlen : 2 ^ 28 < strs.length) :
    adiakNamevalue s m name category subcategory typestr [.ptr p, .int strs.length] =
      .error .undefined := by
  have hloop := copyLoop_strings_error h ht hfront hlen (i := 0) (Nat.zero_add _) (Nat.zero_le _)
  have hargs := namevalueArgs_set m hp htop hparse
  change copyLoop _ _ _ _ _ 0 = _ at hloop
  rw [hloop] at hargs
  unfold adiakNamevalue
  rw [hargs]

end Loop

end Adiak
