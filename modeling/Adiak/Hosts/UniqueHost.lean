import Adiak.Hosts.Protocol
import Mathlib.Data.List.TakeWhile
import Mathlib.Data.List.FinRange

/-!
# One rank for each host

1. `Hostname.short` is the name in front of the first dot, `Leads` the ranks that are the lowest of
   their name.
2. `Closed`: a group holds all ranks of the names in it. A split keeps this, since the color of a
   round depends on the name only (`Closed.split`).
3. A round with one name in it has found all ranks of the name (`Closed.rank_eq_zero_iff`).
-/

namespace Adiak

/-! ## Names -/

/-- The name in front of the first dot. -/
def Hostname.short (h : Hostname) : CStr := h.text.takeWhile (· ≠ '.')

theorem findIdx?_append_cons {p : Char → Bool} {pre post : List Char} {c : Char}
    (hpre : ∀ d ∈ pre, p d = false) (hc : p c = true) :
    (pre ++ c :: post).findIdx? p = some pre.length := by
  rw [List.findIdx?_append, List.findIdx?_eq_none_iff.mpr hpre, List.findIdx?_cons, hc,
    if_pos rfl, Option.none_or, Option.map_some, Nat.zero_add]

/-- The buffer holds the short name, with a NUL behind it. -/
theorem nameBuffer_eq (h : Hostname) : ∃ rest, nameBuffer h = h.short ++ nul :: rest ∧
    (nameBuffer h).length = maxHostnameLen := by
  obtain ⟨text, hlen, hnul⟩ := h
  have hzeros : maxHostnameLen - text.length = (maxHostnameLen - text.length - 1) + 1 := by omega
  have hlength : (text ++ List.replicate (maxHostnameLen - text.length) nul).length =
      maxHostnameLen := by
    rw [List.length_append, List.length_replicate]
    omega
  have hdot : ∀ c ∈ text.takeWhile (· ≠ '.'), c ≠ '.' := fun c hc => by
    simpa using List.mem_takeWhile_imp hc
  have hsplit := List.takeWhile_append_dropWhile (p := (· ≠ '.')) (l := text)
  unfold nameBuffer Hostname.short
  dsimp only
  cases hpost : text.dropWhile (· ≠ '.') with
  | nil =>
    rw [hpost, List.append_nil] at hsplit
    have hfind : (text ++ List.replicate (maxHostnameLen - text.length) nul).findIdx? (· = '.') =
        none := by
      refine List.findIdx?_eq_none_iff.mpr fun c hc => ?_
      rcases List.mem_append.mp hc with hc | hc
      · rw [← hsplit] at hc
        exact decide_eq_false (hdot c hc)
      · rw [List.eq_of_mem_replicate hc]
        decide
    rw [hfind, hsplit]
    refine ⟨List.replicate (maxHostnameLen - text.length - 1) nul, ?_, hlength⟩
    dsimp only
    rw [← List.replicate_succ, ← hzeros]
  | cons c post =>
    obtain rfl : c = '.' := by
      have hc := List.head?_dropWhile_not (· ≠ '.') text
      rw [hpost] at hc
      simpa using hc
    rw [hpost] at hsplit
    have hname : text ++ List.replicate (maxHostnameLen - text.length) nul =
        text.takeWhile (· ≠ '.') ++
          '.' :: (post ++ List.replicate (maxHostnameLen - text.length) nul) := by
      rw [← List.cons_append, ← List.append_assoc, hsplit]
    rw [hname] at hlength ⊢
    rw [findIdx?_append_cons (fun c hc => decide_eq_false (hdot c hc)) (decide_eq_true rfl)]
    refine ⟨post ++ List.replicate (maxHostnameLen - text.length) nul, ?_, ?_⟩
    · dsimp only
      rw [List.set_append_right _ _ le_rfl, Nat.sub_self, List.set_cons_zero]
    · dsimp only
      rw [List.length_set, hlength]

theorem shortName_eq (h : Hostname) : shortName h = h.short := by
  obtain ⟨rest, hname, -⟩ := nameBuffer_eq h
  unfold shortName
  rw [hname]
  exact cStr_append_nul fun hmem => h.noNul ((List.takeWhile_prefix _).subset hmem)

theorem length_short (h : Hostname) : h.short.length < maxHostnameLen :=
  (List.takeWhile_prefix _).length_le.trans_lt h.length_lt

/-- The front of the buffer, if it is long enough for the short name. -/
theorem nameBuffer_take (h : Hostname) {w : Nat} (hw : h.short.length < w) (hmax : w ≤ maxHostnameLen) :
    ((nameBuffer h).take w).length = w ∧ ∃ rest, (nameBuffer h).take w = h.short ++ nul :: rest := by
  obtain ⟨rest, hname, hlen⟩ := nameBuffer_eq h
  refine ⟨by rw [List.length_take, hlen]; omega, rest.take (w - h.short.length - 1), ?_⟩
  have hw' : w - h.short.length = (w - h.short.length - 1) + 1 := by omega
  rw [hname, List.take_append, List.take_of_length_le (Nat.le_of_lt hw), hw', List.take_succ_cons,
    Nat.add_sub_cancel]

/-! ## Groups -/

section Groups

variable {n : Nat} (host : Fin n → Hostname)

/-- The rank is the lowest of its name. -/
def Leads (r : Fin n) : Prop := ∀ r' < r, (host r').short ≠ (host r).short

instance : DecidablePred (Leads host) := fun r =>
  inferInstanceAs (Decidable (∀ r' < r, (host r').short ≠ (host r).short))

/-- The group holds all ranks of the names in it, in order. -/
structure Closed (group : List (Fin n)) : Prop where
  ordered : Collective.Ordered globalRank group
  closed : ∀ r ∈ group, ∀ r', (host r').short = (host r).short → r' ∈ group

variable {host}

theorem ordered_finRange : Collective.Ordered globalRank (List.finRange n) :=
  (List.pairwise_lt_finRange n).imp fun h => Int.ofNat_lt.mpr h

theorem closed_finRange : Closed host (List.finRange n) where
  ordered := ordered_finRange
  closed := fun _ _ r' _ => List.mem_finRange r'

/-- Ranks of one name get one color and stay together. -/
theorem Closed.split {κ : Type} [DecidableEq κ] {group : List (Fin n)} (h : Closed host group)
    {color : Fin n → κ} {f : CStr → κ} (hcolor : ∀ r ∈ group, color r = f (host r).short)
    (r : Fin n) : Closed host (Collective.split group color globalRank r) where
  ordered := h.ordered.split color r
  closed := fun a ha b hab => by
    obtain ⟨hmem, heq⟩ := Collective.mem_split.mp ha
    have hb := h.closed a hmem b hab
    refine Collective.mem_split.mpr ⟨hb, ?_⟩
    rw [hcolor b hb, hab, ← hcolor a hmem, heq]

/-- In a group with one name, the rank `0` is the lowest of the name. -/
theorem Closed.rank_eq_zero_iff {group : List (Fin n)} (h : Closed host group) {r : Fin n}
    (hr : r ∈ group) (hname : ∀ r' ∈ group, (host r').short = (host r).short) :
    Collective.rank group r = 0 ↔ Leads host r := by
  rw [Collective.rank_eq_zero_iff h.ordered hr]
  constructor
  · intro hle r' hlt heq
    have hle' := Int.ofNat_le.mp (hle r' (h.closed r hr r' heq))
    exact absurd (Fin.lt_def.mp hlt) (not_lt.mpr hle')
  · intro hleads r' hr'
    refine Int.ofNat_le.mpr (not_lt.mp fun hlt => ?_)
    exact hleads r' hlt (hname r' hr')

end Groups

end Adiak
