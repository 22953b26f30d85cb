import Adiak.Hosts.Hostlist
import Mathlib.Data.BitVec
import Mathlib.Tactic.IntervalCases
import Mathlib.Tactic.Ring

/-!
# Hosts with numbers

1. If the names of all ranks have different colors, the first round leaves each rank alone, and
   `get_unique_host` returns on all of them (`exists_returned`).
2. `lettersHost` are hosts whose names end in the number of the rank, written with letters. Their
   colors are different (`color_lettersHost`).
3. The names have 63 characters. The list of `2 ^ 25` of them has `2 ^ 31` characters, which is too
   long for an `int` (`listFits_lettersHost`).
-/

namespace Adiak

/-! ## One round -/

section OneRound

variable {n : Nat} {host : Fin n → Hostname}

/-- The first ranks have returned from `get_unique_host`, the others are alone. -/
def Alone (k : Nat) (s : RankStates n) : Prop :=
  ∀ r : Fin n, if (r : Nat) < k then (s r).pc = .hostSplit
    else (s r).pc = .bcast ∧ (s r).newcomm = ⟨1, [r]⟩

theorem split_injective {κ : Type} [DecidableEq κ] {color : Fin n → κ}
    (hinj : Function.Injective color) (r : Fin n) :
    Collective.split (List.finRange n) color globalRank r = [r] := by
  rw [Collective.split_eq ordered_finRange]
  simp only [hinj.eq_iff]
  rw [List.filter_eq, List.count_eq_one_of_mem (List.nodup_finRange n) (List.mem_finRange r)]
  rfl

/-- The first round. -/
theorem exists_alone (hinj : Function.Injective fun r => color (shortName (host r)) 0) (r₀ : Fin n) :
    ∃ s, Reachable host s ∧ Alone 0 s := by
  refine ⟨_, .single (.collective (c := adiakCommunicator n) (List.ne_nil_of_mem (mem_world r₀))
    fun r _ => ⟨rfl, rfl⟩), fun r => ?_⟩
  rw [if_neg (Nat.not_lt_zero _), if_pos (mem_world r)]
  refine ⟨rfl, ?_⟩
  show Comm.mk 1 _ = _
  exact congrArg (Comm.mk 1) (split_injective hinj r)

/-- An operation of one rank. -/
theorem step_single {s : RankStates n} {r : Fin n} {pc : Pc} {context : Nat} (hpc : (s r).pc = pc)
    (hcomm : (s r).comm pc = ⟨context, [r]⟩) :
    ∃ s', Step host s s' ∧ s' r = after host s ⟨context, [r]⟩ r ∧ ∀ r' ≠ r, s' r' = s r' := by
  have hall : ∀ r' ∈ [r], (s r').pc = pc ∧ (s r').comm pc = ⟨context, [r]⟩ := fun r' hr' => by
    rw [List.mem_singleton.mp hr']
    exact ⟨hpc, hcomm⟩
  exact ⟨_, .collective (c := ⟨context, [r]⟩) (List.cons_ne_nil _ _) hall,
    if_pos (List.mem_singleton_self r), fun r' hne => if_neg fun h => hne (List.mem_singleton.mp h)⟩

/-- A rank that is alone finds its own name in `oname`. -/
theorem alone_succ {k : Nat} {s : RankStates n} (h : Alone k s) (hk : k < n) :
    ∃ s', Steps host s s' ∧ Alone (k + 1) s' := by
  have hrank := h ⟨k, hk⟩
  rw [if_neg (Nat.lt_irrefl k)] at hrank
  obtain ⟨hpc, hcomm⟩ := hrank
  obtain ⟨s₁, hbcast, hrank₁, hsame₁⟩ := step_single hpc hcomm
  have hname : s₁ ⟨k, hk⟩ = afterBcast host s ⟨1, [⟨k, hk⟩]⟩ ⟨k, hk⟩ := by
    rw [hrank₁]
    unfold after
    rw [hpc]
  obtain ⟨s₂, hreduce, hrank₂, hsame₂⟩ := step_single (s := s₁) (r := ⟨k, hk⟩)
    (show (s₁ ⟨k, hk⟩).pc = .reduce by rw [hname]; rfl)
    (show (s₁ ⟨k, hk⟩).comm .reduce = ⟨1, [⟨k, hk⟩]⟩ by rw [hname]; exact hcomm)
  refine ⟨s₂, .tail (.single hbcast) hreduce, fun r => ?_⟩
  by_cases hr : r = ⟨k, hk⟩
  · rw [hr, if_pos (Nat.lt_succ_self k), hrank₂]
    have hmatch : Collective.land [⟨k, hk⟩]
        (fun r' => shortName (host r') = (s₁ r').oname) = true := by
      refine List.all_eq_true.mpr fun r' hr' => ?_
      rw [List.mem_singleton.mp hr', hname]
      exact decide_eq_true rfl
    unfold after afterReduce
    rw [hname]
    show (if _ then _ else _ : RankState n).pc = _
    rw [if_pos hmatch]
  · have hne : (r : Nat) ≠ k := fun h => hr (Fin.ext h)
    have hlt : (r : Nat) < k + 1 ↔ (r : Nat) < k := by omega
    rw [hsame₂ r hr, hsame₁ r hr, if_congr hlt rfl rfl]
    exact h r

/-- Names with different colors: `get_unique_host` returns on all ranks. -/
theorem exists_returned (hinj : Function.Injective fun r => color (shortName (host r)) 0) :
    ∃ s, Reachable host s ∧ ∀ r, (s r).pc = .hostSplit := by
  rcases Nat.eq_zero_or_pos n with rfl | hpos
  · exact ⟨_, .refl, fun r => r.elim0⟩
  · have halone : ∀ k ≤ n, ∃ s, Reachable host s ∧ Alone k s := fun k hk => by
      induction k with
      | zero => exact exists_alone hinj ⟨0, hpos⟩
      | succ k ih =>
        obtain ⟨s, hreach, hs⟩ := ih (Nat.le_of_succ_le hk)
        obtain ⟨s', hsteps, hs'⟩ := alone_succ hs hk
        exact ⟨s', hreach.trans hsteps, hs'⟩
    obtain ⟨s, hreach, hs⟩ := halone n le_rfl
    refine ⟨s, hreach, fun r => ?_⟩
    have hr := hs r
    rwa [if_pos r.isLt] at hr

end OneRound

/-! ## Numbered hosts -/

/-- The low digits of a number, with letters. -/
def letters : Nat → Nat → List Char
  | 0, _ => []
  | k + 1, r => letters k (r / 26) ++ [Char.ofNat (97 + r % 26)]

/-- What the letters add to the hash. -/
def lettersHash : Nat → Nat → Nat
  | 0, _ => 0
  | k + 1, r => 33 * lettersHash k (r / 26) + r % 26

/-- Base 33 keeps the digits of base 26 apart. -/
theorem lettersHash_injective {k r r' : Nat} (hr : r < 26 ^ k) (hr' : r' < 26 ^ k)
    (h : lettersHash k r = lettersHash k r') : r = r' := by
  induction k generalizing r r' with
  | zero => omega
  | succ k ih =>
    unfold lettersHash at h
    have hdiv : r / 26 = r' / 26 := ih (Nat.div_lt_of_lt_mul (by rwa [← Nat.pow_succ']))
      (Nat.div_lt_of_lt_mul (by rwa [← Nat.pow_succ'])) (by omega)
    rw [hdiv] at h
    omega

theorem lettersHash_lt (k r : Nat) : lettersHash k r < 33 ^ k := by
  induction k generalizing r with
  | zero => exact Nat.one_pos
  | succ k ih =>
    unfold lettersHash
    have hlt := ih (r / 26)
    rw [Nat.pow_succ]
    omega

theorem length_letters (k r : Nat) : (letters k r).length = k := by
  induction k generalizing r with
  | zero => rfl
  | succ k ih =>
    unfold letters
    rw [List.length_append, ih, List.length_singleton]

theorem toNat_letter (r : Nat) : (Char.ofNat (97 + r % 26)).toNat = 97 + r % 26 := by
  have hvalid : (97 + r % 26).isValidChar := .inl (by omega)
  unfold Char.ofNat
  rw [dif_pos hvalid]
  rfl

theorem mem_letters {k r : Nat} {c : Char} (h : c ∈ letters k r) : 97 ≤ c.toNat := by
  induction k generalizing r with
  | zero => cases h
  | succ k ih =>
    unfold letters at h
    rcases List.mem_append.mp h with h | h
    · exact ih h
    · rw [List.mem_singleton.mp h, toNat_letter]
      exact Nat.le_add_right 97 _

theorem hostnameColor_append (cs : CStr) (c : Char) :
    hostnameColor (cs ++ [c]) 0 = hostnameColor cs 0 * 33 + BitVec.ofInt 32 (signed 1 c.toNat) := by
  unfold hostnameColor
  rw [List.foldl_append, List.foldl_cons, List.foldl_nil]
  generalize List.foldl _ _ cs = hash
  rw [BitVec.shiftLeft_eq_mul_twoPow, show BitVec.twoPow 32 5 = 32 by decide, BitVec.xor_zero]
  ring

/-- The letters add their number to the hash of as many `a`s. -/
theorem hostnameColor_letters (cs : CStr) (k r : Nat) :
    hostnameColor (cs ++ letters k r) 0 =
      hostnameColor (cs ++ List.replicate k 'a') 0 + BitVec.ofNat 32 (lettersHash k r) := by
  induction k generalizing r with
  | zero => exact (BitVec.add_zero _).symm
  | succ k ih =>
    have hletter : BitVec.ofInt 32 (signed 1 (Char.ofNat (97 + r % 26)).toNat) =
        BitVec.ofInt 32 (signed 1 'a'.toNat) + BitVec.ofNat 32 (r % 26) := by
      have hlt : r % 26 < 26 := Nat.mod_lt r (by decide)
      rw [toNat_letter]
      interval_cases r % 26 <;> rfl
    unfold letters lettersHash
    rw [List.replicate_succ', ← List.append_assoc, ← List.append_assoc, hostnameColor_append,
      hostnameColor_append, ih, hletter, BitVec.ofNat_add, BitVec.ofNat_mul,
      show BitVec.ofNat 32 33 = 33 from rfl]
    ring

/-- The text of the host `r`. -/
def lettersText (r : Nat) : CStr := List.replicate 57 'a' ++ letters 6 r

theorem mem_lettersText {r : Nat} {c : Char} (h : c ∈ lettersText r) : 97 ≤ c.toNat := by
  rcases List.mem_append.mp h with h | h
  · rw [List.eq_of_mem_replicate h]
    decide
  · exact mem_letters h

theorem length_lettersText (r : Nat) : (lettersText r).length = 63 := by
  unfold lettersText
  rw [List.length_append, List.length_replicate, length_letters]

/-- Hosts with names of 63 letters. -/
def lettersHost (n : Nat) (r : Fin n) : Hostname where
  text := lettersText r
  length_lt := by rw [length_lettersText]; decide
  noNul := fun h => absurd (mem_lettersText h) (by decide)

theorem short_lettersHost {n : Nat} (r : Fin n) : (lettersHost n r).short = lettersText r := by
  refine List.takeWhile_eq_self_iff.mpr fun c hc => decide_eq_true fun hdot => ?_
  have hge := mem_lettersText hc
  rw [hdot] at hge
  exact absurd hge (by decide)

theorem hostnameColor_lettersText (r : Nat) :
    (hostnameColor (lettersText r) 0).toInt = 330286180 + lettersHash 6 r := by
  have hlt := lettersHash_lt 6 r
  have hzero : hostnameColor (List.replicate 57 'a' ++ List.replicate 6 'a') 0 = 330286180#32 := by
    decide +kernel
  have hnat : (330286180#32 + BitVec.ofNat 32 (lettersHash 6 r)).toNat =
      330286180 + lettersHash 6 r := by
    rw [BitVec.toNat_add, BitVec.toNat_ofNat, BitVec.toNat_ofNat]
    omega
  unfold lettersText
  rw [hostnameColor_letters, hzero, BitVec.toInt_eq_toNat_of_lt (by rw [hnat]; omega), hnat]
  push_cast
  rfl

/-- The colors are the numbers of the ranks, read with base 33. -/
theorem color_lettersText (r : Nat) : color (lettersText r) 0 = 330286180 + lettersHash 6 r := by
  unfold color
  rw [hostnameColor_lettersText, if_neg (by omega)]

theorem color_injective {n : Nat} (hn : n ≤ 26 ^ 6) :
    Function.Injective fun r => color (shortName (lettersHost n r)) 0 := by
  intro r r' h
  dsimp only at h
  rw [shortName_eq, shortName_eq, short_lettersHost, short_lettersHost, color_lettersText,
    color_lettersText] at h
  refine Fin.ext (lettersHash_injective (r.isLt.trans_le hn) (r'.isLt.trans_le hn) ?_)
  omega

/-- All of them lead. -/
theorem leaders_lettersHost {n : Nat} (hn : n ≤ 26 ^ 6) :
    leaders (lettersHost n) = List.finRange n := by
  refine List.filter_eq_self.mpr fun r _ => decide_eq_true fun r' hlt h => ?_
  have heq : r' = r := color_injective hn (by
    dsimp only
    rw [shortName_eq, shortName_eq, h])
  exact absurd heq (ne_of_lt hlt)

theorem maxHostlen_lettersHost {n : Nat} (hn : n ≤ 26 ^ 6) (r : Fin n) :
    maxHostlen (lettersHost n) = 64 := by
  have hlen : ∀ r : Fin n, (lettersHost n r).short.length = 63 := fun r => by
    rw [short_lettersHost, length_lettersText]
  have hle : Collective.maximum (leaders (lettersHost n))
      (fun r => (lettersHost n r).short.length) ≤ 63 :=
    Collective.maximum_le fun r _ => (hlen r).le
  have hge := Collective.le_maximum (fun r => (lettersHost n r).short.length)
    (leaders_lettersHost hn ▸ List.mem_finRange r)
  rw [hlen r] at hge
  unfold maxHostlen
  omega

theorem listFits_lettersHost {n : Nat} (hn : n ≤ 26 ^ 6) :
    ListFits (lettersHost n) ↔ n < 2 ^ 25 := by
  unfold ListFits
  rw [leaders_lettersHost hn, List.length_finRange]
  rcases Nat.eq_zero_or_pos n with rfl | hpos
  · rw [Nat.mul_zero]
    exact iff_of_true (by decide) (by decide)
  · rw [maxHostlen_lettersHost hn ⟨0, hpos⟩]
    omega

end Adiak
