import Adiak.Hosts.Hostlist
import Adiak.Hosts.Salts

/-!
# The end of the rounds

The loop of `get_unique_host` goes on until the group of a rank has one name only.

1. `Waits`: a rank in the loop has with it all ranks whose colors were the same so far, and they are all
   at the same operation. `waits_reachable` is the invariant.
2. `index_lt` bounds the rounds if all names are told apart, `leaves_of_bound` is the progress.
3. `loopEnds_iff`: the loop ends on all ranks exactly if no two names are tied.
-/

namespace Adiak

section Rounds

/-- The operations of the loop of `get_unique_host`. -/
def Pc.inLoop : Pc → Bool
  | .split | .bcast | .reduce => true
  | _ => false

variable {n : Nat} (host : Fin n → Hostname)

/-- There is a number of rounds that no rank exceeds in any run, and in every state of a run all ranks
can still leave the loop. -/
def LoopEnds : Prop :=
  ∃ rounds, ∀ s, Reachable host s → (∀ r, (s r).index ≤ rounds) ∧
    ∃ s', Steps host s s' ∧ ∀ r, (s' r).pc.inLoop = false

/-- A rank in the loop and the ranks it waits for. -/
structure Waits (s : RankStates n) (c : Comm n) (r : Fin n) : Prop where
  /-- The group holds the ranks that no round so far has told apart. -/
  tracks : ∀ r', r' ∈ c.group ↔
    ∀ j < c.context, color (host r').short j = color (host r).short j
  together : ∀ r' ∈ c.group, (s r').pc = (s r).pc ∧ (s r').comm (s r').pc = c
  /-- A further round takes place for a second name. -/
  mixed : (s r).pc = .split → c.context ≠ 0 → ∃ r' ∈ c.group, (host r').short ≠ (host r).short

/-- All ranks in the loop wait for their groups. -/
def AllWait (s : RankStates n) : Prop :=
  ∀ r, (s r).pc.inLoop = true → Waits host s ((s r).comm (s r).pc) r

variable {host}

/-! ## The invariant -/

/-- A rank in the loop is in its group, and its index is the round. -/
theorem Good.round {r : Fin n} {st : RankState n} (h : Good host r st) (hloop : st.pc.inLoop = true) :
    Round host (st.comm st.pc) r st := by
  unfold Good at h
  cases hpc : st.pc with
  | split =>
    rw [hpc] at h
    exact h
  | bcast =>
    rw [hpc] at h
    exact h
  | reduce =>
    rw [hpc] at h
    exact h.1
  | _ =>
    rw [hpc] at hloop
    cases hloop

theorem waits_initial : AllWait host fun _ => RankState.initial n := by
  intro r _
  refine ⟨fun r' => ?_, fun r' _ => ⟨rfl, rfl⟩, fun _ h => absurd rfl h⟩
  exact iff_of_true (mem_world r') fun j hj => absurd hj (Nat.not_lt_zero j)

/-- The members of a step take the operation, the others are left alone. -/
theorem Step.members {s s' : RankStates n} (h : Step host s s') : ∃ pc c,
    (∀ r ∈ c.group, (s r).pc = pc ∧ (s r).comm pc = c) ∧
    (∀ r ∈ c.group, s' r = after host s c r) ∧ ∀ r, r ∉ c.group → s' r = s r := by
  cases h with
  | @collective pc c hne hall =>
    exact ⟨pc, c, hall, fun r hr => if_pos hr, fun r hr => if_neg hr⟩

/-- The members of a split, which stay together. -/
theorem waits_afterSplit {s s' : RankStates n} {c : Comm n} (hgood : ∀ r, Good host r (s r))
    (hall : ∀ r ∈ c.group, (s r).pc = .split ∧ (s r).comm .split = c)
    (hnext : ∀ r ∈ c.group, s' r = after host s c r) {r : Fin n} (hr : r ∈ c.group)
    (hwaits : Waits host s c r) : Waits host s' ((s' r).comm (s' r).pc) r := by
  have hafter : ∀ r' ∈ c.group, s' r' = afterSplit host s c r' := fun r' hr' => by
    rw [hnext r' hr']
    unfold after
    rw [(hall r' hr').1]
  have hindex : ∀ r' ∈ c.group, (s r').index = c.context := fun r' hr' => by
    have hround := (hgood r').round (by rw [(hall r' hr').1]; rfl)
    rw [(hall r' hr').1, (hall r' hr').2] at hround
    exact hround.index
  have hmem : ∀ r', r' ∈ (afterSplit host s c r).newcomm.group ↔ r' ∈ c.group ∧
      color (shortName (host r')) (s r').index = color (shortName (host r)) (s r).index :=
    fun r' => Collective.mem_split
  have hcomm : (s' r).comm (s' r).pc = (afterSplit host s c r).newcomm := by
    rw [hafter r hr]
    rfl
  have hcontext : (afterSplit host s c r).newcomm.context = c.context + 1 := rfl
  rw [hcomm]
  refine ⟨fun r' => ?_, fun r' hr' => ?_, fun hpc => ?_⟩
  · -- one more color has to be the same
    rw [hmem, hcontext]
    constructor
    · rintro ⟨hr', hcolor⟩ j hj
      rcases Nat.lt_succ_iff_lt_or_eq.mp hj with hlt | rfl
      · exact (hwaits.tracks r').mp hr' j hlt
      · rwa [hindex r' hr', hindex r hr, shortName_eq, shortName_eq] at hcolor
    · intro h
      have hr' := (hwaits.tracks r').mpr fun j hj => h j (Nat.lt_succ_of_lt hj)
      refine ⟨hr', ?_⟩
      rw [hindex r' hr', hindex r hr, shortName_eq, shortName_eq]
      exact h c.context (Nat.lt_succ_self _)
  · obtain ⟨hr', hcolor⟩ := (hmem r').mp hr'
    rw [hafter r' hr', hafter r hr]
    exact ⟨rfl, congrArg (Comm.mk (c.context + 1)) (Collective.split_congr hcolor)⟩
  · rw [hafter r hr] at hpc
    cases hpc

/-- The members of an operation that stay on its communicator. -/
theorem waits_same {s s' : RankStates n} {c : Comm n} (pc : Pc) {r : Fin n} (hr : r ∈ c.group)
    (hwaits : Waits host s c r) (hnext : ∀ r' ∈ c.group, (s' r').pc = pc ∧ (s' r').comm pc = c)
    (hmixed : pc = .split → c.context ≠ 0 → ∃ r' ∈ c.group, (host r').short ≠ (host r).short) :
    Waits host s' ((s' r).comm (s' r).pc) r := by
  rw [(hnext r hr).1, (hnext r hr).2]
  refine ⟨hwaits.tracks, fun r' hr' => ?_, fun hpc => ?_⟩
  · rw [(hnext r' hr').1, (hnext r hr).1]
    exact ⟨rfl, (hnext r' hr').2⟩
  · rw [(hnext r hr).1] at hpc
    exact hmixed hpc

/-- The end of a round: without a second name, all members leave the loop. -/
theorem waits_afterReduce {s s' : RankStates n} {c : Comm n} (hgood : ∀ r, Good host r (s r))
    (hall : ∀ r ∈ c.group, (s r).pc = .reduce ∧ (s r).comm .reduce = c)
    (hnext : ∀ r ∈ c.group, s' r = after host s c r) {r : Fin n} (hr : r ∈ c.group)
    (hwaits : Waits host s c r) (hloop : (s' r).pc.inLoop = true) :
    Waits host s' ((s' r).comm (s' r).pc) r := by
  have hafter : ∀ r' ∈ c.group, s' r' = afterReduce host s c r' := fun r' hr' => by
    rw [hnext r' hr']
    unfold after
    rw [(hall r' hr').1]
  have hop : AtOp host s c .reduce := fun r' hr' => ⟨(hall r' hr').2, (hall r' hr').1 ▸ hgood r'⟩
  by_cases hland : (Collective.land c.group fun r' => shortName (host r') = (s r').oname) = true
  · rw [hafter r hr] at hloop
    unfold afterReduce at hloop
    rw [if_pos hland] at hloop
    cases hloop
  · refine waits_same .split hr hwaits (fun r' hr' => ?_) fun _ _ => ?_
    · rw [hafter r' hr']
      unfold afterReduce
      rw [if_neg hland]
      exact ⟨rfl, rfl⟩
    · by_contra hsame
      push Not at hsame
      exact hland ((land_iff hop hr).mpr hsame)

/-- Who has left the loop does not come back. -/
theorem after_outside (s : RankStates n) (c : Comm n) {r : Fin n} (h : (s r).pc.inLoop = false) :
    (after host s c r).pc.inLoop = false := by
  unfold after
  cases hpc : (s r).pc with
  | hostSplit =>
    show (if (s r).uniqueHost ≠ 0 then Pc.hostReduce else .bcastLen).inLoop = false
    split_ifs <;> rfl
  | gather =>
    dsimp only
    unfold afterGather
    split_ifs
    · split <;> rfl
    · rfl
  | bcastList =>
    dsimp only
    unfold afterBcastList
    split
    · split_ifs
      · split <;> rfl
      · rfl
    · rfl
  | hostReduce => rfl
  | bcastLen => rfl
  | bcastNum => rfl
  | done => exact h
  | undefined => exact h
  | _ =>
    rw [hpc] at h
    cases h

theorem waits_step {s s' : RankStates n} (hgood : ∀ r, Good host r (s r)) (hwaits : AllWait host s)
    (h : Step host s s') : AllWait host s' := by
  obtain ⟨pc, c, hall, hnext, hrest⟩ := h.members
  intro r hloop
  by_cases hin : (s r).pc.inLoop = true
  · have hw := hwaits r hin
    by_cases hr : r ∈ c.group
    · obtain ⟨hpc, hcomm⟩ := hall r hr
      rw [hpc, hcomm] at hw
      rw [hpc] at hin
      cases pc with
      | split => exact waits_afterSplit hgood hall hnext hr hw
      | bcast =>
        refine waits_same .reduce hr hw (fun r' hr' => ?_) fun hpc => by cases hpc
        rw [hnext r' hr']
        unfold after
        rw [(hall r' hr').1]
        exact ⟨rfl, (hall r' hr').2⟩
      | reduce => exact waits_afterReduce hgood hall hnext hr hw hloop
      | _ => cases hin
    · -- the members of another group wait as before
      have hsame : ∀ r' ∈ ((s r).comm (s r).pc).group, s' r' = s r' := fun r' hr' => by
        refine hrest r' fun hmem => hr ?_
        have hcomm := (hw.together r' hr').2
        rw [(hall r' hmem).1, (hall r' hmem).2] at hcomm
        rw [hcomm]
        exact ((hgood r).round hin).mem
      rw [hrest r hr]
      refine ⟨hw.tracks, fun r' hr' => ?_, fun hpc => ?_⟩
      · rw [hsame r' hr', hrest r hr]
        exact hw.together r' hr'
      · rw [hrest r hr] at hpc
        exact hw.mixed hpc
  · rw [Bool.not_eq_true] at hin
    by_cases hr : r ∈ c.group
    · rw [hnext r hr, after_outside s c hin] at hloop
      cases hloop
    · rw [hrest r hr, hin] at hloop
      cases hloop

theorem waits_reachable {s : RankStates n} (h : Reachable host s) : AllWait host s := by
  induction h with
  | refl => exact waits_initial
  | tail hsteps hstep ih => exact waits_step (good_reachable hsteps) ih hstep

/-! ## The number of rounds -/

/-- The first rounds tell all different names apart. -/
def ToldApart (host : Fin n → Hostname) (rounds : Nat) : Prop :=
  ∀ r r', (host r).short ≠ (host r').short →
    ∃ j < rounds, color (host r).short j ≠ color (host r').short j

theorem exists_toldApart (h : ∀ r r', (host r).short ≠ (host r').short →
      ∃ j, color (host r).short j ≠ color (host r').short j) :
    ∃ rounds, 0 < rounds ∧ ToldApart host rounds := by
  have hpair : ∀ p : Fin n × Fin n, ∃ j, (host p.1).short ≠ (host p.2).short →
      color (host p.1).short j ≠ color (host p.2).short j := by
    intro p
    by_cases hne : (host p.1).short = (host p.2).short
    · exact ⟨0, fun h => absurd hne h⟩
    · obtain ⟨j, hj⟩ := h p.1 p.2 hne
      exact ⟨j, fun _ => hj⟩
  choose round hround using hpair
  refine ⟨Finset.univ.sup round + 1, Nat.succ_pos _, fun r r' hne => ?_⟩
  exact ⟨round (r, r'), Nat.lt_succ_of_le (Finset.le_sup (Finset.mem_univ _)), hround (r, r') hne⟩

/-- A rank that starts a round has not had all rounds yet. -/
theorem index_lt {s : RankStates n} (hreach : Reachable host s) {rounds : Nat} (hpos : 0 < rounds)
    (h : ToldApart host rounds) {r : Fin n} (hpc : (s r).pc = .split) : (s r).index < rounds := by
  have hin : (s r).pc.inLoop = true := by rw [hpc]; rfl
  have hwaits := waits_reachable hreach r hin
  rw [((good_reachable hreach r).round hin).index]
  by_contra hlt
  obtain ⟨r', hr', hname⟩ := hwaits.mixed hpc (by omega)
  obtain ⟨j, hj, hcolor⟩ := h r' r hname
  exact hcolor ((hwaits.tracks r').mp hr' j (by omega))

/-- Only a split counts the round. -/
theorem index_after (s : RankStates n) (c : Comm n) {r : Fin n} (h : (s r).pc ≠ .split) :
    (after host s c r).index = (s r).index := by
  unfold after
  cases hpc : (s r).pc with
  | split => exact absurd hpc h
  | reduce =>
    dsimp only
    unfold afterReduce
    split_ifs <;> rfl
  | gather =>
    dsimp only
    unfold afterGather
    split_ifs
    · split <;> rfl
    · rfl
  | bcastList =>
    dsimp only
    unfold afterBcastList
    split
    · split_ifs
      · split <;> rfl
      · rfl
    · rfl
  | _ => rfl

theorem index_le {s : RankStates n} (hreach : Reachable host s) {rounds : Nat} (hpos : 0 < rounds)
    (h : ToldApart host rounds) (r : Fin n) : (s r).index ≤ rounds := by
  induction hreach with
  | refl => exact Nat.zero_le _
  | @tail s s' hsteps hstep ih =>
    obtain ⟨pc, c, hall, hnext, hrest⟩ := hstep.members
    by_cases hr : r ∈ c.group
    · rw [hnext r hr]
      by_cases hpc : (s r).pc = .split
      · have hindex : (after host s c r).index = (s r).index + 1 := by
          unfold after
          rw [hpc]
          rfl
        rw [hindex]
        exact index_lt hsteps hpos h hpc
      · rw [index_after s c hpc]
        exact ih
    · rw [hrest r hr]
      exact ih

/-! ## Progress -/

/-- The operations of the loop that a rank has in front of it at most. -/
def RankState.left (st : RankState n) (rounds : Nat) : Nat :=
  match st.pc with
  | .split => 3 * (rounds - st.index)
  | .bcast => 3 * (rounds - st.index) + 2
  | .reduce => 3 * (rounds - st.index) + 1
  | _ => 0

/-- An operation of the loop leaves less to do. -/
theorem left_after {s : RankStates n} (c : Comm n) {r : Fin n} {rounds : Nat}
    (hin : (s r).pc.inLoop = true) (hlt : (s r).pc = .split → (s r).index < rounds) :
    (after host s c r).left rounds < (s r).left rounds := by
  unfold after
  cases hpc : (s r).pc with
  | split =>
    have hindex := hlt hpc
    show 3 * (rounds - ((s r).index + 1)) + 2 < (s r).left rounds
    unfold RankState.left
    rw [hpc]
    dsimp only
    omega
  | bcast =>
    show 3 * (rounds - (s r).index) + 1 < (s r).left rounds
    unfold RankState.left
    rw [hpc]
    dsimp only
    omega
  | reduce =>
    have hleft : (s r).left rounds = 3 * (rounds - (s r).index) + 1 := by
      unfold RankState.left
      rw [hpc]
    rw [hleft]
    dsimp only
    unfold afterReduce
    by_cases hland : (Collective.land c.group fun r' => shortName (host r') = (s r').oname) = true
    · rw [if_pos hland]
      exact Nat.succ_pos _
    · rw [if_neg hland]
      exact Nat.lt_succ_self _
  | _ =>
    rw [hpc] at hin
    cases hin

/-- From every state of a run, all ranks leave the loop. -/
theorem leaves {s : RankStates n} (hreach : Reachable host s) {rounds : Nat} (hpos : 0 < rounds)
    (h : ToldApart host rounds) : ∃ s', Steps host s s' ∧ ∀ r, (s' r).pc.inLoop = false := by
  induction hsum : ∑ r, (s r).left rounds using Nat.strong_induction_on generalizing s with
  | _ total ih =>
    by_cases hdone : ∀ r, (s r).pc.inLoop = false
    · exact ⟨s, .refl, hdone⟩
    · push Not at hdone
      obtain ⟨r, hin⟩ := hdone
      rw [Bool.ne_false_iff] at hin
      -- the group of the rank is ready for its operation
      have hwaits := waits_reachable hreach r hin
      have hmem := ((good_reachable hreach r).round hin).mem
      set c := (s r).comm (s r).pc with hc
      set s₁ : RankStates n := fun r' => if r' ∈ c.group then after host s c r' else s r' with hs₁
      have hstep : Step host s s₁ := .collective (List.ne_nil_of_mem hmem) fun r' hr' => by
        obtain ⟨hpc, hcomm⟩ := hwaits.together r' hr'
        rw [hpc] at hcomm
        exact ⟨hpc, hcomm⟩
      have hless : ∀ r' ∈ c.group, (s₁ r').left rounds < (s r').left rounds := fun r' hr' => by
        have hin' : (s r').pc.inLoop = true := by rw [(hwaits.together r' hr').1, hin]
        have hsame : s₁ r' = after host s c r' := if_pos hr'
        rw [hsame]
        exact left_after c hin' (index_lt hreach hpos h)
      have hle : ∀ r' ∈ Finset.univ, (s₁ r').left rounds ≤ (s r').left rounds := fun r' _ => by
        by_cases hr' : r' ∈ c.group
        · exact (hless r' hr').le
        · have hsame : s₁ r' = s r' := if_neg hr'
          rw [hsame]
      have hlt : ∑ r', (s₁ r').left rounds < total :=
        hsum ▸ Finset.sum_lt_sum hle ⟨r, Finset.mem_univ r, hless r hmem⟩
      obtain ⟨s', hsteps, hout⟩ := ih _ hlt (hreach.tail hstep) rfl
      exact ⟨s', hsteps.head hstep, hout⟩

/-! ## Names that are never told apart -/

/-- Two ranks whose names always have one color stay in the loop. -/
theorem stays {r r' : Fin n} (hname : (host r').short ≠ (host r).short)
    (hcolor : ∀ i, color (host r').short i = color (host r).short i) {s : RankStates n}
    (hreach : Reachable host s) : (s r).pc.inLoop = true := by
  induction hreach with
  | refl => rfl
  | @tail s s' hsteps hstep hin =>
    obtain ⟨pc, c, hall, hnext, hrest⟩ := hstep.members
    by_cases hr : r ∈ c.group
    · obtain ⟨hpc, hcomm⟩ := hall r hr
      have hwaits := waits_reachable hsteps r hin
      rw [hpc, hcomm] at hwaits
      rw [hnext r hr]
      unfold after
      rw [hpc] at hin ⊢
      cases pc with
      | split => rfl
      | bcast => rfl
      | reduce =>
        have hop : AtOp host s c .reduce := fun a ha =>
          ⟨(hall a ha).2, (hall a ha).1 ▸ good_reachable hsteps a⟩
        have hland : ¬ (Collective.land c.group fun a => shortName (host a) = (s a).oname) = true :=
          fun hland => hname ((land_iff hop hr).mp hland r' ((hwaits.tracks r').mpr fun j _ => hcolor j))
        dsimp only
        unfold afterReduce
        rw [if_neg hland]
        rfl
      | _ => cases hin
    · rw [hrest r hr]
      exact hin

/-! ## The result -/

theorem not_loopEnds {r r' : Fin n} (hname : (host r).short ≠ (host r').short)
    (htied : Tied (host r).short (host r').short) : ¬ LoopEnds host := by
  rintro ⟨rounds, hends⟩
  obtain ⟨-, s', hsteps, hout⟩ := hends _ .refl
  have hstay := stays hname.symm (fun i => (tied_iff.mp htied i).symm) hsteps
  rw [hout r] at hstay
  cases hstay

/-- The loop of `get_unique_host` ends on all ranks exactly if no two different names are tied. -/
theorem loopEnds_iff : LoopEnds host ↔
    ∀ r r', (host r).short ≠ (host r').short → ¬ Tied (host r).short (host r').short := by
  refine ⟨fun h r r' hname htied => not_loopEnds hname htied h, fun h => ?_⟩
  obtain ⟨rounds, hpos, happart⟩ := exists_toldApart fun r r' hname => by
    by_contra hsame
    push Not at hsame
    exact h r r' hname (tied_iff.mpr hsame)
  exact ⟨rounds, fun s hreach => ⟨index_le hreach hpos happart, leaves hreach hpos happart⟩⟩

/-- Two names with equal hashes in every round. -/
def tiedNames (r : Fin 2) : Hostname :=
  if r = 0 then ⟨"node-0pppp000ppppp00p".toList, by decide, by decide⟩
  else ⟨"node-p00ppppp000pppp0".toList, by decide, by decide⟩

theorem loopEnds_not_always : ¬ ∀ (n : Nat) (host : Fin n → Hostname), LoopEnds host := by
  intro h
  have hname : (tiedNames 0).short ≠ (tiedNames 1).short := by decide
  have htied : Tied (tiedNames 0).short (tiedNames 1).short := .inl (by decide +kernel)
  exact not_loopEnds hname htied (h 2 tiedNames)

end Rounds

end Adiak
