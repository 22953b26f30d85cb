import Adiak.Hosts.UniqueHost
import Adiak.Values.Represents

/-!
# The list that every rank gets

1. `leaders` are the ranks for which `get_unique_host` returns `1`, `packedNames` is the list of their
   names in slots of `maxHostlen` characters.
2. `ListFits` is the condition under which `hostlist_size` is the length of the list.
3. `Good` says of each operation what a rank has when it comes to it. It is kept by every step
   (`good_step`).
-/

namespace Adiak

section Hostlist

variable {n : Nat} (host : Fin n → Hostname)

/-! ## The list -/

/-- The lowest rank of each name. -/
def leaders : List (Fin n) := (List.finRange n).filter fun r => Leads host r

/-- `max_hostlen`: the longest name and its NUL. -/
def maxHostlen : Nat := Collective.maximum (leaders host) (fun r => (host r).short.length) + 1

/-- The slots of the list. -/
def packedNames : List Char :=
  Collective.gather (leaders host) fun r => (nameBuffer (host r)).take (maxHostlen host)

/-- The size of the list is an `int`. -/
def ListFits : Prop := maxHostlen host * (leaders host).length < 2 ^ 31

/-- `hostcomm` of the leaders. -/
def leadersComm : Comm n where
  context := 1
  group := leaders host

/-- `hostlist_size`. -/
def listSize : Int := wrapInt ((maxHostlen host : Int) * (leaders host).length)

variable {host}

theorem mem_leaders {r : Fin n} : r ∈ leaders host ↔ Leads host r := by
  unfold leaders
  rw [List.mem_filter, decide_eq_true_eq]
  exact and_iff_right (List.mem_finRange r)

theorem ordered_leaders : Collective.Ordered globalRank (leaders host) :=
  ordered_finRange.filter _

/-- Every name has a lowest rank. -/
theorem exists_leader (r : Fin n) : ∃ l ∈ leaders host, (host l).short = (host r).short := by
  induction hk : (r : Nat) using Nat.strong_induction_on generalizing r with
  | _ k ih =>
    by_cases hleads : Leads host r
    · exact ⟨r, mem_leaders.mpr hleads, rfl⟩
    · unfold Leads at hleads
      push Not at hleads
      obtain ⟨r', hlt, heq⟩ := hleads
      obtain ⟨l, hl, hname⟩ := ih r' (hk ▸ hlt) r' rfl
      exact ⟨l, hl, hname.trans heq⟩

/-- No two leaders have one name. -/
theorem nodup_names : ((leaders host).map fun r => (host r).short).Nodup := by
  refine List.Nodup.map_on (fun a ha b hb heq => ?_) ((List.nodup_finRange n).filter _)
  rcases lt_trichotomy a b with hlt | rfl | hlt
  · exact absurd heq (mem_leaders.mp hb a hlt)
  · rfl
  · exact absurd heq.symm (mem_leaders.mp ha b hlt)

theorem maxHostlen_le : maxHostlen host ≤ maxHostnameLen := by
  refine Nat.succ_le_of_lt (lt_of_le_of_lt (Collective.maximum_le fun r _ => ?_)
    (Nat.sub_lt (by decide : 0 < maxHostnameLen) Nat.one_pos))
  exact Nat.le_sub_one_of_lt (length_short _)

/-- The buffer of a leader, cut to the length of a slot. -/
theorem slot_eq {r : Fin n} (hr : r ∈ leaders host) :
    ((nameBuffer (host r)).take (maxHostlen host)).length = maxHostlen host ∧
      ∃ rest, (nameBuffer (host r)).take (maxHostlen host) = (host r).short ++ nul :: rest := by
  have hle := Collective.le_maximum (fun r => (host r).short.length) hr
  exact nameBuffer_take _ (Nat.lt_succ_of_le hle) maxHostlen_le

theorem length_packedNames :
    (packedNames host).length = maxHostlen host * (leaders host).length := by
  unfold packedNames
  rw [Collective.length_gather fun r hr => (slot_eq hr).1, Nat.mul_comm]

/-- The rank `0` is a leader. -/
theorem leads_of_globalRank {r : Fin n} (h : globalRank r = 0) : Leads host r := by
  intro r' hlt
  have hzero : (r : Nat) = 0 := Int.ofNat_eq_zero.mp h
  exact absurd (Fin.lt_def.mp hlt) (by omega)

/-- The root of `hostcomm` is the rank `0` of `adiak_communicator`. -/
theorem rank_leaders {r : Fin n} (hr : r ∈ leaders host) :
    Collective.rank (leaders host) r = 0 ↔ globalRank r = 0 := by
  rw [Collective.rank_eq_zero_iff ordered_leaders hr]
  constructor
  · intro hle
    have hzero := hle ⟨0, r.pos⟩ (mem_leaders.mpr (leads_of_globalRank rfl))
    exact Int.le_antisymm hzero (Int.natCast_nonneg _)
  · intro h r' _
    rw [h]
    exact Int.natCast_nonneg _

theorem exists_root_world (r : Fin n) :
    ∃ root : Fin n, (adiakCommunicator n).group.head? = some root ∧ globalRank root = 0 := by
  obtain ⟨root, -, hhead, hle⟩ := ordered_finRange.exists_root (List.mem_finRange r)
  refine ⟨root, hhead, ?_⟩
  have hzero := hle ⟨0, r.pos⟩ (List.mem_finRange _)
  exact Int.le_antisymm hzero (Int.natCast_nonneg _)

/-! ## Blocks -/

theorem writeFront_malloc {data : List Char} {size : Int} (hsize : size = data.length) :
    writeFront (mallocChars size) data = some data := by
  unfold mallocChars
  rw [if_neg (by omega)]
  unfold writeFront
  rw [hsize, Int.toNat_natCast]
  dsimp only
  rw [if_pos (by rw [List.length_replicate]), List.drop_eq_nil_of_le (by rw [List.length_replicate]),
    List.append_nil]

theorem writeFront_malloc_none {data : List Char} {size : Int} (hsize : size < data.length) :
    writeFront (mallocChars size) data = none := by
  unfold mallocChars
  by_cases hneg : size < 0
  · rw [if_pos hneg]
    rfl
  · rw [if_neg hneg]
    unfold writeFront
    dsimp only
    rw [List.length_replicate, if_neg (by omega)]

theorem writeFront_self (data : List Char) : writeFront (some data) data = some data := by
  unfold writeFront
  dsimp only
  rw [if_pos le_rfl, List.drop_length, List.append_nil]

theorem listSize_of_listFits (h : ListFits host) : listSize host = (packedNames host).length := by
  unfold listSize
  rw [length_packedNames, Nat.cast_mul]
  exact wrapInt_of_lt (by exact_mod_cast Nat.zero_le _) (by exact_mod_cast h)

theorem listSize_lt (h : ¬ ListFits host) : listSize host < (packedNames host).length := by
  have hlarge : 2 ^ 31 ≤ maxHostlen host * (leaders host).length := not_lt.mp h
  have hwrap : listSize host < 2 ^ 31 := by
    unfold listSize wrapInt
    exact Int.bmod_lt (by decide)
  rw [length_packedNames]
  exact hwrap.trans_le (by exact_mod_cast hlarge)

/-- Gathering the names into the block that was allocated for them. -/
theorem writeFront_list (host : Fin n → Hostname) :
    (ListFits host ∧ writeFront (mallocChars (listSize host)) (packedNames host) =
        some (packedNames host)) ∨
      (¬ ListFits host ∧ writeFront (mallocChars (listSize host)) (packedNames host) = none) := by
  by_cases hfits : ListFits host
  · exact .inl ⟨hfits, writeFront_malloc (listSize_of_listFits hfits)⟩
  · exact .inr ⟨hfits, writeFront_malloc_none (listSize_lt hfits)⟩

/-! ## What a rank has -/

variable (host)

/-- A rank in a round: the communicator of its operation, and no list yet. -/
structure Round (comm : Comm n) (r : Fin n) (st : RankState n) : Prop where
  closed : Closed host comm.group
  mem : r ∈ comm.group
  index : st.index = comm.context
  noList : st.hostlist = none

/-- The sizes of the list. -/
def Sized (st : RankState n) : Prop :=
  st.maxHostlen = maxHostlen host ∧ st.numHosts = (leaders host).length

/-- What a rank has when it comes to an operation. -/
def Has (r : Fin n) (st : RankState n) : Pc → Prop
  | .split => Round host st.oldcomm r st
  | .bcast => Round host st.newcomm r st
  | .reduce => Round host st.newcomm r st ∧
      ∀ root, st.newcomm.group.head? = some root → st.oname = (host root).short
  | .hostSplit => st.uniqueHost = (if Leads host r then 1 else 0) ∧ st.hostlist = none
  | .hostReduce => st.hostcomm = leadersComm host ∧ st.hostlist = none
  | .gather => st.hostcomm = leadersComm host ∧ Sized host st ∧
      st.hostlist = if globalRank r = 0 then mallocChars (listSize host) else none
  | .bcastLen =>
      (globalRank r = 0 → ListFits host ∧ Sized host st) ∧
      st.hostlist = if globalRank r = 0 then some (packedNames host) else none
  | .bcastNum => ListFits host ∧ st.maxHostlen = maxHostlen host ∧
      (globalRank r = 0 → st.numHosts = (leaders host).length) ∧
      st.hostlist = if globalRank r = 0 then some (packedNames host) else none
  | .bcastList => ListFits host ∧ Sized host st ∧
      st.hostlist = if globalRank r = 0 then some (packedNames host)
        else mallocChars (listSize host)
  | .done => ListFits host ∧ Sized host st ∧ st.hostlist = some (packedNames host)
  | .undefined => ¬ ListFits host

/-- What a rank has where it is. -/
def Good (r : Fin n) (st : RankState n) : Prop := Has host r st st.pc

/-- All members of a communicator are at an operation on it, with what they have there. -/
def AtOp (s : RankStates n) (c : Comm n) (pc : Pc) : Prop :=
  ∀ r ∈ c.group, (s r).comm pc = c ∧ Has host r (s r) pc

variable {host}

/-! ## Rounds -/

theorem good_afterSplit {s : RankStates n} {c : Comm n} (hop : AtOp host s c .split) {r : Fin n}
    (hr : r ∈ c.group) : Good host r (afterSplit host s c r) := by
  have hround : ∀ r' ∈ c.group, (s r').oldcomm = c ∧ Round host c r' (s r') := fun r' hr' => by
    obtain ⟨hcomm, hround⟩ := hop r' hr'
    have hold : (s r').oldcomm = c := hcomm
    exact ⟨hold, hold ▸ hround⟩
  obtain ⟨-, hclosed, -, -, hlist⟩ := hround r hr
  -- all members are in the same round
  have hcolor : ∀ r' ∈ c.group, color (shortName (host r')) (s r').index =
      color (host r').short c.context := fun r' hr' => by
    rw [shortName_eq, (hround r' hr').2.index]
  have hnew : Closed host (afterSplit host s c r).newcomm.group :=
    hclosed.split (f := fun str => color str c.context) hcolor r
  have hround' : Round host (afterSplit host s c r).newcomm r (afterSplit host s c r) :=
    ⟨hnew, Collective.mem_split.mpr ⟨hr, rfl⟩, congrArg (· + 1) (hround r hr).2.index, hlist⟩
  exact hround'

theorem good_afterBcast {s : RankStates n} {c : Comm n} (hop : AtOp host s c .bcast) {r : Fin n}
    (hr : r ∈ c.group) : Good host r (afterBcast host s c r) := by
  obtain ⟨hcomm, hround⟩ := hop r hr
  have hnew : (s r).newcomm = c := hcomm
  have hround : Round host (s r).newcomm r (s r) := hround
  refine (⟨⟨hround.closed, hround.mem, hround.index, hround.noList⟩, fun root hroot => ?_⟩ :
    Has host r (afterBcast host s c r) .reduce)
  have hhead : c.group.head? = some root := hnew ▸ hroot
  show (Collective.bcast c.group fun r' => shortName (host r')).getD [] = _
  rw [Collective.bcast_of_head hhead, Option.getD_some, shortName_eq]

/-- The round has found one name only. -/
theorem land_iff {s : RankStates n} {c : Comm n} (hop : AtOp host s c .reduce) {r : Fin n}
    (hr : r ∈ c.group) :
    (Collective.land c.group fun r' => shortName (host r') = (s r').oname) = true ↔
      ∀ r' ∈ c.group, (host r').short = (host r).short := by
  have hround : ∀ r' ∈ c.group, Round host c r' (s r') ∧
      ∀ root, c.group.head? = some root → (s r').oname = (host root).short := fun r' hr' => by
    obtain ⟨hcomm, hround⟩ := hop r' hr'
    have hnew : (s r').newcomm = c := hcomm
    exact hnew ▸ hround
  obtain ⟨root, hmem, hroot, -⟩ := (hround r hr).1.closed.ordered.exists_root hr
  have hname : ∀ r' ∈ c.group, (s r').oname = (host root).short := fun r' hr' =>
    (hround r' hr').2 root hroot
  unfold Collective.land
  rw [List.all_eq_true]
  constructor
  · intro hmatch
    have hall : ∀ r' ∈ c.group, (host r').short = (host root).short := fun r' hr' => by
      have heq := hmatch r' hr'
      rwa [decide_eq_true_eq, shortName_eq, hname r' hr'] at heq
    exact fun r' hr' => (hall r' hr').trans (hall r hr).symm
  · intro hall r' hr'
    rw [decide_eq_true_eq, shortName_eq, hname r' hr', hall r' hr', hall root hmem]

theorem good_afterReduce {s : RankStates n} {c : Comm n} (hop : AtOp host s c .reduce) {r : Fin n}
    (hr : r ∈ c.group) : Good host r (afterReduce host s c r) := by
  have hround : Round host c r (s r) := by
    obtain ⟨hcomm, hround⟩ := hop r hr
    have hnew : (s r).newcomm = c := hcomm
    exact hnew ▸ hround.1
  obtain ⟨hclosed, -, hindex, hlist⟩ := hround
  unfold afterReduce
  by_cases hmatch : (Collective.land c.group fun r' => shortName (host r') = (s r').oname) = true
  · rw [if_pos hmatch]
    have hname := (land_iff hop hr).mp hmatch
    have hlowest : (if Collective.rank c.group r = 0 then (1 : Int) else 0) =
        if Leads host r then 1 else 0 := if_congr (hclosed.rank_eq_zero_iff hr hname) rfl rfl
    exact ⟨hlowest, hlist⟩
  · rw [if_neg hmatch]
    have hround' : Round host c r { s r with pc := .split, oldcomm := c } :=
      ⟨hclosed, hr, hindex, hlist⟩
    exact hround'

/-! ## The list -/

theorem mem_world (r : Fin n) : r ∈ (adiakCommunicator n).group := List.mem_finRange r

theorem good_afterHostSplit {s : RankStates n} (hop : AtOp host s (adiakCommunicator n) .hostSplit)
    (r : Fin n) : Good host r (afterHostSplit s (adiakCommunicator n) r) := by
  have hflag : ∀ r', (s r').uniqueHost = if Leads host r' then 1 else 0 := fun r' =>
    (hop r' (mem_world r')).2.1
  have hlist : (s r).hostlist = none := (hop r (mem_world r)).2.2
  unfold Good
  by_cases hleads : Leads host r
  · have hone : (s r).uniqueHost = 1 := by rw [hflag, if_pos hleads]
    have hpc : (afterHostSplit s (adiakCommunicator n) r).pc = .hostReduce :=
      if_pos (by rw [hone]; decide)
    rw [hpc]
    refine ⟨congrArg (Comm.mk 1) ?_, hlist⟩
    refine (Collective.split_eq ordered_finRange _ r).trans (List.filter_congr fun r' _ => ?_)
    rw [hone, hflag]
    by_cases hleads' : Leads host r' <;> simp [hleads']
  · have hzero : (s r).uniqueHost = 0 := by rw [hflag, if_neg hleads]
    have hpc : (afterHostSplit s (adiakCommunicator n) r).pc = .bcastLen :=
      if_neg (not_not.mpr hzero)
    rw [hpc]
    have hne : globalRank r ≠ 0 := fun h => hleads (leads_of_globalRank h)
    refine ⟨fun h => absurd h hne, ?_⟩
    rw [if_neg hne]
    exact hlist

theorem good_afterHostReduce {s : RankStates n} {c : Comm n} (hop : AtOp host s c .hostReduce)
    {r : Fin n} (hr : r ∈ c.group) : Good host r (afterHostReduce host s c r) := by
  obtain ⟨hcomm, hhost, hlist⟩ := hop r hr
  have hcomm : (s r).hostcomm = c := hcomm
  have hgroup : c.group = leaders host := congrArg Comm.group (hcomm.symm.trans hhost)
  have hmax : Collective.maximum c.group (fun r' => (shortName (host r')).length) + 1 =
      maxHostlen host := by
    simp only [shortName_eq, hgroup]
    rfl
  have hnum : c.group.length = (leaders host).length := congrArg List.length hgroup
  have hlist' : (afterHostReduce host s c r).hostlist =
      if globalRank r = 0 then mallocChars (listSize host) else none := by
    unfold afterHostReduce RankState.hostlistSize
    dsimp only
    rw [hmax, hnum, hlist]
    rfl
  have hgood : Has host r (afterHostReduce host s c r) .gather :=
    ⟨hhost, ⟨hmax, hnum⟩, hlist'⟩
  exact hgood

theorem good_afterGather {s : RankStates n} {c : Comm n} (hop : AtOp host s c .gather)
    {r : Fin n} (hr : r ∈ c.group) : Good host r (afterGather host s c r) := by
  have hhas : ∀ r' ∈ c.group, c.group = leaders host ∧ Sized host (s r') ∧
      (s r').hostlist = if globalRank r' = 0 then mallocChars (listSize host) else none :=
    fun r' hr' => by
      obtain ⟨hcomm, hhost, hrest⟩ := hop r' hr'
      have hcomm : (s r').hostcomm = c := hcomm
      exact ⟨congrArg Comm.group (hcomm.symm.trans hhost), hrest⟩
  obtain ⟨hgroup, hsized, hlist⟩ := hhas r hr
  have hdata : (Collective.gather c.group fun r' =>
      (nameBuffer (host r')).take (s r').maxHostlen) = packedNames host := by
    unfold packedNames
    rw [← hgroup]
    exact Collective.gather_congr fun r' hr' => by rw [(hhas r' hr').2.1.1]
  have hrank := rank_leaders (hgroup ▸ hr)
  rw [← hgroup] at hrank
  unfold afterGather
  rw [hdata]
  by_cases hroot : globalRank r = 0
  · rw [if_pos (hrank.mpr hroot), hlist, if_pos hroot]
    have hlists := writeFront_list host
    cases hlists with
    | inl h =>
      rw [h.2]
      have hgood : Has host r
          { s r with pc := .bcastLen, hostlist := some (packedNames host) } .bcastLen :=
        ⟨fun _ => ⟨h.1, hsized⟩, (if_pos hroot).symm⟩
      exact hgood
    | inr h =>
      rw [h.2]
      have hgood : Has host r { s r with pc := .undefined } .undefined := h.1
      exact hgood
  · rw [if_neg (fun h => hroot (hrank.mp h))]
    rw [if_neg hroot] at hlist
    have hgood : Has host r { s r with pc := .bcastLen } .bcastLen :=
      ⟨fun h => absurd h hroot, hlist.trans (if_neg hroot).symm⟩
    exact hgood

/-- What rank `0` hands out. -/
theorem exists_bcast_world (r : Fin n) : ∃ root : Fin n, globalRank root = 0 ∧
    ∀ {α : Type} (value : Fin n → α),
      Collective.bcast (adiakCommunicator n).group value = some (value root) := by
  obtain ⟨root, hroot, hzero⟩ := exists_root_world r
  exact ⟨root, hzero, Collective.bcast_of_head hroot⟩

theorem good_afterBcastLen {s : RankStates n} (hop : AtOp host s (adiakCommunicator n) .bcastLen)
    (r : Fin n) : Good host r (afterBcastLen s (adiakCommunicator n) r) := by
  obtain ⟨root, hzero, hbcast⟩ := exists_bcast_world r
  obtain ⟨hfits, hsized⟩ := (hop root (mem_world root)).2.1 hzero
  obtain ⟨hroot, hlist⟩ := (hop r (mem_world r)).2
  have hlen : (afterBcastLen s (adiakCommunicator n) r).maxHostlen = maxHostlen host := by
    show (Collective.bcast _ _).getD 0 = _
    rw [hbcast, Option.getD_some, hsized.1]
  have hgood : Has host r (afterBcastLen s (adiakCommunicator n) r) .bcastNum :=
    ⟨hfits, hlen, fun h => (hroot h).2.2, hlist⟩
  exact hgood

theorem good_afterBcastNum {s : RankStates n} (hop : AtOp host s (adiakCommunicator n) .bcastNum)
    (r : Fin n) : Good host r (afterBcastNum s (adiakCommunicator n) r) := by
  obtain ⟨root, hzero, hbcast⟩ := exists_bcast_world r
  have hnum := (hop root (mem_world root)).2.2.2.1 hzero
  obtain ⟨hfits, hlen, -, hlist⟩ := (hop r (mem_world r)).2
  have hnum' : (afterBcastNum s (adiakCommunicator n) r).numHosts = (leaders host).length := by
    show (Collective.bcast _ _).getD 0 = _
    rw [hbcast, Option.getD_some, hnum]
  have hlist' : (afterBcastNum s (adiakCommunicator n) r).hostlist =
      if globalRank r = 0 then some (packedNames host) else mallocChars (listSize host) := by
    unfold afterBcastNum RankState.hostlistSize
    dsimp only
    rw [hbcast, Option.getD_some, hnum, hlen, hlist]
    by_cases hroot : globalRank r = 0
    · rw [if_pos hroot, if_pos hroot, Option.some_or]
    · rw [if_neg hroot, if_neg hroot, Option.none_or]
      rfl
  have hgood : Has host r (afterBcastNum s (adiakCommunicator n) r) .bcastList :=
    ⟨hfits, ⟨hlen, hnum'⟩, hlist'⟩
  exact hgood

theorem good_afterBcastList {s : RankStates n}
    (hop : AtOp host s (adiakCommunicator n) .bcastList) (r : Fin n) :
    Good host r (afterBcastList s (adiakCommunicator n) r) := by
  obtain ⟨root, hzero, hbcast⟩ := exists_bcast_world r
  have hdata := (hop root (mem_world root)).2.2.2
  rw [if_pos hzero] at hdata
  obtain ⟨hfits, hsized, hlist⟩ := (hop r (mem_world r)).2
  have hsize : (s r).hostlistSize = (packedNames host).length := by
    rw [← listSize_of_listFits hfits]
    unfold RankState.hostlistSize
    rw [hsized.1, hsized.2]
    rfl
  have hwrite : writeFront (s r).hostlist (packedNames host) = some (packedNames host) := by
    rw [hlist]
    split_ifs
    · exact writeFront_self _
    · exact writeFront_malloc (listSize_of_listFits hfits)
  unfold afterBcastList
  rw [hbcast, hdata, hsize, Int.toNat_natCast]
  dsimp only
  rw [if_pos le_rfl, List.take_length, hwrite]
  have hgood : Has host r { s r with pc := .done, hostlist := some (packedNames host) } .done :=
    ⟨hfits, hsized, rfl⟩
  exact hgood

/-! ## Runs -/

/-- Every member of a communicator comes to its next operation with what it has to have there. -/
theorem good_after {s : RankStates n} {c : Comm n} {pc : Pc}
    (hall : ∀ r ∈ c.group, (s r).pc = pc ∧ (s r).comm pc = c) (hgood : ∀ r, Good host r (s r))
    {r : Fin n} (hr : r ∈ c.group) : Good host r (after host s c r) := by
  have hop : AtOp host s c pc := fun r' hr' => ⟨(hall r' hr').2, (hall r' hr').1 ▸ hgood r'⟩
  obtain ⟨hpc, hcomm⟩ := hall r hr
  unfold after
  rw [hpc]
  cases pc with
  | split => exact good_afterSplit hop hr
  | bcast => exact good_afterBcast hop hr
  | reduce => exact good_afterReduce hop hr
  | hostReduce => exact good_afterHostReduce hop hr
  | gather => exact good_afterGather hop hr
  | hostSplit =>
    obtain rfl : adiakCommunicator n = c := hcomm
    exact good_afterHostSplit hop r
  | bcastLen =>
    obtain rfl : adiakCommunicator n = c := hcomm
    exact good_afterBcastLen hop r
  | bcastNum =>
    obtain rfl : adiakCommunicator n = c := hcomm
    exact good_afterBcastNum hop r
  | bcastList =>
    obtain rfl : adiakCommunicator n = c := hcomm
    exact good_afterBcastList hop r
  | done => exact hgood r
  | undefined => exact hgood r

theorem good_step {s s' : RankStates n} (hgood : ∀ r, Good host r (s r)) (h : Step host s s') :
    ∀ r, Good host r (s' r) := by
  intro r
  cases h with
  | @collective pc c hne hall =>
    dsimp only
    split_ifs with hr
    · exact good_after hall hgood hr
    · exact hgood r

theorem good_steps {s s' : RankStates n} (hgood : ∀ r, Good host r (s r)) (h : Steps host s s') :
    ∀ r, Good host r (s' r) := by
  induction h with
  | refl => exact hgood
  | tail _ hstep ih => exact good_step ih hstep

theorem good_initial (r : Fin n) : Good host r (RankState.initial n) := by
  have hround : Round host (adiakCommunicator n) r (RankState.initial n) :=
    ⟨closed_finRange, mem_world r, rfl, rfl⟩
  exact hround

/-- Every rank of a job has what it has to have where it is. -/
theorem good_reachable {s : RankStates n} (h : Reachable host s) (r : Fin n) :
    Good host r (s r) := good_steps good_initial h r

end Hostlist

end Adiak
