import Adiak.Hosts.NumberedHosts

/-!
# All ranks get the list

1. `Stage`: from the return of `get_unique_host` on, the leaders are at one operation and the others
   wait for them. Each stage has one step, which leads to the next one (`stage_next`).
2. `ends_of_stage`: if the size of the list is an `int`, all runs come to an end at which all ranks have
   the list.
3. `hostlist_iff`: once `get_unique_host` has returned on all ranks, they get the list if and only if
   its size is an `int`.
-/

namespace Adiak

section SameList

variable {n : Nat} (host : Fin n → Hostname)

/-! ## Single steps -/

/-- The step to `s'` is the only one from `s`. -/
def Only (s s' : RankStates n) : Prop := Step host s s' ∧ ∀ t, Step host s t → t = s'

/-- All runs from `s` lead to one end, at which all ranks are done. -/
def Ends (s : RankStates n) : Prop :=
  ∃ e, (∀ t, Steps host s t → Steps host t e) ∧ ∀ r, (e r).pc = .done

variable {host}

/-- All ranks wait for an operation with a member of `c`, which is the next one to take place. -/
theorem only_of_meet {s : RankStates n} {c : Comm n} {pc : Pc} (hne : c.group ≠ [])
    (hall : ∀ r ∈ c.group, (s r).pc = pc ∧ (s r).comm pc = c)
    (hmeet : ∀ r, ∃ r' ∈ ((s r).comm (s r).pc).group, r' ∈ c.group) :
    Only host s fun r => if r ∈ c.group then after host s c r else s r := by
  refine ⟨.collective hne hall, fun t ht => ?_⟩
  cases ht with
  | @collective pc' c' hne' hall' =>
    obtain ⟨r, hr⟩ := List.exists_mem_of_ne_nil _ hne'
    obtain ⟨r', hr', hmem⟩ := hmeet r
    rw [(hall' r hr).1, (hall' r hr).2] at hr'
    have hpc : pc' = pc := (hall' r' hr').1.symm.trans (hall r' hmem).1
    have hcomm : c' = c := by
      rw [← (hall' r' hr').2, ← (hall r' hmem).2, hpc]
    rw [hcomm]

theorem ends_of_only {s s' : RankStates n} (h : Only host s s') (hends : Ends host s') :
    Ends host s := by
  obtain ⟨e, hall, hdone⟩ := hends
  refine ⟨e, fun t ht => ?_, hdone⟩
  rcases Relation.ReflTransGen.cases_head ht with rfl | ⟨t', hstep, hsteps⟩
  · exact (hall s' .refl).head h.1
  · rw [h.2 t' hstep] at hsteps
    exact hall t hsteps

theorem ends_of_done {s : RankStates n} (h : ∀ r, (s r).pc = .done) : Ends host s := by
  refine ⟨s, fun t ht => ?_, h⟩
  rcases Relation.ReflTransGen.cases_head ht with rfl | ⟨t', hstep, -⟩
  · exact .refl
  · cases hstep with
    | @collective pc c hne hall =>
      obtain ⟨r, hr⟩ := List.exists_mem_of_ne_nil _ hne
      have hnull : (s r).comm (s r).pc = c := by rw [(hall r hr).1, (hall r hr).2]
      rw [h r] at hnull
      rw [← hnull] at hr
      cases hr

/-! ## Stages -/

/-- Where the others are while the leaders are at an operation. -/
def Pc.others : Pc → Pc
  | .hostReduce | .gather => .bcastLen
  | pc => pc

/-- The next operation of a leader. -/
def Pc.next : Pc → Pc
  | .hostSplit => .hostReduce
  | .hostReduce => .gather
  | .gather => .bcastLen
  | .bcastLen => .bcastNum
  | .bcastNum => .bcastList
  | .bcastList => .done
  | pc => pc

variable (host)

/-- The leaders are at `pc`, the others wait. -/
def Stage (pc : Pc) (s : RankStates n) : Prop :=
  ∀ r, (s r).pc = if Leads host r then pc else pc.others

variable {host}

theorem Stage.of_all {pc : Pc} (hothers : pc.others = pc) {s : RankStates n} (h : ∀ r, (s r).pc = pc) :
    Stage host pc s := by
  intro r
  rw [hothers, ite_self]
  exact h r

theorem Stage.all {pc : Pc} (hothers : pc.others = pc) {s : RankStates n} (h : Stage host pc s)
    (r : Fin n) : (s r).pc = pc := by
  have hr := h r
  rwa [hothers, ite_self] at hr

/-- An operation of all ranks. -/
theorem only_world {s : RankStates n} {pc : Pc} (r₀ : Fin n) (hothers : pc.others = pc)
    (hcomm : ∀ st : RankState n, st.comm pc = adiakCommunicator n) (hstage : Stage host pc s) :
    Only host s (after host s (adiakCommunicator n)) := by
  have hpc := hstage.all hothers
  have honly : Only host s fun r => if r ∈ (adiakCommunicator n).group
      then after host s (adiakCommunicator n) r else s r :=
    only_of_meet (List.ne_nil_of_mem (mem_world r₀)) (fun r _ => ⟨hpc r, hcomm _⟩)
      fun r => ⟨r, by rw [hpc r, hcomm]; exact mem_world r, mem_world r⟩
  have heq : (fun r => if r ∈ (adiakCommunicator n).group
      then after host s (adiakCommunicator n) r else s r) = after host s (adiakCommunicator n) :=
    funext fun r => if_pos (mem_world r)
  rwa [heq] at honly

/-- An operation of the leaders, whom the others wait for. -/
theorem only_leaders {s : RankStates n} {pc : Pc} (r₀ : Fin n) (hothers : pc.others = .bcastLen)
    (hcomm : ∀ r ∈ leaders host, (s r).comm pc = leadersComm host) (hstage : Stage host pc s) :
    Only host s fun r => if r ∈ leaders host then after host s (leadersComm host) r else s r := by
  have hzero : (⟨0, r₀.pos⟩ : Fin n) ∈ leaders host := mem_leaders.mpr (leads_of_globalRank rfl)
  have hpc : ∀ r ∈ leaders host, (s r).pc = pc := fun r hr =>
    (hstage r).trans (if_pos (mem_leaders.mp hr))
  refine only_of_meet (List.ne_nil_of_mem hzero) (fun r hr => ⟨hpc r hr, hcomm r hr⟩) fun r => ?_
  by_cases hr : r ∈ leaders host
  · rw [hpc r hr, hcomm r hr]
    exact ⟨r, hr, hr⟩
  · have hwait : (s r).pc = .bcastLen := by
      rw [hstage r, if_neg fun h => hr (mem_leaders.mpr h), hothers]
    rw [hwait]
    exact ⟨_, mem_world _, hzero⟩

/-- The stage after an operation of the leaders. -/
theorem stage_of_leaders {s : RankStates n} {pc pc' : Pc} (hothers : pc.others = .bcastLen)
    (hothers' : pc'.others = .bcastLen) (hstage : Stage host pc s)
    (hafter : ∀ r ∈ leaders host, (after host s (leadersComm host) r).pc = pc') :
    Stage host pc' fun r => if r ∈ leaders host then after host s (leadersComm host) r else s r := by
  intro r
  dsimp only
  by_cases hleads : Leads host r
  · have hr := mem_leaders.mpr hleads
    rw [if_pos hr, if_pos hleads, hafter r hr]
  · rw [if_neg (fun hr => hleads (mem_leaders.mp hr)), if_neg hleads, hothers', hstage r,
      if_neg hleads, hothers]

theorem hostcomm_of_good {r : Fin n} {st : RankState n} (hgood : Good host r st)
    (hpc : st.pc.others = .bcastLen ∧ st.pc ≠ .bcastLen) : st.hostcomm = leadersComm host := by
  unfold Good at hgood
  cases hst : st.pc with
  | hostReduce | gather =>
    rw [hst] at hgood
    exact hgood.1
  | bcastLen => exact absurd hst hpc.2
  | _ =>
    rw [hst] at hpc
    cases hpc.1

/-- Where a good rank is when an operation ends that is undefined for long lists. -/
theorem pc_of_listFits (hfits : ListFits host) {r : Fin n} {st : RankState n} (hgood : Good host r st) :
    st.pc ≠ .undefined := by
  intro hpc
  unfold Good at hgood
  rw [hpc] at hgood
  exact hgood hfits

theorem pc_afterGather (s : RankStates n) (c : Comm n) (r : Fin n) :
    (afterGather host s c r).pc = .bcastLen ∨ (afterGather host s c r).pc = .undefined := by
  unfold afterGather
  split
  · split
    · exact .inl rfl
    · exact .inr rfl
  · exact .inl rfl

theorem pc_afterBcastList (s : RankStates n) (c : Comm n) (r : Fin n) :
    (afterBcastList s c r).pc = .done ∨ (afterBcastList s c r).pc = .undefined := by
  unfold afterBcastList
  split
  · split
    · split
      · exact .inl rfl
      · exact .inr rfl
    · exact .inr rfl
  · exact .inr rfl

/-- From the return of `get_unique_host` to the return of `adksys_hostlist`. -/
def Pc.late : Pc → Bool
  | .hostSplit | .hostReduce | .gather | .bcastLen | .bcastNum | .bcastList => true
  | _ => false

/-- Each stage has one step, to the next stage. -/
theorem stage_next (hfits : ListFits host) (r₀ : Fin n) {s : RankStates n} {pc : Pc}
    (hlate : pc.late = true) (hgood : ∀ r, Good host r (s r)) (hstage : Stage host pc s) :
    ∃ s', Only host s s' ∧ Stage host pc.next s' := by
  cases pc with
  | hostSplit =>
    refine ⟨_, only_world r₀ rfl (fun _ => rfl) hstage, fun r => ?_⟩
    have hpc := hstage.all rfl
    have hflag : (s r).uniqueHost = if Leads host r then 1 else 0 := by
      have hr := hgood r
      unfold Good at hr
      rw [hpc r] at hr
      exact hr.1
    unfold after
    rw [hpc r]
    show (if (s r).uniqueHost ≠ 0 then Pc.hostReduce else .bcastLen) = _
    rw [hflag]
    by_cases hleads : Leads host r
    · rw [if_pos hleads, if_pos hleads]
      rfl
    · rw [if_neg hleads, if_neg hleads]
      rfl
  | hostReduce =>
    have hpc : ∀ r ∈ leaders host, (s r).pc = .hostReduce := fun r hr =>
      (hstage r).trans (if_pos (mem_leaders.mp hr))
    have hcomm : ∀ r ∈ leaders host, (s r).comm .hostReduce = leadersComm host := fun r hr =>
      hostcomm_of_good (hgood r) (by rw [hpc r hr]; decide)
    refine ⟨_, only_leaders r₀ rfl hcomm hstage, stage_of_leaders rfl rfl hstage fun r hr => ?_⟩
    unfold after
    rw [hpc r hr]
    rfl
  | gather =>
    have hpc : ∀ r ∈ leaders host, (s r).pc = .gather := fun r hr =>
      (hstage r).trans (if_pos (mem_leaders.mp hr))
    have hcomm : ∀ r ∈ leaders host, (s r).comm .gather = leadersComm host := fun r hr =>
      hostcomm_of_good (hgood r) (by rw [hpc r hr]; decide)
    refine ⟨_, only_leaders r₀ rfl hcomm hstage, stage_of_leaders rfl rfl hstage fun r hr => ?_⟩
    have hafter := good_after (fun r hr => ⟨hpc r hr, hcomm r hr⟩) hgood hr
    have hdefined := pc_of_listFits hfits hafter
    unfold after at hdefined ⊢
    rw [hpc r hr] at hdefined ⊢
    exact (pc_afterGather s _ r).resolve_right hdefined
  | bcastLen =>
    refine ⟨_, only_world r₀ rfl (fun _ => rfl) hstage, .of_all rfl fun r => ?_⟩
    unfold after
    rw [hstage.all rfl r]
    rfl
  | bcastNum =>
    refine ⟨_, only_world r₀ rfl (fun _ => rfl) hstage, .of_all rfl fun r => ?_⟩
    unfold after
    rw [hstage.all rfl r]
    rfl
  | bcastList =>
    have hpc := hstage.all rfl
    refine ⟨_, only_world r₀ rfl (fun _ => rfl) hstage, .of_all rfl fun r => ?_⟩
    have hafter := good_after (fun r _ => ⟨hpc r, rfl⟩) hgood (mem_world r)
    have hdefined := pc_of_listFits hfits hafter
    unfold after at hdefined ⊢
    rw [hpc r] at hdefined ⊢
    exact (pc_afterBcastList s _ r).resolve_right hdefined
  | split | bcast | reduce | done | undefined => cases hlate

theorem ends_of_next (hfits : ListFits host) (r₀ : Fin n) (pc : Pc) (hlate : pc.late = true)
    (hnext : ∀ s, (∀ r, Good host r (s r)) → Stage host pc.next s → Ends host s) {s : RankStates n}
    (hgood : ∀ r, Good host r (s r)) (hstage : Stage host pc s) : Ends host s := by
  obtain ⟨s', honly, hstage'⟩ := stage_next hfits r₀ hlate hgood hstage
  exact ends_of_only honly (hnext s' (good_step hgood honly.1) hstage')

/-- With a size that is an `int`, all ranks return from `adksys_hostlist`. -/
theorem ends_of_stage (hfits : ListFits host) (r₀ : Fin n) {s : RankStates n}
    (hgood : ∀ r, Good host r (s r)) (hstage : Stage host .hostSplit s) : Ends host s := by
  have hdone : ∀ s, (∀ r, Good host r (s r)) → Stage host .done s → Ends host s := fun s _ hs =>
    ends_of_done (hs.all rfl)
  have hbcastList := fun s => ends_of_next (s := s) hfits r₀ .bcastList rfl hdone
  have hbcastNum := fun s => ends_of_next (s := s) hfits r₀ .bcastNum rfl hbcastList
  have hbcastLen := fun s => ends_of_next (s := s) hfits r₀ .bcastLen rfl hbcastNum
  have hgather := fun s => ends_of_next (s := s) hfits r₀ .gather rfl hbcastLen
  have hhostReduce := fun s => ends_of_next (s := s) hfits r₀ .hostReduce rfl hgather
  exact ends_of_next hfits r₀ .hostSplit rfl hhostReduce hgood hstage

/-! ## The list -/

variable (host)

/-- `get_unique_host` has returned `1` on one rank of each name, the lowest one, and `0` on the
others. -/
def UniqueHosts (s : RankStates n) : Prop :=
  (∀ r, (s r).uniqueHost = if Leads host r then 1 else 0) ∧
    ∀ r, ∃! l, (host l).short = (host r).short ∧ (s l).uniqueHost = 1

/-- `adksys_hostlist` has returned one array on all ranks: each name once, with its NUL, in the order
of their lowest ranks. -/
def SameList (s : RankStates n) : Prop :=
  ∃ (list : List Char) (offsets : List Int) (names : List CStr),
    (∀ r, (s r).pc = .done ∧ (s r).hostlist = some list ∧ (s r).hostlistArray = offsets ∧
      (s r).numHosts = names.length) ∧
    names = (leaders host).map (fun r => (host r).short) ∧
    names.Nodup ∧ (∀ r, (host r).short ∈ names) ∧
    List.Forall₂ (fun (offset : Int) name => nul ∉ name ∧
      ∃ i : Nat, offset = i ∧ ∃ rest, list.drop i = name ++ nul :: rest) offsets names

/-- Whatever steps are taken, all ranks get the list. -/
def GivesList (s : RankStates n) : Prop :=
  ∀ s', Steps host s s' → ∃ s'', Steps host s' s'' ∧ SameList host s''

variable {host}

theorem uniqueHosts_of_good {s : RankStates n} (hgood : ∀ r, Good host r (s r))
    (hall : ∀ r, (s r).pc = .hostSplit) : UniqueHosts host s := by
  have hflag : ∀ r, (s r).uniqueHost = if Leads host r then 1 else 0 := fun r => by
    have hr := hgood r
    unfold Good at hr
    rw [hall r] at hr
    exact hr.1
  have hone : ∀ r, (s r).uniqueHost = 1 ↔ Leads host r := fun r => by
    rw [hflag r]
    split_ifs with hleads
    · exact iff_of_true rfl hleads
    · exact iff_of_false (by decide) hleads
  refine ⟨hflag, fun r => ?_⟩
  have ⟨l, hl, hname⟩ : ∃ l ∈ leaders host, (host l).short = (host r).short := exists_leader r
  refine ⟨l, ⟨hname, (hone l).mpr (mem_leaders.mp hl)⟩, fun l' hl' => ?_⟩
  have hleads := (hone l').mp hl'.2
  have heq : (host l').short = (host l).short := hl'.1.trans hname.symm
  rcases lt_trichotomy l' l with hlt | hlt | hlt
  · exact absurd heq (mem_leaders.mp hl l' hlt)
  · exact hlt
  · exact absurd heq.symm (hleads l hlt)

/-- The name of the leader `i` starts at `i * max_hostlen`. -/
theorem drop_packedNames {i : Nat} (hi : i < (leaders host).length) :
    ∃ rest, (packedNames host).drop (i * maxHostlen host) =
      (host (leaders host)[i]).short ++ nul :: rest := by
  have hslot := Collective.gather_slot (fun r hr => (slot_eq hr).1) hi
  obtain ⟨rest, hrest⟩ := (slot_eq (List.getElem_mem hi)).2
  refine ⟨rest ++ (packedNames host).drop (i * maxHostlen host + maxHostlen host), ?_⟩
  rw [← List.take_append_drop (maxHostlen host) ((packedNames host).drop _), List.drop_drop]
  unfold packedNames at hslot ⊢
  rw [hslot, hrest, List.append_assoc, List.cons_append]

/-- Ranks that are done have the list. -/
theorem sameList_of_done {s : RankStates n} (hgood : ∀ r, Good host r (s r))
    (hdone : ∀ r, (s r).pc = .done) : SameList host s := by
  have hhas : ∀ r, ListFits host ∧ Sized host (s r) ∧ (s r).hostlist = some (packedNames host) :=
    fun r => by
      have hr := hgood r
      unfold Good at hr
      rwa [hdone r] at hr
  refine ⟨packedNames host,
    (List.range (leaders host).length).map fun (i : Nat) => wrapInt ((i : Int) * maxHostlen host),
    _, fun r => ⟨hdone r, (hhas r).2.2, ?_, ?_⟩, rfl, nodup_names, fun r => ?_, ?_⟩
  · unfold RankState.hostlistArray
    rw [(hhas r).2.1.1, (hhas r).2.1.2]
  · rw [List.length_map]
    exact (hhas r).2.1.2
  · obtain ⟨l, hl, hname⟩ : ∃ l ∈ leaders host, (host l).short = (host r).short := exists_leader r
    exact List.mem_map.mpr ⟨l, hl, hname⟩
  · refine List.forall₂_iff_get.mpr ⟨by simp, fun i hi hi' => ?_⟩
    rw [List.length_map] at hi'
    simp only [List.get_eq_getElem, List.getElem_map, List.getElem_range]
    have hfits := (hhas (leaders host)[i]).1
    refine ⟨fun hmem => (host _).noNul ((List.takeWhile_prefix _).subset hmem), i * maxHostlen host, ?_,
      drop_packedNames hi'⟩
    -- an offset is less than the size
    have hlt : i * maxHostlen host < 2 ^ 31 := by
      refine lt_of_le_of_lt ?_ hfits
      rw [Nat.mul_comm]
      exact Nat.mul_le_mul_left _ (Nat.le_of_lt hi')
    rw [← Nat.cast_mul]
    exact wrapInt_of_lt (Int.natCast_nonneg _) (by exact_mod_cast hlt)

/-- The list of a job without ranks is empty. -/
theorem listFits_zero (host : Fin 0 → Hostname) : ListFits host := by
  have hnil : leaders host = [] := List.filter_nil
  unfold ListFits
  rw [hnil]
  exact Nat.two_pow_pos 31

/-- Ranks that are done have a list whose size is an `int`. -/
theorem listFits_of_givesList (host : Fin n → Hostname) {s : RankStates n} (h : Reachable host s)
    (hgives : GivesList host s) : ListFits host := by
  rcases Nat.eq_zero_or_pos n with rfl | hpos
  · exact listFits_zero host
  · obtain ⟨s', hsteps, _, _, _, hdone, -⟩ := hgives s .refl
    have hgood := good_steps (good_reachable h) hsteps ⟨0, hpos⟩
    unfold Good at hgood
    rw [(hdone ⟨0, hpos⟩).1] at hgood
    exact hgood.1

theorem givesList_of_listFits (hfits : ListFits host) {s : RankStates n} (h : Reachable host s)
    (hall : ∀ r, (s r).pc = .hostSplit) : GivesList host s := by
  intro s' hsteps
  have hgood := good_steps (good_reachable h) hsteps
  rcases Nat.eq_zero_or_pos n with rfl | hpos
  · exact ⟨s', .refl, sameList_of_done hgood fun r => r.elim0⟩
  · obtain ⟨e, hend, hdone⟩ := ends_of_stage hfits ⟨0, hpos⟩ (good_reachable h) (.of_all rfl hall)
    have hsteps' := hend s' hsteps
    exact ⟨e, hsteps', sameList_of_done (good_steps hgood hsteps') hdone⟩

end SameList

/-- Once `get_unique_host` has returned on all ranks, it has done so with `1` on the lowest rank of each
name, and `adksys_hostlist` gives all ranks the list of the names if and only if the size of the list is
an `int`. -/
theorem hostlist_iff {n : Nat} (host : Fin n → Hostname) (s : RankStates n) (h : Reachable host s)
    (hall : ∀ r, (s r).pc = .hostSplit) :
    UniqueHosts host s ∧ (GivesList host s ↔ ListFits host) :=
  ⟨uniqueHosts_of_good (good_reachable h) hall, listFits_of_givesList host h,
    fun hfits => givesList_of_listFits hfits h hall⟩

/-- Two hosts. -/
theorem hostlist_iff_two :
    ∃ s, Reachable (lettersHost 2) s ∧ UniqueHosts (lettersHost 2) s ∧ GivesList (lettersHost 2) s := by
  have hle : 2 ≤ 26 ^ 6 := by decide
  obtain ⟨s, hreach, hall⟩ := exists_returned (color_injective hle)
  obtain ⟨hunique, hgives⟩ := hostlist_iff (lettersHost 2) s hreach hall
  exact ⟨s, hreach, hunique, hgives.mpr ((listFits_lettersHost hle).mpr (by decide))⟩

/-- `2 ^ 25` hosts with names of 63 characters do not get the list. -/
theorem hostlist_not_always :
    ∃ s, Reachable (lettersHost (2 ^ 25)) s ∧ (∀ r, (s r).pc = .hostSplit) ∧
      ¬ GivesList (lettersHost (2 ^ 25)) s := by
  have hle : 2 ^ 25 ≤ 26 ^ 6 := by decide
  obtain ⟨s, hreach, hall⟩ := exists_returned (color_injective hle)
  refine ⟨s, hreach, hall, fun hgives => ?_⟩
  have hfits := listFits_of_givesList _ hreach hgives
  exact absurd ((listFits_lettersHost hle).mp hfits) (Nat.lt_irrefl _)

end Adiak
