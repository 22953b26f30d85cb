import Adiak.Collect.CollectAll
import Adiak.Hosts.Rounds
import Adiak.Hosts.SameList

/-!
# The ranks of a job

Each rank calls `adiak_hostlist` and `adiak_num_hosts` when and as often as it likes. Its first call takes
part in the operations of `adksys_hostlist`, and waits in them for the calls of the other ranks. Later calls
return what the first one has left in the static variables.

1. `JobStep` interleaves the calls of all ranks with the operations and with what the ranks do besides.
2. `calling_reachable`: who is at an operation is in a call. `entered_of_done`: no rank has the list before
   all ranks have called.
3. `job_records`: every call that returns has recorded the hosts of the job.
4. `job_ends_iff`: when the calls of all ranks can return.
-/

namespace Adiak

/-- The routines that ask for the hosts. -/
inductive HostRoutine
  | hostlist
  | numHosts
deriving DecidableEq

def HostRoutine.run : HostRoutine → AdiakState → Option StringArray → Except Stop (Int × AdiakState)
  | .hostlist => adiakHostlist
  | .numHosts => adiakNumHosts

/-- What a routine records. -/
def HostRoutine.event (names : List CStr) : HostRoutine → Event
  | .hostlist => stringsEvent "hostlist".toList (some "host".toList) baseString names
  | .numHosts => scalarEvent "numhosts".toList "mpi".toList baseUint (.vInt names.length)

/-- The string that starts at `i`, if it ends. -/
def nameAt (list : List Char) (i : Nat) : Option CStr :=
  if nul ∈ list.drop i then some (cStr (list.drop i)) else none

/-- `adksys_hostlist` has returned the array `a`, which leads into the list at `block`. -/
def Returned {n : Nat} (st : RankState n) (a : StringArray) : Prop :=
  ∃ list block, st.hostlist = some list ∧ a.slots = st.hostlistArray.map (fun offset => block + offset) ∧
    ∀ i : Nat, a.text (block + i) = nameAt list i

/-- A job: `adksys_hostlist` on each rank, the routine that a rank is in, and its library. -/
structure Job (n : Nat) where
  ranks : RankStates n
  call : Fin n → Option HostRoutine
  states : Fin n → AdiakState

/-- A job before any call. -/
def Job.start {n : Nat} (states : Fin n → AdiakState) : Job n where
  ranks := fun _ => RankState.initial n
  call := fun _ => none
  states := states

section Job

variable {n : Nat} (host : Fin n → Hostname)

inductive JobStep (J : Job n) : Job n → Prop
  /-- A rank calls a routine. -/
  | enter {r : Fin n} {routine : HostRoutine} (hfree : J.call r = none)
    (hmpi : (J.states r).config.useMpi = true) :
    JobStep J { J with call := Function.update J.call r (some routine) }
  /-- The members of a communicator, all of them in a call, take the operation at which they are. -/
  | collective {pc : Pc} {c : Comm n} (hne : c.group ≠ [])
    (hcall : ∀ r ∈ c.group, J.call r ≠ none)
    (hall : ∀ r ∈ c.group, (J.ranks r).pc = pc ∧ (J.ranks r).comm pc = c) :
    JobStep J { J with ranks := fun r => if r ∈ c.group then after host J.ranks c r else J.ranks r }
  /-- A call returns. -/
  | leave {r : Fin n} {routine : HostRoutine} {a : StringArray} {result : Int} {s' : AdiakState}
    (hcall : J.call r = some routine) (hdone : (J.ranks r).pc = .done) (ha : Returned (J.ranks r) a)
    (hrun : routine.run (J.states r) (some a) = .ok (result, s')) :
    JobStep J { J with
      call := Function.update J.call r none, states := Function.update J.states r s' }
  /-- A rank does something else. -/
  | other {r : Fin n} {s' : AdiakState} (hfree : J.call r = none) :
    JobStep J { J with states := Function.update J.states r s' }

abbrev JobSteps : Job n → Job n → Prop := Relation.ReflTransGen (JobStep host)

def JobReachable (J : Job n) : Prop := ∃ states, JobSteps host (.start states) J

/-- The call of the rank `r` returns. -/
def Leaves (r : Fin n) (routine : HostRoutine) (J J' : Job n) : Prop :=
  JobStep host J J' ∧ J.call r = some routine ∧ J'.call r = none

/-- The rank has called one of the routines. -/
def Job.Entered (J : Job n) (r : Fin n) : Prop := J.call r ≠ none ∨ (J.ranks r).pc = .done

variable {host}

/-! ## Runs -/

/-- The steps of a job are steps of the protocol, or leave it alone. -/
theorem JobStep.ranks {J J' : Job n} (h : JobStep host J J') :
    J'.ranks = J.ranks ∨ Step host J.ranks J'.ranks := by
  cases h with
  | enter | leave | other => exact .inl rfl
  | collective hne hcall hall => exact .inr (.collective hne hall)

theorem JobSteps.ranks {J J' : Job n} (h : JobSteps host J J') : Steps host J.ranks J'.ranks := by
  induction h with
  | refl => exact .refl
  | tail _ hstep ih =>
    rcases hstep.ranks with hsame | hstep
    · rw [hsame]
      exact ih
    · exact ih.tail hstep

theorem JobReachable.ranks {J : Job n} (h : JobReachable host J) : Reachable host J.ranks := by
  obtain ⟨states, hsteps⟩ := h
  exact hsteps.ranks

/-- A rank that is in no call has not begun, or is done. In a call, it uses MPI. -/
def Calling (J : Job n) : Prop :=
  ∀ r, (J.call r = none → J.ranks r = RankState.initial n ∨ (J.ranks r).pc = .done) ∧
    (J.call r ≠ none → (J.states r).config.useMpi = true)

theorem calling_step {J J' : Job n} (h : Calling J) (hstep : JobStep host J J') : Calling J' := by
  intro r'
  obtain ⟨hfree', hmpi'⟩ := h r'
  cases hstep with
  | @enter r routine hfree hmpi =>
    by_cases hr : r' = r
    · subst hr
      refine ⟨fun hnone => ?_, fun _ => hmpi⟩
      dsimp only at hnone
      rw [Function.update_self] at hnone
      cases hnone
    · dsimp only
      rw [Function.update_of_ne hr]
      exact ⟨hfree', hmpi'⟩
  | @collective pc c hne hcall hall =>
    refine ⟨fun hnone => ?_, hmpi'⟩
    have hout : r' ∉ c.group := fun hr => hcall r' hr hnone
    dsimp only
    rw [if_neg hout]
    exact hfree' hnone
  | @leave r routine a result s' hcall hdone ha hrun =>
    by_cases hr : r' = r
    · subst hr
      refine ⟨fun _ => .inr hdone, fun hsome => ?_⟩
      dsimp only at hsome
      rw [Function.update_self] at hsome
      exact absurd rfl hsome
    · dsimp only
      rw [Function.update_of_ne hr, Function.update_of_ne hr]
      exact ⟨hfree', hmpi'⟩
  | @other r s' hfree =>
    by_cases hr : r' = r
    · subst hr
      exact ⟨hfree', fun hsome => absurd hfree hsome⟩
    · dsimp only
      rw [Function.update_of_ne hr]
      exact ⟨hfree', hmpi'⟩

theorem calling_reachable {J : Job n} (h : JobReachable host J) : Calling J := by
  obtain ⟨states, hsteps⟩ := h
  induction hsteps with
  | refl => exact fun r => ⟨fun _ => .inl rfl, fun h => absurd rfl h⟩
  | tail _ hstep ih => exact calling_step ih hstep

/-! ## The first operation -/

/-- The first operation is one of all ranks. -/
theorem index_reachable {s : RankStates n} (h : Reachable host s) :
    (∀ r, s r = RankState.initial n) ∨ ∀ r, 0 < (s r).index := by
  induction h with
  | refl => exact .inl fun _ => rfl
  | @tail s s' hsteps hstep ih =>
    obtain ⟨pc, c, hall, hnext, hrest⟩ := hstep.members
    rcases ih with hinit | hpos
    · -- a member of the group brings in all ranks
      by_cases hgroup : ∃ r, r ∈ c.group
      · obtain ⟨r₀, hr₀⟩ := hgroup
        obtain ⟨hpc, hcomm⟩ := hall r₀ hr₀
        rw [hinit r₀] at hpc hcomm
        subst hpc
        obtain rfl : adiakCommunicator n = c := hcomm
        refine .inr fun r => ?_
        rw [hnext r (mem_world r)]
        unfold after
        rw [hinit r]
        exact Nat.succ_pos _
      · push Not at hgroup
        exact .inl fun r => (hrest r (hgroup r)).trans (hinit r)
    · refine .inr fun r => ?_
      by_cases hr : r ∈ c.group
      · rw [hnext r hr]
        by_cases hpc : (s r).pc = .split
        · unfold after
          rw [hpc]
          exact Nat.succ_pos _
        · rw [index_after s c hpc]
          exact hpos r
      · rw [hrest r hr]
        exact hpos r

/-- No rank has the list before all ranks have called. -/
theorem entered_of_done {J : Job n} (h : JobReachable host J) {r : Fin n}
    (hdone : (J.ranks r).pc = .done) (r' : Fin n) : J.Entered r' := by
  have hpos : 0 < (J.ranks r').index := by
    rcases index_reachable h.ranks with hinit | hpos
    · rw [hinit r] at hdone
      cases hdone
    · exact hpos r'
  by_cases hcall : J.call r' = none
  · rcases (calling_reachable h r').1 hcall with hinit | hdone'
    · rw [hinit] at hpos
      exact absurd hpos (Nat.lt_irrefl 0)
    · exact .inr hdone'
  · exact .inl hcall

/-! ## What is recorded -/

variable (host) in
/-- The hosts of the job, in the order of their lowest ranks. -/
def hostNames : List CStr := (leaders host).map fun r => (host r).short

theorem has_done {r : Fin n} {st : RankState n} (hgood : Good host r st) (hdone : st.pc = .done) :
    ListFits host ∧ Sized host st ∧ st.hostlist = some (packedNames host) := by
  unfold Good at hgood
  rwa [hdone] at hgood

/-- The name of a leader, where its slot in the list starts. -/
theorem nameAt_packedNames {i : Nat} (hi : i < (leaders host).length) :
    nameAt (packedNames host) (i * maxHostlen host) = some (host (leaders host)[i]).short := by
  obtain ⟨rest, hdrop⟩ := drop_packedNames hi
  have hnul : nul ∉ (host (leaders host)[i]).short := fun hmem =>
    (host _).noNul ((List.takeWhile_prefix _).subset hmem)
  unfold nameAt
  rw [hdrop, if_pos (List.mem_append_right _ List.mem_cons_self), cStr_append_nul hnul]

/-- The start of a slot is an `int`. -/
theorem wrapInt_slot (hfits : ListFits host) {i : Nat} (hi : i < (leaders host).length) :
    wrapInt ((i : Int) * maxHostlen host) = (i * maxHostlen host : Nat) := by
  have hlt : i * maxHostlen host < 2 ^ 31 := by
    refine lt_of_le_of_lt ?_ hfits
    rw [Nat.mul_comm]
    exact Nat.mul_le_mul_left _ (Nat.le_of_lt hi)
  rw [← Nat.cast_mul]
  exact wrapInt_of_lt (Int.natCast_nonneg _) (by exact_mod_cast hlt)

/-- What a rank that is done returns leads to the names of the hosts. -/
theorem Returned.strings {r : Fin n} {st : RankState n} {a : StringArray} (ha : Returned st a)
    (hgood : Good host r st) (hdone : st.pc = .done) : a.strings = hostNames host := by
  obtain ⟨hfits, ⟨hmax, hnum⟩, hlist⟩ := has_done hgood hdone
  obtain ⟨list, block, hlist', hslots, htext⟩ := ha
  obtain rfl : packedNames host = list := Option.some.inj (hlist.symm.trans hlist')
  unfold StringArray.strings hostNames
  rw [hslots]
  unfold RankState.hostlistArray
  rw [hnum, hmax]
  apply List.ext_getElem
  · simp
  · intro i hi hi'
    rw [List.length_map] at hi'
    simp only [List.getElem_map, List.getElem_range]
    rw [wrapInt_slot hfits hi', htext, nameAt_packedNames hi']
    rfl

theorem length_slots_of_strings {a : StringArray} {names : List CStr} (h : a.strings = names) :
    a.slots.length = names.length := by
  rw [← h]
  exact (List.length_map _).symm

/-- A routine that uses MPI and returns has recorded its array. -/
theorem HostRoutine.records {routine : HostRoutine} {s s' : AdiakState} {a : StringArray} {result : Int}
    (hmpi : s.config.useMpi = true) (hrun : routine.run s (some a) = .ok (result, s')) :
    adiakRawNamevalue s (routine.event a.strings) = .ok s' ∧ result = 0 := by
  have houtcome : outcome s (some [routine.event a.strings]) = .ok (result, s') := by
    cases routine with
    | numHosts =>
      rw [← hrun]
      show _ = adiakNumHosts s (some a)
      rw [adiakNumHosts_outcome, hmpi]
      show outcome s (some [scalarEvent _ _ _ (.vInt a.strings.length)]) =
        outcome s (some [scalarEvent _ _ _ (.vInt a.slots.length)])
      rw [length_slots_of_strings rfl]
    | hostlist =>
      have harray := adiakNamevalue_array s "hostlist".toList "host".toList a "[%s]".toList (.inl rfl)
        rfl (parse_strings _)
      have hquery : mpiQuery s (some a) = some a := if_pos hmpi
      change adiakHostlist s (some a) = _ at hrun
      unfold adiakHostlist at hrun
      rw [hquery] at hrun
      dsimp only at hrun
      rw [if_pos a.base_ne, harray] at hrun
      split_ifs at hrun
      exact hrun
  rw [outcome_singleton] at houtcome
  cases hraw : adiakRawNamevalue s (routine.event a.strings) with
  | error e =>
    rw [hraw] at houtcome
    cases houtcome
  | ok s₁ =>
    rw [hraw] at houtcome
    obtain ⟨rfl, rfl⟩ := Prod.mk.inj (Except.ok.inj houtcome)
    exact ⟨rfl, rfl⟩

/-! ## When all calls can return -/

/-- All ranks are in the loop or have left it together, or they are at a later stage. -/
def InPhase (host : Fin n → Hostname) (s : RankStates n) : Prop :=
  (∀ r, (s r).pc.inLoop = true ∨ (s r).pc = .hostSplit) ∨
    ∃ pc, (pc.late = true ∨ pc = .done) ∧ Stage host pc s

theorem inLoop_after (s : RankStates n) (c : Comm n) {r : Fin n} (h : (s r).pc.inLoop = true) :
    (after host s c r).pc.inLoop = true ∨ (after host s c r).pc = .hostSplit := by
  unfold after
  cases hpc : (s r).pc with
  | split => exact .inl rfl
  | bcast => exact .inl rfl
  | reduce =>
    dsimp only
    unfold afterReduce
    by_cases hland : (Collective.land c.group fun r' => shortName (host r') = (s r').oname) = true
    · rw [if_pos hland]
      exact .inr rfl
    · rw [if_neg hland]
      exact .inl rfl
  | _ =>
    rw [hpc] at h
    cases h

theorem late_next {pc : Pc} (h : pc.late = true) : pc.next.late = true ∨ pc.next = .done := by
  cases pc with
  | hostSplit | hostReduce | gather | bcastLen | bcastNum => exact .inl rfl
  | bcastList => exact .inr rfl
  | split | bcast | reduce | done | undefined => cases h

/-- The ranks at a stage take its step. -/
theorem inPhase_of_stage (hfits : ListFits host) (r₀ : Fin n) {s s' : RankStates n} {pc : Pc}
    (hlate : pc.late = true) (hgood : ∀ r, Good host r (s r)) (hstage : Stage host pc s)
    (hstep : Step host s s') : InPhase host s' := by
  obtain ⟨s'', honly, hnext⟩ := stage_next hfits r₀ hlate hgood hstage
  rw [honly.2 s' hstep]
  exact .inr ⟨pc.next, late_next hlate, hnext⟩

theorem inPhase_step (hfits : ListFits host) (r₀ : Fin n) {s s' : RankStates n}
    (hgood : ∀ r, Good host r (s r)) (h : InPhase host s) (hstep : Step host s s') :
    InPhase host s' := by
  rcases h with hloop | ⟨pc, hlate | rfl, hstage⟩
  · by_cases hall : ∀ r, (s r).pc = .hostSplit
    · exact inPhase_of_stage hfits r₀ rfl hgood (.of_all rfl hall) hstep
    · obtain ⟨pc, c, hmembers, hnext, hrest⟩ := hstep.members
      refine .inl fun r => ?_
      by_cases hr : r ∈ c.group
      · rw [hnext r hr]
        refine inLoop_after s c ((hloop r).resolve_right fun hsplit => hall fun r' => ?_)
        -- a rank that has left the loop waits for all ranks
        obtain ⟨hpc, hcomm⟩ := hmembers r hr
        rw [hsplit] at hpc
        subst hpc
        obtain rfl : adiakCommunicator n = c := hcomm
        exact (hmembers r' (mem_world r')).1
      · rw [hrest r hr]
        exact hloop r
  · exact inPhase_of_stage hfits r₀ hlate hgood hstage hstep
  · have hdone := hstage.all rfl
    cases hstep with
    | @collective pc c hne hall =>
      obtain ⟨r, hr⟩ := List.exists_mem_of_ne_nil _ hne
      obtain ⟨hpc, hcomm⟩ := hall r hr
      rw [hdone r] at hpc
      subst hpc
      rw [← hcomm] at hr
      cases hr

theorem inPhase_reachable (hfits : ListFits host) (r₀ : Fin n) {s : RankStates n}
    (h : Reachable host s) : InPhase host s := by
  induction h with
  | refl => exact .inl fun _ => .inl rfl
  | tail hsteps hstep ih => exact inPhase_step hfits r₀ (good_reachable hsteps) ih hstep

/-- From every stage, all ranks return. -/
theorem ends_of_late (hfits : ListFits host) (r₀ : Fin n) {s : RankStates n} {pc : Pc}
    (hlate : pc.late = true ∨ pc = .done) (hgood : ∀ r, Good host r (s r)) (hstage : Stage host pc s) :
    Ends host s := by
  have hdone : ∀ s, (∀ r, Good host r (s r)) → Stage host .done s → Ends host s := fun s _ hs =>
    ends_of_done (hs.all rfl)
  have hbcastList := fun s => @ends_of_next n host hfits r₀ .bcastList rfl hdone s
  have hbcastNum := fun s => @ends_of_next n host hfits r₀ .bcastNum rfl hbcastList s
  have hbcastLen := fun s => @ends_of_next n host hfits r₀ .bcastLen rfl hbcastNum s
  have hgather := fun s => @ends_of_next n host hfits r₀ .gather rfl hbcastLen s
  have hhostReduce := fun s => @ends_of_next n host hfits r₀ .hostReduce rfl hgather s
  rcases hlate with hlate | rfl
  · cases pc with
    | hostSplit => exact ends_of_stage hfits r₀ hgood hstage
    | hostReduce => exact hhostReduce s hgood hstage
    | gather => exact hgather s hgood hstage
    | bcastLen => exact hbcastLen s hgood hstage
    | bcastNum => exact hbcastNum s hgood hstage
    | bcastList => exact hbcastList s hgood hstage
    | split | bcast | reduce | done | undefined => cases hlate
  · exact hdone s hgood hstage

/-- From every state of the protocol, all ranks can get the list. -/
theorem exists_done (hfits : ListFits host) {rounds : Nat} (hpos : 0 < rounds)
    (hnames : ToldApart host rounds) {s : RankStates n} (h : Reachable host s) :
    ∃ s', Steps host s s' ∧ ∀ r, (s' r).pc = .done := by
  rcases Nat.eq_zero_or_pos n with rfl | hn
  · exact ⟨s, .refl, fun r => r.elim0⟩
  · obtain ⟨s', hsteps, hout⟩ := leaves h hpos hnames
    have hreach : Reachable host s' := h.trans hsteps
    have hends : Ends host s' := by
      rcases inPhase_reachable hfits ⟨0, hn⟩ hreach with hloop | ⟨pc, hlate, hstage⟩
      · refine ends_of_stage hfits ⟨0, hn⟩ (good_reachable hreach) (.of_all rfl fun r => ?_)
        refine (hloop r).resolve_left fun hin => ?_
        rw [hout r] at hin
        cases hin
      · exact ends_of_late hfits ⟨0, hn⟩ hlate (good_reachable hreach) hstage
    obtain ⟨e, hall, hdone⟩ := hends
    exact ⟨e, hsteps.trans (hall s' .refl), hdone⟩

/-- What the protocol does is done by the job, when all ranks have called. -/
theorem exists_jobStep {J : Job n} (hcalled : ∀ r, J.Entered r) {s : RankStates n}
    (hstep : Step host J.ranks s) : ∃ J', JobStep host J J' ∧ J'.ranks = s ∧ J'.states = J.states ∧
      J'.call = J.call ∧ ∀ r, J'.Entered r := by
  cases hstep with
  | @collective pc c hne hall =>
    have hcall : ∀ r ∈ c.group, J.call r ≠ none := by
      intro r hr
      refine (hcalled r).resolve_right fun hdone => ?_
      obtain ⟨hpc, hcomm⟩ := hall r hr
      rw [hdone] at hpc
      subst hpc
      rw [← hcomm] at hr
      cases hr
    refine ⟨_, .collective hne hcall hall, rfl, rfl, rfl, fun r => ?_⟩
    by_cases hr : r ∈ c.group
    · exact .inl (hcall r hr)
    · refine (hcalled r).imp_right fun hdone => ?_
      dsimp only
      rw [if_neg hr]
      exact hdone

theorem exists_jobSteps {J : Job n} (hcalled : ∀ r, J.Entered r) {s : RankStates n}
    (hsteps : Steps host J.ranks s) : ∃ J', JobSteps host J J' ∧ J'.ranks = s ∧ J'.states = J.states ∧
      J'.call = J.call ∧ ∀ r, J'.Entered r := by
  induction hsteps with
  | refl => exact ⟨J, .refl, rfl, rfl, rfl, hcalled⟩
  | tail _ hstep ih =>
    obtain ⟨J₁, hsteps₁, hranks, hstates, hcall, hcalled₁⟩ := ih
    rw [← hranks] at hstep
    obtain ⟨J₂, hstep₂, hranks₂, hstates₂, hcall₂, hcalled₂⟩ := exists_jobStep hcalled₁ hstep
    exact ⟨J₂, hsteps₁.tail hstep₂, hranks₂, hstates₂.trans hstates, hcall₂.trans hcall, hcalled₂⟩

/-- All ranks call, one after another. -/
theorem exists_all_called (host : Fin n → Hostname) (routine : HostRoutine) :
    JobReachable host { Job.start (fun _ : Fin n => freshState true) with
      call := fun _ => some routine } := by
  have hlist : ∀ l : List (Fin n), JobSteps host (.start fun _ => freshState true)
      { Job.start (fun _ : Fin n => freshState true) with
        call := fun r => if r ∈ l then some routine else none } := by
    intro l
    induction l with
    | nil => exact .refl
    | cons r₀ l ih =>
      by_cases hr₀ : r₀ ∈ l
      · have hsame : (fun r => if r ∈ r₀ :: l then some routine else none) =
            fun r => if r ∈ l then some routine else none := by
          funext r
          congr 1
          rw [List.mem_cons, or_iff_right_of_imp fun h => h ▸ hr₀]
        rw [hsame]
        exact ih
      · have henter : (fun r => if r ∈ r₀ :: l then some routine else none) =
            Function.update (fun r => if r ∈ l then some routine else none) r₀ (some routine) := by
          funext r
          by_cases hr : r = r₀
          · rw [hr, Function.update_self, if_pos List.mem_cons_self]
          · rw [Function.update_of_ne hr]
            congr 1
            rw [List.mem_cons, or_iff_right hr]
        rw [henter]
        exact ih.tail (.enter (if_neg hr₀) rfl)
  have hall := hlist (List.finRange n)
  simp only [List.mem_finRange, if_true] at hall
  exact ⟨_, hall⟩

variable (host) in
/-- Whatever has happened so far, when all ranks have called, all can get the list. -/
def AllReturn : Prop :=
  ∀ J, JobReachable host J → (∀ r, J.Entered r) → ∃ J', JobSteps host J J' ∧ ∀ r, (J'.ranks r).pc = .done

theorem allReturn_of (hfits : ListFits host)
    (hnames : ∀ r r', (host r).short ≠ (host r').short → ¬ Tied (host r).short (host r').short) :
    AllReturn host := by
  intro J hreach hcalled
  obtain ⟨rounds, hpos, happart⟩ := exists_toldApart fun r r' hname => by
    by_contra hsame
    push Not at hsame
    exact hnames r r' hname (tied_iff.mpr hsame)
  obtain ⟨s, hsteps, hdone⟩ := exists_done hfits hpos happart hreach.ranks
  obtain ⟨J', hsteps', rfl, -⟩ := exists_jobSteps hcalled hsteps
  exact ⟨J', hsteps', hdone⟩

/-- A rank that is done can return: the array, and the list at address 1. -/
theorem exists_returned_array {r : Fin n} {st : RankState n} (hgood : Good host r st)
    (hdone : st.pc = .done) : ∃ a, Returned st a := by
  obtain ⟨hfits, ⟨hmax, hnum⟩, hlist⟩ := has_done hgood hdone
  have hslot : ∀ q ∈ st.hostlistArray.map (fun offset : Int => (1 : Int) + offset),
      ∃ i < (leaders host).length, q = 1 + (i * maxHostlen host : Nat) ∧ i * maxHostlen host < 2 ^ 31 := by
    intro q hq
    obtain ⟨offset, hoffset, rfl⟩ := List.mem_map.mp hq
    obtain ⟨i, hi, rfl⟩ := List.mem_map.mp hoffset
    rw [List.mem_range, hnum] at hi
    refine ⟨i, hi, ?_, ?_⟩
    · rw [hmax, wrapInt_slot hfits hi]
    · refine lt_of_le_of_lt ?_ hfits
      rw [Nat.mul_comm]
      exact Nat.mul_le_mul_left _ hi.le
  refine ⟨{
    base := 8
    slots := st.hostlistArray.map fun offset : Int => (1 : Int) + offset
    text := fun q => nameAt (packedNames host) (q - 1).toNat
    base_ne := by decide
    length_lt := ?_
    filled := fun q hq => ?_ }, packedNames host, 1, hlist, rfl, fun i => ?_⟩
  · unfold RankState.hostlistArray
    rw [List.length_map, List.length_map, List.length_range, hnum]
    exact lt_of_le_of_lt (Nat.le_mul_of_pos_left _ (Nat.succ_pos _)) hfits
  · obtain ⟨i, hi, rfl, hlt⟩ := hslot q hq
    refine ⟨by omega, by omega, ?_⟩
    rw [add_sub_cancel_left, Int.toNat_natCast, nameAt_packedNames hi]
    rfl
  · show nameAt _ (1 + (i : Int) - 1).toNat = _
    rw [add_sub_cancel_left, Int.toNat_natCast]

/-- Every call that returns has recorded the hosts of the job, which are the same on all ranks, and all
ranks have called by then. -/
theorem job_records {J J' : Job n} (h : JobReachable host J) {r : Fin n} {routine : HostRoutine}
    (hleaves : Leaves host r routine J J') :
    adiakRawNamevalue (J.states r) (routine.event (hostNames host)) = .ok (J'.states r) ∧
      ∀ r', J.Entered r' := by
  obtain ⟨hstep, hcall, hfree⟩ := hleaves
  cases hstep with
  | @leave r₁ routine₁ a result s' hcall₁ hdone ha hrun =>
    have hr : r = r₁ := by
      by_contra hr
      dsimp only at hfree
      rw [Function.update_of_ne hr, hcall] at hfree
      cases hfree
    subst hr
    obtain rfl : routine = routine₁ := Option.some.inj (hcall.symm.trans hcall₁)
    have hmpi := (calling_reachable h r).2 (by rw [hcall]; exact Option.some_ne_none _)
    have hstrings := ha.strings (good_reachable h.ranks r) hdone
    obtain ⟨hraw, -⟩ := HostRoutine.records hmpi hrun
    rw [hstrings] at hraw
    refine ⟨?_, entered_of_done h hdone⟩
    dsimp only
    rw [Function.update_self]
    exact hraw
  | @enter r₁ routine₁ hfree₁ hmpi =>
    by_cases hr : r = r₁
    · rw [hr, hfree₁] at hcall
      cases hcall
    · dsimp only at hfree
      rw [Function.update_of_ne hr, hcall] at hfree
      cases hfree
  | collective hne hcall₁ hall =>
    rw [hcall] at hfree
    cases hfree
  | other hfree₁ =>
    rw [hcall] at hfree
    cases hfree

/-- Two ranks. -/
theorem job_records_two :
    ∃ J J' : Job 2, JobReachable (lettersHost 2) J ∧ Leaves (lettersHost 2) 1 .hostlist J J' ∧
      adiakRawNamevalue (J.states 1) (HostRoutine.event (hostNames (lettersHost 2)) .hostlist) =
        .ok (J'.states 1) ∧ ∀ r', J.Entered r' := by
  have hle : 2 ≤ 26 ^ 6 := by decide
  have hfits : ListFits (lettersHost 2) := (listFits_lettersHost hle).mpr (by decide)
  have hnames : ToldApart (lettersHost 2) 1 := by
    intro r r' hname
    refine ⟨0, Nat.one_pos, fun hcolor => hname ?_⟩
    rw [← shortName_eq, ← shortName_eq] at hcolor
    rw [color_injective hle hcolor]
  have hstart := exists_all_called (lettersHost 2) .hostlist
  obtain ⟨states, hsteps₀⟩ := hstart
  obtain ⟨s, hsteps, hdone⟩ := exists_done hfits Nat.one_pos hnames hsteps₀.ranks
  obtain ⟨J, hsteps₁, rfl, hstates, hcall, -⟩ := exists_jobSteps (fun r => .inl (Option.some_ne_none _)) hsteps
  have hreach : JobReachable (lettersHost 2) J := ⟨states, hsteps₀.trans hsteps₁⟩
  obtain ⟨a, ha⟩ := exists_returned_array (good_reachable hreach.ranks 1) (hdone 1)
  obtain ⟨s', hrun⟩ : ∃ s', HostRoutine.run .hostlist (J.states 1) (some a) = .ok (0, s') := by
    have hstrings := ha.strings (good_reachable hreach.ranks 1) (hdone 1)
    have hlen : a.slots.length ≤ 2 ^ 28 := by
      rw [length_slots_of_strings hstrings, hostNames, List.length_map, leaders_lettersHost hle,
        List.length_finRange]
      decide
    obtain ⟨s', hs'⟩ := recordAll_fresh true (e := stringsEvent "hostlist".toList
      (some "host".toList) baseString a.strings) rfl
    refine ⟨s', ?_⟩
    rw [hstates]
    show adiakHostlist (freshState true) (some a) = _
    rw [adiakHostlist_outcome _ fun b hb => Option.some.inj hb ▸ hlen]
    show (recordAll (freshState true) _ >>= _) = _
    rw [hs']
    rfl
  have hcall₁ : J.call 1 = some .hostlist := congrFun hcall 1
  have hfree : Function.update J.call 1 none 1 = none := Function.update_self _ _ _
  have hleaves : Leaves (lettersHost 2) 1 .hostlist J { J with
      call := Function.update J.call 1 none, states := Function.update J.states 1 s' } :=
    ⟨.leave hcall₁ (hdone 1) ha hrun, hcall₁, hfree⟩
  exact ⟨J, _, hreach, hleaves, job_records hreach hleaves⟩

/-- A job in which all ranks have called cannot get stuck exactly if its names can be told apart and the
size of its list is an `int`. -/
theorem job_ends_iff (host : Fin n → Hostname) : AllReturn host ↔ ListFits host ∧
    ∀ r r', (host r).short ≠ (host r').short → ¬ Tied (host r).short (host r').short := by
  refine ⟨fun h => ?_, fun h => allReturn_of h.1 h.2⟩
  have hstart := exists_all_called host .hostlist
  obtain ⟨J, hsteps, hdone⟩ := h _ hstart fun r => .inl (Option.some_ne_none _)
  have hreach : Reachable host J.ranks := hstart.ranks.trans hsteps.ranks
  refine ⟨?_, fun r r' hname htied => ?_⟩
  · rcases Nat.eq_zero_or_pos n with rfl | hpos
    · exact listFits_zero host
    · exact (has_done (good_reachable hreach ⟨0, hpos⟩) (hdone ⟨0, hpos⟩)).1
  · have hstay := stays hname.symm (fun i => (tied_iff.mp htied i).symm) hreach
    rw [hdone r] at hstay
    cases hstay

end Job

end Adiak
