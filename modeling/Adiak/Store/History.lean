import Adiak.Store.Invariant

/-!
# Runs of the record store

A run is a list of calls. Each call issues events, which `adiak_raw_namevalue` records and shows to
the tools, and then may set a flag, add a tool or release the store.

1. `step_eq_ok` takes a call apart into its events and what follows them.
2. `Inv` ties the store to the history of registrations. Every event and every call keeps it.
3. `run_store` says what a run leaves in the store.
-/

namespace Adiak

/-! ## Calls -/

/-- A call to the library. -/
inductive Call where
  | namevalue (m : Memory) (name : CStr) (category : Int) (subcategory : Option CStr)
    (typestr : List Char) (ap : List VArg)
  | rawNamevalue (e : Event)
  | registerCb (version category : Int) (reportOnAllRanks : Bool) (opaqueVal : Addr)
  | registerCbWithInfo (version category : Int) (reportOnAllRanks : Bool) (opaqueVal : Addr)
  | walltime
  | systime
  | cputime
  | flush (location : Addr)
  | fini (r : FiniReadings)
  | clean

/-- The state after a call. -/
def step (s : AdiakState) : Call → Except Stop AdiakState
  | .namevalue m name category subcategory typestr ap => do
    let (_, s) ← adiakNamevalue s m name category subcategory typestr ap
    .ok s
  | .rawNamevalue e => adiakRawNamevalue s e
  | .registerCb version category reportOnAllRanks opaqueVal =>
    adiakRegister s version category true false reportOnAllRanks opaqueVal
  | .registerCbWithInfo version category reportOnAllRanks opaqueVal =>
    adiakRegister s version category false true reportOnAllRanks opaqueVal
  | .walltime => .ok { s with measureWalltime := true }
  | .systime => .ok { s with measureSystime := true }
  | .cputime => .ok { s with measureCputime := true }
  | .flush location => adiakRawNamevalue s (flushEvent location)
  | .fini r => adiakFini s r
  | .clean => adiakClean s

/-- The state after a run. -/
def run (s : AdiakState) : List Call → Except Stop AdiakState
  | [] => .ok s
  | c :: cs => do
    let s ← step s c
    run s cs

/-- The state before the first call: `adiak_get_config` bounds the version of the shared object
that was found, `adiak_init` has fixed the rank. -/
def initialState (minimumVersion : Int) (reportableRank : Bool) : AdiakState where
  config := {
    minimumVersion := min 1 minimumVersion
    version := 1
    reportOnAllRanks := false
    reportableRank := reportableRank
    toolList := some []
    useMpi := false
    sharedRecordList := none
    recordHash := fun _ => none }
  localRecordHash := fun _ => none
  records := fun _ => none
  brk := 0
  toolBrk := 0
  ticks := 0
  measureWalltime := false
  measureSystime := false
  measureCputime := false
  log := []

/-! ## Events of a call -/

/-- The three `measure_adiak_…` flags. -/
structure Flags where
  walltime : Bool
  systime : Bool
  cputime : Bool

def AdiakState.flags (s : AdiakState) : Flags where
  walltime := s.measureWalltime
  systime := s.measureSystime
  cputime := s.measureCputime

/-- The event of a call of `adiak_namevalue`, if there is one. -/
def namevalueEvents (m : Memory) (name : CStr) (category : Int) (subcategory : Option CStr)
    (typestr : List Char) (ap : List VArg) : List Event :=
  match namevalueArgs m typestr ap with
  | .ok (value, dtype) => [{ name, category, subcategory, value, dtype }]
  | .error _ => []

/-- The event of a measurement. -/
def measureEvents (measured : Bool) (name : CStr) (reading : Option Timeval) : List Event :=
  match measured, reading with
  | true, some tv => namevalueEvents (stackTimeval tv) name adiakPerformance
      (some ['t', 'i', 'm', 'i', 'n', 'g']) ['%', 't'] [.ptr 1]
  | _, _ => []

/-- The events a call hands to `adiak_raw_namevalue`, in order. -/
def Call.events (flags : Flags) : Call → List Event
  | .namevalue m name category subcategory typestr ap =>
    namevalueEvents m name category subcategory typestr ap
  | .rawNamevalue e => [e]
  | .flush location => [flushEvent location]
  | .fini r =>
    measureEvents flags.cputime ['c', 'p', 'u', 't', 'i', 'm', 'e'] r.cputime ++
      measureEvents flags.systime ['s', 'y', 's', 't', 'i', 'm', 'e'] r.systime ++
      measureEvents flags.walltime ['w', 'a', 'l', 'l', 't', 'i', 'm', 'e'] r.walltime ++
      [finiEvent]
  | .clean => [cleanEvent]
  | _ => []

/-- The flags after a call. -/
def Call.setFlags (flags : Flags) : Call → Flags
  | .walltime => { flags with walltime := true }
  | .systime => { flags with systime := true }
  | .cputime => { flags with cputime := true }
  | _ => flags

/-- Recording events one after another. -/
def recordAll (s : AdiakState) : List Event → Except Stop AdiakState
  | [] => .ok s
  | e :: es => do
    let s ← adiakRawNamevalue s e
    recordAll s es

theorem recordAll_append (s : AdiakState) (es es' : List Event) :
    recordAll s (es ++ es') = recordAll s es >>= fun s => recordAll s es' := by
  induction es generalizing s with
  | nil => rfl
  | cons e es ih =>
    rw [List.cons_append, recordAll, recordAll]
    cases adiakRawNamevalue s e with
    | error _ => rfl
    | ok s' => exact ih s'

theorem recordAll_singleton (s : AdiakState) (e : Event) :
    recordAll s [e] = adiakRawNamevalue s e := by
  unfold recordAll
  cases adiakRawNamevalue s e <;> rfl

/-- `adiak_namevalue` records its event. -/
theorem adiakNamevalue_eq_ok {s s' : AdiakState} {m : Memory} {name : CStr} {category : Int}
    {subcategory : Option CStr} {typestr : List Char} {ap : List VArg} {ret : Int}
    (h : adiakNamevalue s m name category subcategory typestr ap = .ok (ret, s')) :
    recordAll s (namevalueEvents m name category subcategory typestr ap) = .ok s' := by
  unfold adiakNamevalue at h
  unfold namevalueEvents
  cases hargs : namevalueArgs m typestr ap with
  | error e =>
    rw [hargs] at h
    cases e with
    | null =>
      obtain ⟨-, rfl⟩ : -1 = ret ∧ s = s' := by simpa using h
      rfl
    | undefined => cases h
    | fuel => cases h
  | ok r =>
    rw [hargs] at h
    obtain ⟨s₁, hraw, h⟩ := bind_eq_ok.mp h
    obtain ⟨-, rfl⟩ : 0 = ret ∧ s₁ = s' := by simpa using h
    rw [recordAll_singleton]
    exact hraw

theorem measure_eq_ok {s s' : AdiakState} {measured : Bool} {name : CStr}
    {reading : Option Timeval} (h : measure s measured name reading = .ok s') :
    recordAll s (measureEvents measured name reading) = .ok s' := by
  cases measured with
  | false => exact h
  | true =>
    cases reading with
    | none => exact h
    | some tv =>
      obtain ⟨⟨ret, s₁⟩, hname, h⟩ := bind_eq_ok.mp h
      obtain rfl : s₁ = s' := by simpa using h
      exact adiakNamevalue_eq_ok hname

/-- What a call does behind its events. -/
def Call.Finish : Call → AdiakState → AdiakState → Prop
  | .registerCb version category reportOnAllRanks opaqueVal, s, s' =>
    adiakRegister s version category true false reportOnAllRanks opaqueVal = .ok s'
  | .registerCbWithInfo version category reportOnAllRanks opaqueVal, s, s' =>
    adiakRegister s version category false true reportOnAllRanks opaqueVal = .ok s'
  | .walltime, s, s' => s' = { s with measureWalltime := true }
  | .systime, s, s' => s' = { s with measureSystime := true }
  | .cputime, s, s' => s' = { s with measureCputime := true }
  | .clean, s, s' => ∃ rs, s.sharedRecords = .ok rs ∧ s' = wipe s (rs.map Prod.fst)
  | _, s, s' => s' = s

/-! ## Recording keeps the store -/

/-- What events do to the store and to the log. -/
theorem recordAll_holds {s s' : AdiakState} {rs : List (Nat × Record)} {es : List Event}
    (h : Holds s rs) (hrun : recordAll s es = .ok s') :
    ∃ rs', Holds s' rs' ∧
      rs'.map (fun x => x.2.entry) =
        (es.flatMap Event.registered).foldl Ledger.post (rs.map fun x => x.2.entry) ∧
      s'.rest = s.rest ∧
      s'.log.map Notice.content = s.log.map Notice.content ++
        es.flatMap (deliveries (s.config.toolList.getD []) s.config.reportableRank) := by
  induction es generalizing s rs with
  | nil =>
    obtain rfl : s = s' := by simpa [recordAll] using hrun
    exact ⟨rs, h, rfl, rfl, by simp⟩
  | cons e es ih =>
    obtain ⟨s₁, hraw, hrun⟩ := bind_eq_ok.mp hrun
    obtain ⟨tools, rs₁, htools, h₁, hentries, hrest, hlog⟩ := adiakRawNamevalue_holds h hraw
    obtain ⟨rs', h', hentries', hrest', hlog'⟩ := ih h₁ hrun
    have htools₁ : s₁.config.toolList = s.config.toolList := congrArg Prod.fst hrest
    have hrank₁ : s₁.config.reportableRank = s.config.reportableRank :=
      congrArg (fun x => x.2.1) hrest
    refine ⟨rs', h', ?_, hrest'.trans hrest, ?_⟩
    · rw [hentries', hentries, List.flatMap_cons, List.foldl_append]
    · rw [hlog', hlog, htools₁, hrank₁, htools, List.flatMap_cons, List.append_assoc]
      rfl

/-- The flags are among what recording leaves alone. -/
theorem flags_of_rest {s s' : AdiakState} (h : s'.rest = s.rest) : s'.flags = s.flags := by
  unfold AdiakState.rest at h
  unfold AdiakState.flags
  simp only [Prod.mk.injEq] at h
  obtain ⟨-, -, -, hwall, hsys, hcpu⟩ := h
  rw [hwall, hsys, hcpu]

/-- A call is its events and what follows them. -/
theorem step_eq_ok {s s' : AdiakState} {rs : List (Nat × Record)} {c : Call} (hs : Holds s rs)
    (h : step s c = .ok s') :
    ∃ s₁, recordAll s (c.events s.flags) = .ok s₁ ∧ c.Finish s₁ s' := by
  cases c with
  | namevalue m name category subcategory typestr ap =>
    obtain ⟨⟨ret, s₁⟩, hname, h⟩ := bind_eq_ok.mp h
    obtain rfl : s₁ = s' := by simpa using h
    exact ⟨s₁, adiakNamevalue_eq_ok hname, rfl⟩
  | rawNamevalue e => exact ⟨s', (recordAll_singleton s e).trans h, rfl⟩
  | registerCb version category reportOnAllRanks opaqueVal => exact ⟨s, rfl, h⟩
  | registerCbWithInfo version category reportOnAllRanks opaqueVal => exact ⟨s, rfl, h⟩
  | walltime => exact ⟨s, rfl, (Except.ok.inj h).symm⟩
  | systime => exact ⟨s, rfl, (Except.ok.inj h).symm⟩
  | cputime => exact ⟨s, rfl, (Except.ok.inj h).symm⟩
  | flush location => exact ⟨s', (recordAll_singleton s _).trans h, rfl⟩
  | fini r =>
    unfold step adiakFini at h
    obtain ⟨s₁, hcpu, h⟩ := bind_eq_ok.mp h
    obtain ⟨s₂, hsys, h⟩ := bind_eq_ok.mp h
    obtain ⟨s₃, hwall, h⟩ := bind_eq_ok.mp h
    have hcpu := measure_eq_ok hcpu
    have hsys := measure_eq_ok hsys
    have hwall := measure_eq_ok hwall
    -- the flags that the later measurements test are still those of `s`
    obtain ⟨rs₁, hs₁, -, hrest₁, -⟩ := recordAll_holds hs hcpu
    obtain ⟨rs₂, hs₂, -, hrest₂, -⟩ := recordAll_holds hs₁ hsys
    have hsysflag : s₁.measureSystime = s.measureSystime :=
      congrArg Flags.systime (flags_of_rest hrest₁)
    have hwallflag : s₂.measureWalltime = s.measureWalltime :=
      congrArg Flags.walltime (flags_of_rest (hrest₂.trans hrest₁))
    rw [hsysflag] at hsys
    rw [hwallflag] at hwall
    refine ⟨s', ?_, rfl⟩
    unfold Call.events AdiakState.flags
    rw [recordAll_append, recordAll_append, recordAll_append, hcpu, ok_bind, hsys, ok_bind, hwall,
      ok_bind, recordAll_singleton]
    exact h
  | clean =>
    unfold step adiakClean at h
    obtain ⟨s₁, hraw, h⟩ := bind_eq_ok.mp h
    obtain ⟨rs, hrs, h⟩ := bind_eq_ok.mp h
    obtain ⟨-, -, h⟩ := bind_eq_ok.mp h
    exact ⟨s₁, (recordAll_singleton s _).trans hraw, rs, hrs, (Except.ok.inj h).symm⟩

/-! ## The history of a run -/

/-- The flags, and the registrations since the start or since the store was released. -/
structure History where
  flags : Flags
  entries : List (CStr × Registration)

/-- The history before the first call. -/
def History.initial : History where
  flags := { walltime := false, systime := false, cputime := false }
  entries := []

/-- The history after a call. -/
def History.step (g : History) (c : Call) : History where
  flags := c.setFlags g.flags
  entries :=
    match c with
    | .clean => []
    | _ => g.entries ++ (c.events g.flags).flatMap Event.registered

/-- The registrations a run leaves in force. -/
def registrations (calls : List Call) : List (CStr × Registration) :=
  (calls.foldl History.step .initial).entries

/-- The store holds the ledger of the history. -/
structure Inv (s : AdiakState) (g : History) : Prop where
  flags : s.flags = g.flags
  store : ∃ rs, Holds s rs ∧ rs.map (fun x => x.2.entry) = Ledger.replay g.entries

theorem inv_initialState (minimumVersion : Int) (reportableRank : Bool) :
    Inv (initialState minimumVersion reportableRank) .initial where
  flags := rfl
  store := by
    refine ⟨[], ?_, rfl⟩
    constructor
    · intro x hx; cases hx
    · intro x hx; cases hx
    · exact .nil
    · intro b
      have hhash : (initialState minimumVersion reportableRank).recordHash b = none := by
        unfold AdiakState.recordHash
        split_ifs <;> rfl
      rw [hhash]
      exact .nil
    · exact List.nodup_nil
    · intro x hx; cases hx

theorem holds_wipe (s : AdiakState) (freed : List Nat) : Holds (wipe s freed) [] := by
  have hlist : (wipe s freed).config.sharedRecordList = none := rfl
  have hhash : (wipe s freed).recordHash = fun _ => none := by
    unfold wipe AdiakState.recordHash
    by_cases h : s.config.minimumVersion ≥ 1 <;> simp [h]
  constructor
  · intro x hx; cases hx
  · intro x hx; cases hx
  · rw [hlist]; exact .nil
  · intro b
    rw [hhash]
    exact .nil
  · exact List.nodup_nil
  · intro x hx; cases hx

/-- A change outside the records keeps them. -/
theorem Holds.of_eq {s s' : AdiakState} {rs : List (Nat × Record)} (h : Holds s rs)
    (hrecords : s'.records = s.records) (hbrk : s'.brk = s.brk)
    (hlist : s'.config.sharedRecordList = s.config.sharedRecordList)
    (hhash : s'.recordHash = s.recordHash) : Holds s' rs where
  mem := by rw [hrecords]; exact h.mem
  fresh := by rw [hbrk]; exact h.fresh
  list := by rw [hrecords, hlist]; exact h.list
  chain := by rw [hrecords, hhash]; exact h.chain
  nodup := h.nodup
  info := h.info

/-- A registration of a tool. -/
theorem adiakRegister_eq_ok {s s' : AdiakState} {version category : Int}
    {nv nvi reportOnAllRanks : Bool} {opaqueVal : Addr}
    (h : adiakRegister s version category nv nvi reportOnAllRanks opaqueVal = .ok s') :
    ∃ tools, s.config.toolList = some tools ∧
      s'.config.toolList = some ({
        id := s.toolBrk, version, opaqueVal, nameValCb := nv, reportOnAllRanks, category,
        namevalInfoCb := nvi } :: tools) ∧
      s'.config.reportableRank = s.config.reportableRank ∧ s'.toolBrk = s.toolBrk + 1 ∧
      s'.log = s.log ∧ s'.flags = s.flags ∧ ∀ rs, Holds s rs → Holds s' rs := by
  unfold adiakRegister at h
  cases htools : s.config.toolList with
  | none => simp only [htools] at h; cases h
  | some tools =>
    simp only [htools, Except.ok.injEq] at h
    subst h
    exact ⟨tools, rfl, rfl, rfl, rfl, rfl, rfl, fun rs hs => hs.of_eq rfl rfl rfl rfl⟩

/-- Every call keeps the invariant. -/
theorem inv_step {s s' : AdiakState} {g : History} {c : Call} (hinv : Inv s g)
    (h : step s c = .ok s') : Inv s' (g.step c) := by
  obtain ⟨rs, hs, hentries⟩ := hinv.store
  obtain ⟨s₁, hrec, hfinish⟩ := step_eq_ok hs h
  obtain ⟨rs₁, hs₁, hentries₁, hrest₁, -⟩ := recordAll_holds hs hrec
  have hflags : s₁.flags = g.flags := (flags_of_rest hrest₁).trans hinv.flags
  have hreplay : rs₁.map (fun x => x.2.entry) =
      Ledger.replay (g.entries ++ (c.events g.flags).flatMap Event.registered) := by
    rw [hentries₁, hentries, hinv.flags, Ledger.replay, Ledger.replay, List.foldl_append]
  cases c with
  | namevalue => subst hfinish; exact ⟨hflags, rs₁, hs₁, hreplay⟩
  | rawNamevalue => subst hfinish; exact ⟨hflags, rs₁, hs₁, hreplay⟩
  | flush => subst hfinish; exact ⟨hflags, rs₁, hs₁, hreplay⟩
  | fini => subst hfinish; exact ⟨hflags, rs₁, hs₁, hreplay⟩
  | registerCb =>
    obtain ⟨_, _, _, _, _, _, hflags', hholds⟩ := adiakRegister_eq_ok hfinish
    exact ⟨hflags'.trans hflags, rs₁, hholds rs₁ hs₁, hreplay⟩
  | registerCbWithInfo =>
    obtain ⟨_, _, _, _, _, _, hflags', hholds⟩ := adiakRegister_eq_ok hfinish
    exact ⟨hflags'.trans hflags, rs₁, hholds rs₁ hs₁, hreplay⟩
  | walltime =>
    subst hfinish
    refine ⟨?_, rs₁, hs₁.of_eq rfl rfl rfl rfl, hreplay⟩
    exact congrArg (fun f : Flags => { f with walltime := true }) hflags
  | systime =>
    subst hfinish
    refine ⟨?_, rs₁, hs₁.of_eq rfl rfl rfl rfl, hreplay⟩
    exact congrArg (fun f : Flags => { f with systime := true }) hflags
  | cputime =>
    subst hfinish
    refine ⟨?_, rs₁, hs₁.of_eq rfl rfl rfl rfl, hreplay⟩
    exact congrArg (fun f : Flags => { f with cputime := true }) hflags
  | clean =>
    obtain ⟨rs', -, rfl⟩ := hfinish
    refine ⟨?_, [], holds_wipe s₁ _, rfl⟩
    exact hflags

/-- Every run keeps the invariant. -/
theorem inv_run {s s' : AdiakState} {g : History} {calls : List Call} (hinv : Inv s g)
    (h : run s calls = .ok s') : Inv s' (calls.foldl History.step g) := by
  induction calls generalizing s g with
  | nil =>
    obtain rfl : s = s' := by simpa [run] using h
    exact hinv
  | cons c cs ih =>
    obtain ⟨s₁, hstep, h⟩ := bind_eq_ok.mp h
    exact ih (inv_step hinv hstep) h

/-- Releasing the store ends the history. -/
theorem registrations_clean (calls : List Call) : registrations (calls ++ [.clean]) = [] := by
  unfold registrations
  rw [List.foldl_append]
  rfl

/-- After a run the shared list and the hash chains hold one record per name, the list has the
names in reverse order of first registration, and a lookup finds the newest registration. -/
theorem run_store (minimumVersion : Int) (reportableRank : Bool) (calls : List Call)
    {s : AdiakState} (h : run (initialState minimumVersion reportableRank) calls = .ok s) :
    ∃ rs, Holds s rs ∧
      rs.map (fun x => x.2.name) = ((registrations calls).map Prod.fst).reverse.dedup ∧
      (∀ cs, calls = cs ++ [.clean] → rs = []) ∧
      ∀ name,
        s.findRecordByName name = .ok ((rs.find? fun x => x.2.name = name).map Prod.fst) ∧
        adiakGetNameval s name = .ok (Ledger.newest (registrations calls) name) ∧
        ∃ found, adiakGetNamevalWithInfo s name = .ok found ∧
          found.map (fun f => Registration.mk f.2.2.category f.2.2.subcategory f.2.1 f.1) =
            Ledger.newest (registrations calls) name := by
  have hinv := inv_run (inv_initialState minimumVersion reportableRank) h
  obtain ⟨rs, hs, hentries⟩ := hinv.store
  change _ = Ledger.replay (registrations calls) at hentries
  have hlookup : ∀ name, Ledger.lookup (rs.map fun x => x.2.entry) name =
      Ledger.newest (registrations calls) name := fun name => by
    rw [hentries, Ledger.lookup_replay]
  refine ⟨rs, hs, ?_, ?_, fun name => ⟨hs.findRecordByName_eq name, ?_, ?_⟩⟩
  · rw [← keys_entries, hentries, Ledger.keys_replay]
    rfl
  · rintro cs rfl
    rw [registrations_clean] at hentries
    exact List.map_eq_nil_iff.mp hentries
  · rw [(holds_iff.mp hs).adiakGetNameval_eq, List.filter_true, hlookup]
  · rw [← hlookup]
    exact hs.adiakGetNamevalWithInfo_eq name

/-- Two names of one bucket, the first registered again, an event past the store. -/
theorem run_store_collision : ∃ s rs,
    run (initialState 1 true)
      [.rawNamevalue ⟨['a', 'c'], 2, none, .vInt 1, baseInt⟩,
        .rawNamevalue ⟨['b', 'B'], 3, some ['x'], .vLong 2, baseLong⟩, .flush 0,
        .rawNamevalue ⟨['a', 'c'], 2, some ['y'], .vDouble (.f64 0), baseDouble⟩] = .ok s ∧
      Holds s rs ∧ rs.map (fun x => x.2.name) = [['b', 'B'], ['a', 'c']] := by
  obtain ⟨s, hs⟩ := exists_of_isOk (x := run (initialState 1 true)
    [.rawNamevalue ⟨['a', 'c'], 2, none, .vInt 1, baseInt⟩,
      .rawNamevalue ⟨['b', 'B'], 3, some ['x'], .vLong 2, baseLong⟩, .flush 0,
      .rawNamevalue ⟨['a', 'c'], 2, some ['y'], .vDouble (.f64 0), baseDouble⟩]) (by decide +kernel)
  obtain ⟨rs, hrs, hnames, -⟩ := run_store 1 true _ hs
  exact ⟨s, rs, hs, hrs, hnames⟩

end Adiak
