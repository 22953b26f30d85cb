import Adiak.Store.Infos

/-!
# Callbacks that call back

`adiak_namevalue` when the callbacks of the tools call `adiak_namevalue` themselves.

1. `Nested` is a call with the calls that the callbacks make while it notifies their tools, to any
   depth. `Nested.run` runs it; every call to a tool is an `Invocation`, with the library as it was.
2. Without such calls it is `adiakNamevalue` (`run_silent`).
3. `Stores` is what the store holds for each name, as `adiak_get_nameval_with_info` shows it. An info
   tells a recording from all others by its clock reading (`Stores.old`).
-/

namespace Adiak

/-! ## Nested calls -/

/-- A call of `adiak_namevalue`, and for each tool the calls that its callback makes. -/
inductive Nested where
  | call (m : Memory) (name : CStr) (category : Int) (subcategory : Option CStr)
    (typestr : List Char) (ap : List VArg) (callback : Nat → List Nested)

/-- A call to a tool: the library at that moment, and the recording to which the value and the type
belong, as the info that was made for it. Control events are not recorded. -/
structure Invocation where
  state : AdiakState
  recording : Option RecordInfo
  notice : Notice

/-- The recording behind `info_ptr`. -/
def recordingOf : Option InfoPtr → Option RecordInfo
  | some (.stored info) => some info
  | _ => none

/-- One iteration of the loop of `adiak_raw_namevalue`: what the callback is called with, if it is, and
then `info_ptr` and the clock. -/
def Event.deliver (e : Event) (reportableRank : Bool) (tool : Tool) (infoPtr : Option InfoPtr)
    (ticks : Nat) : Option (NoticeMeta × Option InfoPtr × Nat) :=
  if tool.wants reportableRank e.category then
    if tool.nameValCb then some (.direct e.category e.subcategory, infoPtr, ticks)
    else if tool.namevalInfoCb then
      match infoPtr with
      | some ptr => some (.info ptr, some ptr, ticks)
      | none => some (.info (.slot (newInfo e ticks)), some .dangling, ticks + 1)
    else none
  else none

/-- The loop of `adiak_raw_namevalue` with callbacks that change the library. -/
def notifyWith (e : Event)
    (callback : Nat → AdiakState → Except Stop (AdiakState × List Invocation)) :
    List Tool → Option InfoPtr → AdiakState → Except Stop (AdiakState × List Invocation)
  | [], _, s => .ok (s, [])
  | tool :: tools, infoPtr, s =>
    match e.deliver s.config.reportableRank tool infoPtr s.ticks with
    | none => notifyWith e callback tools infoPtr s
    | some (info, infoPtr', ticks) => do
      let s := { s with ticks := ticks, log := s.log ++ [e.notice tool info] }
      let (s', inner) ← callback tool.id s
      let (s', rest) ← notifyWith e callback tools infoPtr' s'
      .ok (s', ⟨s, recordingOf infoPtr, e.notice tool info⟩ :: inner ++ rest)

namespace Nested

mutual

/-- `adiak_namevalue`: the library behind it and the calls to the tools. -/
def run (s : AdiakState) : Nested → Except Stop (AdiakState × List Invocation)
  | .call m name category subcategory typestr ap callback =>
    match namevalueArgs m typestr ap with
    | .error .null => .ok (s, [])
    | .error e => .error e
    | .ok (value, dtype) => do
      let e : Event := { name, category, subcategory, value, dtype }
      let (s, infoPtr) ← recordEvent s e
      match s.config.toolList with
      | none => .error .undefined
      | some tools => notifyWith e (fun tool s => runAll s (callback tool)) tools infoPtr s

/-- One call after another. -/
def runAll (s : AdiakState) : List Nested → Except Stop (AdiakState × List Invocation)
  | [] => .ok (s, [])
  | c :: cs => do
    let (s, trace) ← run s c
    let (s, trace') ← runAll s cs
    .ok (s, trace ++ trace')

end

end Nested

/-! ## Iterations -/

section Iterations

variable {e : Event} {reportableRank : Bool} {tool : Tool} {infoPtr : Option InfoPtr} {ticks : Nat}

theorem deliver_eq_none (h : tool.notified reportableRank e = false) :
    e.deliver reportableRank tool infoPtr ticks = none := by
  unfold Tool.notified at h
  unfold Event.deliver
  split_ifs with hwants hcb hinfo
  · simp [hwants, hcb] at h
  · simp [hwants, hinfo] at h
  · rfl
  · rfl

/-- What a callback is called with for a recording is that of the recording. -/
def NoticeMeta.Of (info : RecordInfo) : NoticeMeta → Prop
  | .direct category subcategory => category = info.category ∧ subcategory = info.subcategory
  | .info ptr => ptr = .stored info

/-- An iteration with a call keeps the recording behind `info_ptr`. -/
theorem exists_deliver (infoPtr : Option InfoPtr) (ticks : Nat)
    (h : tool.notified reportableRank e = true) :
    ∃ shown infoPtr' ticks',
      e.deliver reportableRank tool infoPtr ticks = some (shown, infoPtr', ticks') ∧
      recordingOf infoPtr' = recordingOf infoPtr ∧ ticks ≤ ticks' ∧
      ∀ info, recordingOf infoPtr = some info → info.category = e.category →
        info.subcategory = e.subcategory → shown.Of info := by
  unfold Tool.notified at h
  obtain ⟨hwants, hcalled⟩ := Bool.and_eq_true_iff.mp h
  unfold Event.deliver
  rw [if_pos hwants]
  by_cases hcb : tool.nameValCb = true
  · rw [if_pos hcb]
    exact ⟨_, _, _, rfl, rfl, le_rfl, fun info _ hcat hsub => ⟨hcat.symm, hsub.symm⟩⟩
  · rw [if_neg hcb]
    have hinfo : tool.namevalInfoCb = true := (Bool.or_eq_true_iff.mp hcalled).resolve_left hcb
    rw [if_pos hinfo]
    match infoPtr with
    | none => exact ⟨_, _, _, rfl, rfl, Nat.le_succ _, fun info hrec => by cases hrec⟩
    | some (.stored info') =>
      refine ⟨_, _, _, rfl, rfl, le_rfl, fun info hrec _ _ => ?_⟩
      exact congrArg InfoPtr.stored (Option.some.inj hrec)
    | some (.slot _) => exact ⟨_, _, _, rfl, rfl, le_rfl, fun info hrec => by cases hrec⟩
    | some .dangling => exact ⟨_, _, _, rfl, rfl, le_rfl, fun info hrec => by cases hrec⟩

/-- The loop of `adiak_raw_namevalue` goes through its iterations. -/
theorem notifyTools_eq_deliver {tools : List Tool} :
    notifyTools e reportableRank (tool :: tools) infoPtr ticks =
      match e.deliver reportableRank tool infoPtr ticks with
      | none => notifyTools e reportableRank tools infoPtr ticks
      | some (info, infoPtr', ticks') =>
        (e.notice tool info :: (notifyTools e reportableRank tools infoPtr' ticks').1,
          (notifyTools e reportableRank tools infoPtr' ticks').2) := by
  rw [notifyTools.eq_def]
  unfold Event.deliver
  dsimp only
  split_ifs
  · rfl
  · cases infoPtr <;> rfl
  · rfl
  · rfl

end Iterations

/-! ## Silent callbacks -/

/-- Callbacks that do not call back leave the loop as it is. -/
theorem notifyWith_silent (e : Event) (tools : List Tool) (infoPtr : Option InfoPtr)
    (s : AdiakState) :
    ∃ trace, notifyWith e (fun _ s => .ok (s, [])) tools infoPtr s =
        .ok ({ s with
          ticks := (notifyTools e s.config.reportableRank tools infoPtr s.ticks).2
          log := s.log ++ (notifyTools e s.config.reportableRank tools infoPtr s.ticks).1 }, trace) ∧
      trace.map Invocation.notice =
        (notifyTools e s.config.reportableRank tools infoPtr s.ticks).1 := by
  induction tools generalizing infoPtr s with
  | nil => exact ⟨[], by simp [notifyWith, notifyTools], rfl⟩
  | cons tool tools ih =>
    unfold notifyWith
    rw [notifyTools_eq_deliver]
    cases e.deliver s.config.reportableRank tool infoPtr s.ticks with
    | none => exact ih infoPtr s
    | some delivered =>
      obtain ⟨info, infoPtr', ticks⟩ := delivered
      obtain ⟨trace, hrun, htrace⟩ := ih infoPtr'
        { s with ticks := ticks, log := s.log ++ [e.notice tool info] }
      dsimp only at hrun htrace ⊢
      rw [ok_bind]
      dsimp only
      rw [hrun, ok_bind, List.append_assoc]
      exact ⟨_, rfl, congrArg (e.notice tool info :: ·) htrace⟩

/-- Without calls by the callbacks, `run` is `adiakNamevalue`. -/
theorem run_silent (s : AdiakState) (m : Memory) (name : CStr) (category : Int)
    (subcategory : Option CStr) (typestr : List Char) (ap : List VArg) :
    (Nested.run s (.call m name category subcategory typestr ap fun _ => [])).map Prod.fst =
      (adiakNamevalue s m name category subcategory typestr ap).map Prod.snd := by
  unfold Nested.run adiakNamevalue
  cases namevalueArgs m typestr ap with
  | error e =>
    cases e with
    | null | undefined | fuel => rfl
  | ok args =>
    obtain ⟨value, dtype⟩ := args
    dsimp only
    unfold adiakRawNamevalue
    cases recordEvent s { name, category, subcategory, value, dtype } with
    | error _ => rfl
    | ok recorded =>
      obtain ⟨s', infoPtr⟩ := recorded
      simp only [ok_bind]
      cases s'.config.toolList with
      | none => rfl
      | some tools =>
        obtain ⟨trace, hloop, -⟩ := notifyWith_silent
          { name, category, subcategory, value, dtype } tools infoPtr s'
        simp only [ok_bind]
        unfold Nested.runAll
        rw [hloop]
        rfl

/-! ## The store, name by name -/

/-- What `adiak_get_nameval_with_info` shows for each name. -/
abbrev Held := CStr → Option (AdiakDatatype × AdiakValue × RecordInfo)

/-- The store holds `held`, with infos that are older than the next clock reading. -/
structure Stores (s : AdiakState) (held : Held) : Prop where
  holds : ∃ rs, Holds s rs
  get : ∀ name, adiakGetNamevalWithInfo s name = .ok (held name)
  old : ∀ name f, held name = some f → f.2.2.timestamp < s.ticks

/-- What the store holds of the records. -/
def heldOf (rs : List (Nat × Record)) : Held := fun name =>
  (rs.find? fun x => x.2.name = name).map fun x => (x.2.dtype, x.2.value, x.2.info)

theorem Holds.get_heldOf {s : AdiakState} {rs : List (Nat × Record)} (h : Holds s rs) (name : CStr) :
    adiakGetNamevalWithInfo s name = .ok (heldOf rs name) := by
  unfold adiakGetNamevalWithInfo heldOf
  rw [h.findRecordByName_eq]
  cases hx : rs.find? fun x => x.2.name = name with
  | none => rfl
  | some x =>
    obtain ⟨-, -, hderef⟩ := h.find_mem hx
    rw [Option.map_some, ok_bind]
    simp only [hderef, ok_bind, Option.map_some]

theorem Stores.eq_heldOf {s : AdiakState} {held : Held} (h : Stores s held)
    {rs : List (Nat × Record)} (hrs : Holds s rs) : held = heldOf rs :=
  funext fun name => Except.ok.inj ((h.get name).symm.trans (hrs.get_heldOf name))

/-- A change outside the records keeps what the store holds, if the clock does not go back. -/
theorem Stores.of_eq {s s' : AdiakState} {held : Held} (h : Stores s held)
    (hkeep : ∀ rs, Holds s rs → Holds s' rs) (hticks : s.ticks ≤ s'.ticks) : Stores s' held := by
  obtain ⟨rs, hrs⟩ := h.holds
  refine ⟨⟨rs, hkeep rs hrs⟩, fun name => ?_, fun name f hf => (h.old name f hf).trans_le hticks⟩
  rw [h.eq_heldOf hrs]
  exact (hkeep rs hrs).get_heldOf name

theorem heldOf_overwriteAt {rs : List (Nat × Record)} {e : Event} {ticks : Nat}
    (hknown : e.name ∈ rs.map fun x => x.2.name) :
    heldOf (overwriteAt rs e ticks) =
      Function.update (heldOf rs) e.name (some (e.dtype, e.value, newInfo e ticks)) := by
  funext name
  have hfind : (overwriteAt rs e ticks).find? (fun x => x.2.name = name) =
      (rs.find? fun x => x.2.name = name).map fun x =>
        if x.2.name = e.name then (x.1, x.2.overwrite e ticks) else x := by
    unfold overwriteAt
    rw [List.find?_map]
    congr 2
    funext x
    simp only [Function.comp_apply]
    split_ifs <;> rfl
  unfold heldOf
  rw [hfind]
  by_cases hname : name = e.name
  · obtain rfl := hname
    rw [Function.update_self]
    cases hx : rs.find? fun x => x.2.name = e.name with
    | none =>
      obtain ⟨x, hmem, heq⟩ := List.mem_map.mp hknown
      exact absurd (decide_eq_true heq) (List.find?_eq_none.mp hx x hmem)
    | some x =>
      have heq : x.2.name = e.name := by simpa using List.find?_some hx
      rw [Option.map_some, if_pos heq]
      rfl
  · rw [Function.update_of_ne hname]
    cases hx : rs.find? fun x => x.2.name = name with
    | none => rfl
    | some x =>
      have heq : x.2.name = name := by simpa using List.find?_some hx
      rw [Option.map_some, if_neg fun h => hname (heq.symm.trans h)]

theorem heldOf_cons (x : Nat × Record) (rs : List (Nat × Record)) :
    heldOf (x :: rs) =
      Function.update (heldOf rs) x.2.name (some (x.2.dtype, x.2.value, x.2.info)) := by
  funext name
  unfold heldOf
  rw [List.find?_cons]
  by_cases hname : name = x.2.name
  · obtain rfl := hname
    rw [Function.update_self, decide_eq_true rfl]
    rfl
  · rw [Function.update_of_ne hname, decide_eq_false fun h => hname h.symm]

/-- What recording an event does to the store. -/
theorem Stores.recordNameval {s s' : AdiakState} {held : Held} (h : Stores s held) {e : Event}
    {info : RecordInfo} (hrec : recordNameval s e = .ok (s', info)) :
    Stores s' (Function.update held e.name (some (e.dtype, e.value, info))) ∧
      info = newInfo e s.ticks ∧ s'.ticks = s.ticks + 1 ∧ s'.rest = s.rest := by
  obtain ⟨rs, hrs⟩ := h.holds
  have hold : ∀ name f, Function.update held e.name (some (e.dtype, e.value, newInfo e s.ticks))
      name = some f → f.2.2.timestamp < s.ticks + 1 := by
    intro name f hf
    by_cases hname : name = e.name
    · rw [hname, Function.update_self] at hf
      obtain rfl := Option.some.inj hf
      exact Nat.lt_succ_self s.ticks
    · rw [Function.update_of_ne hname] at hf
      exact (h.old name f hf).trans (Nat.lt_succ_self s.ticks)
  rw [h.eq_heldOf hrs] at hold ⊢
  unfold Adiak.recordNameval at hrec
  rw [hrs.findRecordByName_eq, ok_bind] at hrec
  cases hx : rs.find? fun x => x.2.name = e.name with
  | none =>
    have hnew : e.name ∉ rs.map fun x => x.2.name := by
      intro hmem
      obtain ⟨x, hx', hname⟩ := List.mem_map.mp hmem
      exact absurd (List.find?_eq_none.mp hx x hx') (by simpa using hname)
    rw [hx] at hrec
    obtain ⟨rfl, rfl⟩ : addRecord s e = s' ∧ newInfo e s.ticks = info := by simpa using hrec
    have hadd := hrs.addRecord hnew
    have hticks : (addRecord s e).ticks = s.ticks + 1 := by
      unfold addRecord AdiakState.setRecordHash
      dsimp only
      split_ifs <;> rfl
    refine ⟨⟨⟨_, hadd⟩, fun name => ?_, by rw [hticks]; exact hold⟩, rfl, hticks,
      (rest_setRecordHash _ _ _).1⟩
    rw [hadd.get_heldOf, heldOf_cons]
    rfl
  | some x =>
    obtain ⟨hmem, hname, hderef⟩ := hrs.find_mem hx
    rw [hx] at hrec
    simp only [Option.map_some, hderef, ok_bind] at hrec
    obtain ⟨-, -, hrec⟩ := bind_eq_ok.mp hrec
    obtain ⟨rfl, rfl⟩ : overwriteRecord s x.1 x.2 e = s' ∧ newInfo e s.ticks = info := by
      simpa using hrec
    have hover := hrs.overwriteRecord hmem hname
    refine ⟨⟨⟨_, hover⟩, fun name => ?_, hold⟩, rfl, rfl, rfl⟩
    rw [hover.get_heldOf, heldOf_overwriteAt (List.mem_map.mpr ⟨x, hmem, hname⟩)]

/-- The first half of `adiak_raw_namevalue`. -/
theorem Stores.recordEvent {s s' : AdiakState} {held : Held} (h : Stores s held) {e : Event}
    {infoPtr : Option InfoPtr} (hrec : recordEvent s e = .ok (s', infoPtr)) :
    (e.category = adiakControl ∧ s' = s ∧ infoPtr = none) ∨
      (e.category ≠ adiakControl ∧ infoPtr = some (.stored (newInfo e s.ticks)) ∧
        Stores s' (Function.update held e.name (some (e.dtype, e.value, newInfo e s.ticks))) ∧
        s'.ticks = s.ticks + 1 ∧ s'.rest = s.rest) := by
  unfold Adiak.recordEvent at hrec
  by_cases hcat : e.category = adiakControl
  · rw [if_neg (not_not.mpr hcat)] at hrec
    obtain ⟨rfl, rfl⟩ : s = s' ∧ none = infoPtr := by simpa using hrec
    exact .inl ⟨hcat, rfl, rfl⟩
  · rw [if_pos hcat] at hrec
    obtain ⟨⟨s₁, info⟩, hnew, heq⟩ := bind_eq_ok.mp hrec
    obtain ⟨rfl, rfl⟩ : s₁ = s' ∧ some (InfoPtr.stored info) = infoPtr := by simpa using heq
    obtain ⟨hstores, rfl, hticks, hrest⟩ := h.recordNameval hnew
    exact .inr ⟨hcat, rfl, hstores, hticks, hrest⟩

/-! ## Runs -/

theorem stores_initialState (minimumVersion : Int) (reportableRank : Bool) :
    Stores (initialState minimumVersion reportableRank) fun _ => none := by
  obtain ⟨rs, hrs, hentries⟩ := (inv_initialState minimumVersion reportableRank).store
  obtain rfl : rs = [] := List.map_eq_nil_iff.mp hentries
  exact ⟨⟨_, hrs⟩, hrs.get_heldOf, fun name f hf => by cases hf⟩

theorem Stores.adiakRawNamevalue {s s' : AdiakState} {held : Held} (h : Stores s held) {e : Event}
    (hraw : adiakRawNamevalue s e = .ok s') : ∃ held', Stores s' held' := by
  unfold Adiak.adiakRawNamevalue at hraw
  obtain ⟨⟨s₁, infoPtr⟩, hrec, hraw⟩ := bind_eq_ok.mp hraw
  have hstores : ∃ held', Stores s₁ held' := by
    rcases h.recordEvent hrec with ⟨-, rfl, -⟩ | ⟨-, -, hnew, -⟩
    · exact ⟨held, h⟩
    · exact ⟨_, hnew⟩
  obtain ⟨held', hstores⟩ := hstores
  cases hlist : s₁.config.toolList with
  | none => simp only [hlist] at hraw; cases hraw
  | some tools =>
    simp only [hlist, Except.ok.injEq] at hraw
    subst hraw
    exact ⟨held', hstores.of_eq (fun rs hrs => hrs.of_eq rfl rfl rfl rfl) ticks_le_notifyTools⟩

theorem Stores.recordAll {s s' : AdiakState} {held : Held} (h : Stores s held) {es : List Event}
    (hrun : recordAll s es = .ok s') : ∃ held', Stores s' held' := by
  induction es generalizing s held with
  | nil =>
    obtain rfl : s = s' := by simpa [Adiak.recordAll] using hrun
    exact ⟨held, h⟩
  | cons e es ih =>
    obtain ⟨s₁, hraw, hrun⟩ := bind_eq_ok.mp hrun
    obtain ⟨held₁, h₁⟩ := h.adiakRawNamevalue hraw
    exact ih h₁ hrun

theorem Stores.adiakRegister {s s' : AdiakState} {held : Held} (h : Stores s held)
    {version category : Int} {nv nvi reportOnAllRanks : Bool} {opaqueVal : Addr}
    (hreg : adiakRegister s version category nv nvi reportOnAllRanks opaqueVal = .ok s') :
    Stores s' held := by
  have hticks : s'.ticks = s.ticks := by
    unfold Adiak.adiakRegister at hreg
    cases hlist : s.config.toolList with
    | none => rw [hlist] at hreg; cases hreg
    | some tools => rw [hlist] at hreg; rw [← Except.ok.inj hreg]
  obtain ⟨_, _, _, _, _, _, _, hholds⟩ := adiakRegister_eq_ok hreg
  exact h.of_eq (fun rs hrs => hholds rs hrs) hticks.ge

theorem stores_step {s s' : AdiakState} {held : Held} (h : Stores s held) {c : Call}
    (hstep : step s c = .ok s') : ∃ held', Stores s' held' := by
  obtain ⟨rs, hrs⟩ := h.holds
  obtain ⟨s₁, hrec, hfinish⟩ := step_eq_ok hrs hstep
  obtain ⟨held₁, h₁⟩ := h.recordAll hrec
  cases c with
  | namevalue | rawNamevalue | flush | fini => subst hfinish; exact ⟨held₁, h₁⟩
  | registerCb | registerCbWithInfo => exact ⟨held₁, h₁.adiakRegister hfinish⟩
  | walltime | systime | cputime =>
    subst hfinish
    exact ⟨held₁, h₁.of_eq (fun rs hrs => hrs.of_eq rfl rfl rfl rfl) le_rfl⟩
  | clean =>
    obtain ⟨rs', -, rfl⟩ := hfinish
    have hwipe := holds_wipe s₁ (rs'.map Prod.fst)
    exact ⟨_, ⟨_, hwipe⟩, hwipe.get_heldOf, fun name f hf => by cases hf⟩

/-- In every run, the infos are older than the next clock reading. -/
theorem stores_run {s s' : AdiakState} {held : Held} (h : Stores s held) {calls : List Call}
    (hrun : Adiak.run s calls = .ok s') : ∃ held', Stores s' held' := by
  induction calls generalizing s held with
  | nil =>
    obtain rfl : s = s' := by simpa [Adiak.run] using hrun
    exact ⟨held, h⟩
  | cons c calls ih =>
    obtain ⟨s₁, hstep, hrun⟩ := bind_eq_ok.mp hrun
    obtain ⟨held₁, h₁⟩ := stores_step h hstep
    exact ih h₁ hrun

end Adiak
