import Adiak.Store.Callbacks

/-!
# What callbacks see when tools call back

1. `Nested.recorded` are the names that a call records, by itself and by the callbacks it leads to.
   `Nested.Undisturbed`: no tool records the name it is notified of before another one is notified.
2. `Invocation.Current`: a tool gets what the store holds at that moment. `UpToDate`: what a tool got
   last is what the store holds.
3. `loop_spec` is the step for the loop over the tools, `run_spec` follows from it for all nestings.
4. `current_iff`: the tools are told what the store holds if and only if the calls are undisturbed.
-/

namespace Adiak

/-! ## Nested recordings -/

namespace Nested

mutual

/-- The names that a call records, with those that the callbacks record. -/
def recorded (tools : List Tool) (reportableRank : Bool) : Nested → List CStr
  | .call m name category subcategory typestr ap callback =>
    (namevalueEvents m name category subcategory typestr ap).flatMap fun e =>
      (if e.category = adiakControl then [] else [e.name]) ++
        (tools.filter fun tool => tool.notified reportableRank e).flatMap fun tool =>
          recordedAll tools reportableRank (callback tool.id)

def recordedAll (tools : List Tool) (reportableRank : Bool) : List Nested → List CStr
  | [] => []
  | c :: cs => recorded tools reportableRank c ++ recordedAll tools reportableRank cs

end

mutual

/-- No callback records the name it is called for while a tool is still to be notified. -/
def Undisturbed (tools : List Tool) (reportableRank : Bool) : Nested → Prop
  | .call m name category subcategory typestr ap callback =>
    ∀ e ∈ namevalueEvents m name category subcategory typestr ap,
      (e.category ≠ adiakControl →
        (tools.filter fun tool => tool.notified reportableRank e).Pairwise fun earlier _ =>
          e.name ∉ recordedAll tools reportableRank (callback earlier.id)) ∧
      ∀ tool ∈ tools.filter fun tool => tool.notified reportableRank e,
        UndisturbedAll tools reportableRank (callback tool.id)

def UndisturbedAll (tools : List Tool) (reportableRank : Bool) : List Nested → Prop
  | [] => True
  | c :: cs => Undisturbed tools reportableRank c ∧ UndisturbedAll tools reportableRank cs

end

end Nested

/-! ## What tools get -/

/-- The tool gets what the store holds for the name. -/
def Invocation.Current (i : Invocation) : Prop :=
  ∀ info, i.recording = some info →
    adiakGetNamevalWithInfo i.state i.notice.name =
      .ok (some (i.notice.dtype, i.notice.value, info)) ∧ i.notice.info.Of info

/-- The tool `k` is notified of a recording of the name. -/
def Invocation.about (k : Nat) (name : CStr) (i : Invocation) : Bool :=
  i.recording.isSome && i.notice.tool = k && i.notice.name = name

/-- The tool gets a certain type, value and info. -/
def Invocation.Carries (i : Invocation) (f : AdiakDatatype × AdiakValue × RecordInfo) : Prop :=
  i.recording = some f.2.2 ∧ i.notice.dtype = f.1 ∧ i.notice.value = f.2.1

/-- The last notification of a tool of a name. -/
def lastAbout (trace : List Invocation) (k : Nat) (name : CStr) : Option Invocation :=
  (trace.filter (Invocation.about k name)).getLast?

/-- A tool is notified of the events of a category. -/
def Tool.hears (tool : Tool) (reportableRank : Bool) (category : Int) : Bool :=
  tool.wants reportableRank category && (tool.nameValCb || tool.namevalInfoCb)

/-- What a tool got last for a name is what the store holds, if the tool asks for its category. -/
def UpToDate (s : AdiakState) (trace : List Invocation) : Prop :=
  ∀ tools, s.config.toolList = some tools → ∀ tool ∈ tools, ∀ name f,
    adiakGetNamevalWithInfo s name = .ok (some f) →
    tool.hears s.config.reportableRank f.2.2.category = true →
    ∀ i, lastAbout trace tool.id name = some i → i.Carries f

theorem lastAbout_append (trace trace' : List Invocation) (k : Nat) (name : CStr) :
    lastAbout (trace ++ trace') k name = (lastAbout trace' k name).or (lastAbout trace k name) := by
  unfold lastAbout
  rw [List.filter_append, List.getLast?_append]

theorem about_eq_true {i : Invocation} {k : Nat} {name : CStr} :
    i.about k name = true ↔ i.recording.isSome = true ∧ i.notice.tool = k ∧ i.notice.name = name := by
  unfold Invocation.about
  rw [Bool.and_eq_true, Bool.and_eq_true, decide_eq_true_eq, decide_eq_true_eq, and_assoc]

theorem lastAbout_eq_none {trace : List Invocation} {k : Nat} {name : CStr}
    (h : ∀ i ∈ trace, i.recording.isSome = true → i.notice.name ≠ name) :
    lastAbout trace k name = none := by
  unfold lastAbout
  rw [List.filter_eq_nil_iff.mpr fun i hi habout => ?_]
  · rfl
  · obtain ⟨hrec, -, hname⟩ := about_eq_true.mp habout
    exact h i hi hrec hname

theorem of_lastAbout {trace : List Invocation} {k : Nat} {name : CStr} {i : Invocation}
    (h : lastAbout trace k name = some i) : i ∈ trace ∧ i.about k name = true := by
  have hmem := List.mem_of_getLast? h
  exact List.mem_filter.mp hmem

theorem exists_lastAbout {trace : List Invocation} {k : Nat} {name : CStr} {i : Invocation}
    (hi : i ∈ trace) (habout : i.about k name = true) : ∃ j, lastAbout trace k name = some j := by
  unfold lastAbout
  have hne := List.ne_nil_of_mem (List.mem_filter.mpr ⟨hi, habout⟩)
  exact ⟨_, List.getLast?_eq_some_getLast hne⟩

/-! ## What a call does -/

section Spec

variable (tools : List Tool) (reportableRank : Bool)

/-- What is known of a part of a run: it records `names`, each with an info of its own time. -/
structure Ran (s : AdiakState) (held : Held) (s' : AdiakState) (held' : Held)
    (names : List CStr) : Prop where
  stores : Stores s' held'
  toolList : s'.config.toolList = some tools
  rank : s'.config.reportableRank = reportableRank
  ticks : s.ticks ≤ s'.ticks
  kept : ∀ name ∉ names, held' name = held name
  fresh : ∀ name ∈ names, ∃ f, held' name = some f ∧ s.ticks ≤ f.2.2.timestamp

/-- The tools that ask for what the store holds under some names have got it, as their last
notification. -/
def Told (held : Held) (trace : List Invocation) (names : List CStr) : Prop :=
  ∀ name ∈ names, ∀ f, held name = some f → ∀ tool ∈ tools,
    tool.hears reportableRank f.2.2.category = true →
    ∃ i, lastAbout trace tool.id name = some i ∧ i.Carries f

/-- What calls do. They are `calm` if and only if all that the tools get is current. -/
structure Follows (s : AdiakState) (held : Held) (s' : AdiakState) (held' : Held)
    (trace : List Invocation) (names : List CStr) (calm : Prop) : Prop where
  ran : Ran tools reportableRank s held s' held' names
  about : ∀ i ∈ trace, i.recording.isSome = true → i.notice.name ∈ names
  told : (∀ i ∈ trace, i.Current) → Told tools reportableRank held' trace names
  current : (∀ i ∈ trace, i.Current) ↔ calm

variable {tools reportableRank}

theorem Ran.refl {s : AdiakState} {held : Held} (h : Stores s held)
    (htools : s.config.toolList = some tools) (hrank : s.config.reportableRank = reportableRank) :
    Ran tools reportableRank s held s held [] :=
  ⟨h, htools, hrank, le_rfl, fun _ _ => rfl, fun name hname => by cases hname⟩

theorem Follows.nil {s : AdiakState} {held : Held} (h : Stores s held)
    (htools : s.config.toolList = some tools) (hrank : s.config.reportableRank = reportableRank) :
    Follows tools reportableRank s held s held [] [] True where
  ran := .refl h htools hrank
  about := fun i hi => by cases hi
  told := fun _ name hname => by cases hname
  current := iff_of_true (fun i hi => by cases hi) trivial

theorem Ran.trans {s s₁ s₂ : AdiakState} {held held₁ held₂ : Held} {names names' : List CStr}
    (h : Ran tools reportableRank s held s₁ held₁ names)
    (h' : Ran tools reportableRank s₁ held₁ s₂ held₂ names') :
    Ran tools reportableRank s held s₂ held₂ (names ++ names') where
  stores := h'.stores
  toolList := h'.toolList
  rank := h'.rank
  ticks := h.ticks.trans h'.ticks
  kept := fun name hname => by
    rw [List.mem_append, not_or] at hname
    exact (h'.kept name hname.2).trans (h.kept name hname.1)
  fresh := fun name hname => by
    by_cases hname' : name ∈ names'
    · obtain ⟨f, hf, hticks⟩ := h'.fresh name hname'
      exact ⟨f, hf, h.ticks.trans hticks⟩
    · rw [h'.kept name hname']
      exact h.fresh name ((List.mem_append.mp hname).resolve_right hname')

/-- What was told stays true while nothing else is told about the same names. -/
theorem Told.append {held held' : Held} {trace trace' : List Invocation} {names names' : List CStr}
    (h : Told tools reportableRank held trace names)
    (h' : Told tools reportableRank held' trace' names')
    (hkept : ∀ name ∉ names', held' name = held name)
    (hquiet : ∀ name ∈ names, name ∉ names' →
      ∀ i ∈ trace', i.recording.isSome = true → i.notice.name ≠ name) :
    Told tools reportableRank held' (trace ++ trace') (names ++ names') := by
  intro name hname f hf tool htool hhears
  rw [lastAbout_append]
  by_cases hname' : name ∈ names'
  · obtain ⟨i, hi, hcarries⟩ := h' name hname' f hf tool htool hhears
    exact ⟨i, by rw [hi, Option.some_or], hcarries⟩
  · have hin := (List.mem_append.mp hname).resolve_right hname'
    rw [lastAbout_eq_none (hquiet name hin hname'), Option.none_or]
    exact h name hin f (hkept name hname' ▸ hf) tool htool hhears

theorem Follows.append {s s₁ s₂ : AdiakState} {held held₁ held₂ : Held}
    {trace trace' : List Invocation} {names names' : List CStr} {calm calm' : Prop}
    (h : Follows tools reportableRank s held s₁ held₁ trace names calm)
    (h' : Follows tools reportableRank s₁ held₁ s₂ held₂ trace' names' calm') :
    Follows tools reportableRank s held s₂ held₂ (trace ++ trace') (names ++ names')
      (calm ∧ calm') where
  ran := h.ran.trans h'.ran
  about := fun i hi hrec => by
    rcases List.mem_append.mp hi with hi | hi
    · exact List.mem_append_left _ (h.about i hi hrec)
    · exact List.mem_append_right _ (h'.about i hi hrec)
  told := fun hcurrent => by
    rw [List.forall_mem_append] at hcurrent
    refine (h.told hcurrent.1).append (h'.told hcurrent.2) h'.ran.kept ?_
    rintro name - hname' i hi hrec rfl
    exact hname' (h'.about i hi hrec)
  current := by rw [List.forall_mem_append, h.current, h'.current]

end Spec

/-! ## The loop over the tools -/

section Loop

variable (tools : List Tool) (reportableRank : Bool) (e : Event) (recording : Option RecordInfo)
  (names : Nat → List CStr) (calm : Nat → Prop)

/-- The loop over the tools `rest`, for an event with the recording `recording`. The callback of the
tool `k` records `names k` and is calm if `calm k`. -/
structure Looped (rest : List Tool) (s : AdiakState) (held : Held) (s' : AdiakState) (held' : Held)
    (trace : List Invocation) : Prop where
  ran : Ran tools reportableRank s held s' held' (rest.flatMap fun tool => names tool.id)
  about : ∀ i ∈ trace, i.recording.isSome = true →
    i.notice.name ∈ (rest.flatMap fun tool => names tool.id) ∨
      i.recording = recording ∧ i.notice.name = e.name ∧ i.notice.dtype = e.dtype ∧
        i.notice.value = e.value
  told : (∀ i ∈ trace, i.Current) →
    Told tools reportableRank held' trace (rest.flatMap fun tool => names tool.id)
  own : recording.isSome = true → ∀ tool ∈ rest, ∃ i ∈ trace, i.about tool.id e.name = true
  idle : rest = [] → trace = []
  /-- While the event is what the store holds. -/
  current : (∀ info, recording = some info → held e.name = some (e.dtype, e.value, info)) →
    ((∀ i ∈ trace, i.Current) ↔
      (recording.isSome = true → rest.Pairwise fun earlier _ => e.name ∉ names earlier.id) ∧
        ∀ tool ∈ rest, calm tool.id)
  /-- Once another recording has replaced it. -/
  stale : ∀ info, recording = some info →
    (∀ f, held e.name = some f → info.timestamp < f.2.2.timestamp) →
    (∀ i ∈ trace, i.Current) → rest = []

/-- What is known of the callbacks. -/
def CallbackFollows (callback : Nat → AdiakState → Except Stop (AdiakState × List Invocation)) : Prop :=
  ∀ k s held s' trace, Stores s held → s.config.toolList = some tools →
    s.config.reportableRank = reportableRank → callback k s = .ok (s', trace) →
    ∃ held', Follows tools reportableRank s held s' held' trace (names k) (calm k)

variable {tools reportableRank e recording names calm}

theorem Told.cons {held : Held} {trace : List Invocation} {names : List CStr}
    (h : Told tools reportableRank held trace names) (i : Invocation) :
    Told tools reportableRank held (i :: trace) names := by
  intro name hname f hf tool htool hhears
  obtain ⟨j, hj, hcarries⟩ := h name hname f hf tool htool hhears
  refine ⟨j, ?_, hcarries⟩
  rw [← List.singleton_append, lastAbout_append, hj, Option.some_or]

theorem Looped.nil {s : AdiakState} {held : Held} (h : Stores s held)
    (htools : s.config.toolList = some tools) (hrank : s.config.reportableRank = reportableRank) :
    Looped tools reportableRank e recording names calm [] s held s held [] where
  ran := .refl h htools hrank
  about := fun i hi => by cases hi
  told := fun _ name hname => by cases hname
  own := fun _ tool htool => by cases htool
  idle := fun _ => rfl
  current := fun _ => iff_of_true (fun i hi => by cases hi)
    ⟨fun _ => .nil, fun tool htool => by cases htool⟩
  stale := fun _ _ _ _ => rfl

section Cons

variable {tool : Tool} {rest : List Tool} {s s₀ s₁ s₂ : AdiakState} {held held₁ held₂ : Held}
  {inner trace : List Invocation} {i : Invocation}

/-- A recording by the callback replaces the event. -/
theorem stale_of_mem (hstart : Ran tools reportableRank s held s₀ held [])
    (hinner : Follows tools reportableRank s₀ held s₁ held₁ inner (names tool.id) (calm tool.id))
    {info : RecordInfo} (hinfo : info.timestamp < s.ticks) (hmem : e.name ∈ names tool.id)
    (f : AdiakDatatype × AdiakValue × RecordInfo) (hf : held₁ e.name = some f) :
    info.timestamp < f.2.2.timestamp := by
  obtain ⟨f', hf', hticks⟩ := hinner.ran.fresh e.name hmem
  obtain rfl : f' = f := Option.some.inj (hf'.symm.trans hf)
  exact hinfo.trans_le (hstart.ticks.trans hticks)

/-- One iteration: the call to the tool, what its callback does, and the tools behind it. -/
theorem Looped.cons (hstart : Ran tools reportableRank s held s₀ held [])
    (hinfo : ∀ info, recording = some info → info.timestamp < s.ticks)
    (hi : i.state = s₀ ∧ i.recording = recording ∧ ∃ shown, i.notice = e.notice tool shown ∧
      ∀ info, recording = some info → shown.Of info)
    (hinner : Follows tools reportableRank s₀ held s₁ held₁ inner (names tool.id) (calm tool.id))
    (hrest : Looped tools reportableRank e recording names calm rest s₁ held₁ s₂ held₂ trace) :
    Looped tools reportableRank e recording names calm (tool :: rest) s held s₂ held₂
      (i :: inner ++ trace) := by
  obtain ⟨rfl, hrec, shown, hnotice, hshown⟩ := hi
  have hname : i.notice.name = e.name := by rw [hnotice]; rfl
  have hdtype : i.notice.dtype = e.dtype := by rw [hnotice]; rfl
  have hvalue : i.notice.value = e.value := by rw [hnotice]; rfl
  -- behind a recording of the name by the callback nothing is current any more
  have hbehind : ∀ info, recording = some info → e.name ∈ names tool.id →
      (∀ j ∈ trace, j.Current) → rest = [] := fun info hinfo' hmem =>
    hrest.stale info hinfo' (stale_of_mem hstart hinner (hinfo info hinfo') hmem)
  refine ⟨?_, ?_, fun hcurrent => ?_, fun hsome t ht => ?_, fun hnil => absurd hnil (List.cons_ne_nil _ _),
    fun hfresh => ?_, fun info hinfo' hold hcurrent => ?_⟩
  · exact hstart.trans (hinner.ran.trans hrest.ran)
  · intro j hj hsome
    rw [List.flatMap_cons]
    rcases List.mem_append.mp hj with hj | hj
    · rcases List.mem_cons.mp hj with rfl | hj
      · exact .inr ⟨hrec, hname, hdtype, hvalue⟩
      · exact .inl (List.mem_append_left _ (hinner.about j hj hsome))
    · exact (hrest.about j hj hsome).imp_left (List.mem_append_right _)
  · rw [List.forall_mem_append, List.forall_mem_cons] at hcurrent
    obtain ⟨⟨-, hcurrent⟩, hcurrent'⟩ := hcurrent
    rw [List.flatMap_cons]
    refine ((hinner.told hcurrent).cons i).append (hrest.told hcurrent') hrest.ran.kept ?_
    rintro name hmem hmem' j hj hsome rfl
    rcases hrest.about j hj hsome with h | ⟨hrec', hname', -⟩
    · exact hmem' h
    · rw [hrec'] at hsome
      obtain ⟨info, hinfo'⟩ := Option.isSome_iff_exists.mp hsome
      have hnil := hrest.idle (hbehind info hinfo' (hname' ▸ hmem) hcurrent')
      rw [hnil] at hj
      cases hj
  · rcases List.mem_cons.mp ht with rfl | ht
    · refine ⟨i, List.mem_cons_self, about_eq_true.mpr ⟨hrec ▸ hsome, ?_, hname⟩⟩
      rw [hnotice]
      rfl
    · obtain ⟨j, hj, habout⟩ := hrest.own hsome t ht
      exact ⟨j, List.mem_append_right _ hj, habout⟩
  · have hcall : i.Current := fun info hinfo' => by
      rw [hrec] at hinfo'
      refine ⟨?_, by rw [hnotice]; exact hshown info hinfo'⟩
      rw [hstart.stores.get, hname, hdtype, hvalue, hfresh info hinfo']
    rw [List.forall_mem_append, List.forall_mem_cons, hinner.current, List.forall_mem_cons,
      List.pairwise_cons]
    by_cases hmem : recording.isSome = true ∧ e.name ∈ names tool.id
    · obtain ⟨hsome, hmem⟩ := hmem
      obtain ⟨info, hinfo'⟩ := Option.isSome_iff_exists.mp hsome
      constructor
      · rintro ⟨⟨-, hcalm⟩, hcurrent⟩
        obtain rfl := hbehind info hinfo' hmem hcurrent
        refine ⟨fun _ => ⟨fun t ht => ?_, .nil⟩, hcalm, fun t ht => ?_⟩ <;> cases ht
      · rintro ⟨hpairwise, hcalm, -⟩
        have hnil : rest = [] := List.eq_nil_iff_forall_not_mem.mpr fun t ht =>
          (hpairwise hsome).1 t ht hmem
        rw [hrest.idle hnil]
        exact ⟨⟨hcall, hcalm⟩, fun j hj => by cases hj⟩
    · have hkept : ∀ info, recording = some info → e.name ∉ names tool.id := fun info hinfo' h =>
        hmem ⟨by rw [hinfo']; rfl, h⟩
      rw [hrest.current fun info hinfo' => by
        rw [hinner.ran.kept e.name (hkept info hinfo'), hfresh info hinfo']]
      constructor
      · rintro ⟨⟨-, hcalm⟩, hpairwise, hcalms⟩
        refine ⟨fun hsome => ⟨fun _ _ h => hmem ⟨hsome, h⟩, hpairwise hsome⟩, hcalm, hcalms⟩
      · rintro ⟨hpairwise, hcalm, hcalms⟩
        exact ⟨⟨hcall, hcalm⟩, fun hsome => (hpairwise hsome).2, hcalms⟩
  · have hcall := (hcurrent i List.mem_cons_self info (hrec.trans hinfo')).1
    rw [hstart.stores.get, hname] at hcall
    exact absurd (hold _ (Except.ok.inj hcall)) (lt_irrefl _)

end Cons

/-- The loop of `adiak_raw_namevalue`, for callbacks of which it is known what they do. -/
theorem loop_spec {callback : Nat → AdiakState → Except Stop (AdiakState × List Invocation)}
    (hcallback : CallbackFollows tools reportableRank names calm callback)
    {rest : List Tool} {infoPtr : Option InfoPtr} {s s' : AdiakState} {held : Held}
    {trace : List Invocation} (h : Stores s held) (htools : s.config.toolList = some tools)
    (hrank : s.config.reportableRank = reportableRank)
    (hinfo : ∀ info, recordingOf infoPtr = some info → info.category = e.category ∧
      info.subcategory = e.subcategory ∧ info.timestamp < s.ticks)
    (hrun : notifyWith e callback rest infoPtr s = .ok (s', trace)) :
    ∃ held', Looped tools reportableRank e (recordingOf infoPtr) names calm
      (rest.filter fun tool => tool.notified reportableRank e) s held s' held' trace := by
  induction rest generalizing infoPtr s held trace with
  | nil =>
    obtain ⟨rfl, rfl⟩ : s = s' ∧ [] = trace := by simpa [notifyWith] using hrun
    exact ⟨held, .nil h htools hrank⟩
  | cons tool rest ih =>
    unfold notifyWith at hrun
    rw [hrank] at hrun
    by_cases hnotified : tool.notified reportableRank e = true
    · obtain ⟨shown, infoPtr', ticks, hdeliver, hkeep, hticks, hof⟩ :=
        exists_deliver infoPtr s.ticks hnotified
      rw [hdeliver] at hrun
      obtain ⟨⟨s₁, inner⟩, hcall, hrun⟩ := bind_eq_ok.mp hrun
      obtain ⟨⟨s₂, behind⟩, hloop, heq⟩ := bind_eq_ok.mp hrun
      obtain ⟨rfl, rfl⟩ := Prod.mk.inj (Except.ok.inj heq)
      -- the library while the callback runs
      have hstart : Stores { s with ticks := ticks, log := s.log ++ [e.notice tool shown] } held :=
        h.of_eq (fun rs hrs => hrs.of_eq rfl rfl rfl rfl) hticks
      obtain ⟨held₁, hinner⟩ := hcallback _ _ _ _ _ hstart htools hrank hcall
      have hle := hticks.trans hinner.ran.ticks
      obtain ⟨held₂, hrest⟩ := ih hinner.ran.stores hinner.ran.toolList hinner.ran.rank
        (fun info hrec => by
          obtain ⟨hcat, hsub, hlt⟩ := hinfo info (hkeep ▸ hrec)
          exact ⟨hcat, hsub, hlt.trans_le hle⟩) hloop
      have hfilter : (tool :: rest).filter (fun tool => tool.notified reportableRank e) =
          tool :: rest.filter fun tool => tool.notified reportableRank e :=
        List.filter_cons_of_pos hnotified
      rw [hkeep] at hrest
      rw [hfilter]
      refine ⟨held₂, Looped.cons ⟨hstart, htools, hrank, hticks, fun _ _ => rfl, fun _ hname => ?_⟩
        (fun info hrec => (hinfo info hrec).2.2) ⟨rfl, rfl, shown, rfl, fun info hrec => ?_⟩
        hinner hrest⟩
      · cases hname
      · exact hof info hrec (hinfo info hrec).1 (hinfo info hrec).2.1
    · rw [deliver_eq_none (Bool.not_eq_true _ ▸ hnotified)] at hrun
      have hfilter : (tool :: rest).filter (fun tool => tool.notified reportableRank e) =
          rest.filter fun tool => tool.notified reportableRank e :=
        List.filter_cons_of_neg hnotified
      rw [hfilter]
      exact ih h htools hrank hinfo hrun

/-- A control event leaves the recording to its callbacks. -/
theorem Looped.follows_control {rest : List Tool} {s s' : AdiakState} {held held' : Held}
    {trace : List Invocation}
    (h : Looped tools reportableRank e none names calm rest s held s' held' trace) :
    Follows tools reportableRank s held s' held' trace (rest.flatMap fun tool => names tool.id)
      (∀ tool ∈ rest, calm tool.id) where
  ran := h.ran
  about := fun i hi hsome => by
    rcases h.about i hi hsome with hmem | ⟨hrec, -⟩
    · exact hmem
    · rw [hrec] at hsome
      cases hsome
  told := h.told
  current := (h.current fun info hinfo => by cases hinfo).trans
    (and_iff_right fun hsome => by cases hsome)

/-- Recording an event in front of the loop. -/
theorem Looped.follows_recorded {s s₁ s' : AdiakState} {held held' : Held} {trace : List Invocation}
    {info : RecordInfo} (hinfo : info = newInfo e s.ticks) (hticks : s₁.ticks = s.ticks + 1)
    (h : Looped tools reportableRank e (some info) names calm
      (tools.filter fun tool => tool.notified reportableRank e) s₁
      (Function.update held e.name (some (e.dtype, e.value, info))) s' held' trace) :
    Follows tools reportableRank s held s' held' trace
      (e.name :: (tools.filter fun tool => tool.notified reportableRank e).flatMap fun tool =>
        names tool.id)
      (((tools.filter fun tool => tool.notified reportableRank e).Pairwise fun earlier _ =>
          e.name ∉ names earlier.id) ∧
        ∀ tool ∈ tools.filter fun tool => tool.notified reportableRank e, calm tool.id) := by
  have hle : s.ticks ≤ s₁.ticks := by omega
  refine ⟨⟨h.ran.stores, h.ran.toolList, h.ran.rank, hle.trans h.ran.ticks, fun name hname => ?_,
    fun name hname => ?_⟩, fun i hi hsome => ?_, fun hcurrent name hname f hf tool htool hhears => ?_,
    ?_⟩
  · rw [List.mem_cons, not_or] at hname
    rw [h.ran.kept name hname.2, Function.update_of_ne hname.1]
  · by_cases hmem : name ∈ (tools.filter fun tool => tool.notified reportableRank e).flatMap
        fun tool => names tool.id
    · obtain ⟨f, hf, hlt⟩ := h.ran.fresh name hmem
      exact ⟨f, hf, hle.trans hlt⟩
    · obtain rfl := (List.mem_cons.mp hname).resolve_right hmem
      refine ⟨_, (h.ran.kept e.name hmem).trans (Function.update_self ..), ?_⟩
      rw [hinfo]
      exact le_rfl
  · rcases h.about i hi hsome with hmem | ⟨-, hname, -⟩
    · exact List.mem_cons_of_mem _ hmem
    · rw [hname]
      exact List.mem_cons_self
  · by_cases hmem : name ∈ (tools.filter fun tool => tool.notified reportableRank e).flatMap
        fun tool => names tool.id
    · exact h.told hcurrent name hmem f hf tool htool hhears
    · -- nothing has replaced the event, so all notifications of the name are its own
      obtain rfl := (List.mem_cons.mp hname).resolve_right hmem
      rw [h.ran.kept e.name hmem, Function.update_self] at hf
      obtain rfl := Option.some.inj hf
      have hnotified : tool.notified reportableRank e = true := by
        rw [hinfo] at hhears
        exact hhears
      obtain ⟨j, hj, habout⟩ := h.own rfl tool (List.mem_filter.mpr ⟨htool, hnotified⟩)
      obtain ⟨i, hi⟩ := exists_lastAbout hj habout
      obtain ⟨hi', habout'⟩ := of_lastAbout hi
      obtain ⟨hsome, -, hiname⟩ := about_eq_true.mp habout'
      refine ⟨i, hi, ?_⟩
      rcases h.about i hi' hsome with hmem' | ⟨hrec, -, hdtype, hvalue⟩
      · exact absurd (hiname ▸ hmem') hmem
      · exact ⟨hrec, hdtype, hvalue⟩
  · rw [h.current fun info' hinfo' => by
      obtain rfl := Option.some.inj hinfo'
      exact Function.update_self ..]
    exact and_congr_left fun _ => ⟨fun hp => hp rfl, fun hp _ => hp⟩

/-- An event, for callbacks of which it is known what they do. -/
theorem event_spec {callback : Nat → AdiakState → Except Stop (AdiakState × List Invocation)}
    (hcallback : CallbackFollows tools reportableRank names calm callback)
    {infoPtr : Option InfoPtr} {s s₁ s' : AdiakState} {held : Held} {trace : List Invocation}
    (h : Stores s held) (htools : s.config.toolList = some tools)
    (hrank : s.config.reportableRank = reportableRank) (hrec : recordEvent s e = .ok (s₁, infoPtr))
    (hrun : (match s₁.config.toolList with
      | none => Except.error Stop.undefined
      | some tools => notifyWith e callback tools infoPtr s₁) = .ok (s', trace)) :
    ∃ held', Follows tools reportableRank s held s' held' trace
      ((if e.category = adiakControl then [] else [e.name]) ++
        (tools.filter fun tool => tool.notified reportableRank e).flatMap fun tool => names tool.id)
      ((e.category ≠ adiakControl →
          (tools.filter fun tool => tool.notified reportableRank e).Pairwise fun earlier _ =>
            e.name ∉ names earlier.id) ∧
        ∀ tool ∈ tools.filter fun tool => tool.notified reportableRank e, calm tool.id) := by
  rcases h.recordEvent hrec with ⟨hcat, rfl, rfl⟩ | ⟨hcat, rfl, h₁, hticks, hrest⟩
  · have hinfo : ∀ info, recordingOf none = some info → info.category = e.category ∧
        info.subcategory = e.subcategory ∧ info.timestamp < s₁.ticks := fun info hinfo => by cases hinfo
    simp only [htools] at hrun
    obtain ⟨held', hloop⟩ := loop_spec hcallback h htools hrank hinfo hrun
    rw [if_pos hcat, List.nil_append, and_iff_right fun hne => absurd hcat hne]
    exact ⟨held', hloop.follows_control⟩
  · have htools₁ : s₁.config.toolList = some tools := (congrArg Prod.fst hrest).trans htools
    have hrank₁ : s₁.config.reportableRank = reportableRank :=
      (congrArg (fun x => x.2.1) hrest).trans hrank
    have hinfo : ∀ info, recordingOf (some (.stored (newInfo e s.ticks))) = some info →
        info.category = e.category ∧ info.subcategory = e.subcategory ∧
          info.timestamp < s₁.ticks := fun info hinfo => by
      obtain rfl := Option.some.inj hinfo
      exact ⟨rfl, rfl, hticks ▸ Nat.lt_succ_self s.ticks⟩
    simp only [htools₁] at hrun
    obtain ⟨held', hloop⟩ := loop_spec hcallback h₁ htools₁ hrank₁ hinfo hrun
    rw [if_neg hcat, List.singleton_append, forall_prop_of_true hcat]
    exact ⟨held', hloop.follows_recorded rfl hticks⟩

end Loop

/-! ## All nestings -/

section Runs

variable {tools : List Tool} {reportableRank : Bool}

mutual

theorem run_spec {s s' : AdiakState} {held : Held} {trace : List Invocation} (c : Nested)
    (h : Stores s held) (htools : s.config.toolList = some tools)
    (hrank : s.config.reportableRank = reportableRank) (hrun : Nested.run s c = .ok (s', trace)) :
    ∃ held', Follows tools reportableRank s held s' held' trace
      (Nested.recorded tools reportableRank c) (Nested.Undisturbed tools reportableRank c) :=
  match c with
  | .call m name category subcategory typestr ap callback => by
    have hcallback : CallbackFollows tools reportableRank
        (fun k => Nested.recordedAll tools reportableRank (callback k))
        (fun k => Nested.UndisturbedAll tools reportableRank (callback k))
        (fun k s => Nested.runAll s (callback k)) :=
      fun k _ _ _ _ => runAll_spec (callback k)
    unfold Nested.run at hrun
    unfold Nested.recorded Nested.Undisturbed namevalueEvents
    cases hargs : namevalueArgs m typestr ap with
    | error e =>
      rw [hargs] at hrun
      cases e with
      | null =>
        obtain ⟨rfl, rfl⟩ := Prod.mk.inj (Except.ok.inj hrun)
        obtain ⟨hran, habout, htold, hcurrent⟩ := Follows.nil h htools hrank
        exact ⟨held, hran, habout, htold, hcurrent.trans (iff_of_true trivial fun e he => by cases he)⟩
      | undefined => cases hrun
      | fuel => cases hrun
    | ok args =>
      obtain ⟨value, dtype⟩ := args
      rw [hargs] at hrun
      dsimp only at hrun ⊢
      obtain ⟨⟨s₁, infoPtr⟩, hrec, hrun⟩ := bind_eq_ok.mp hrun
      rw [List.flatMap_singleton, List.forall_mem_singleton]
      exact event_spec hcallback h htools hrank hrec hrun

theorem runAll_spec {s s' : AdiakState} {held : Held} {trace : List Invocation} (cs : List Nested)
    (h : Stores s held) (htools : s.config.toolList = some tools)
    (hrank : s.config.reportableRank = reportableRank)
    (hrun : Nested.runAll s cs = .ok (s', trace)) :
    ∃ held', Follows tools reportableRank s held s' held' trace
      (Nested.recordedAll tools reportableRank cs)
      (Nested.UndisturbedAll tools reportableRank cs) :=
  match cs with
  | [] => by
    obtain ⟨rfl, rfl⟩ : s = s' ∧ [] = trace := by simpa [Nested.runAll] using hrun
    exact ⟨held, .nil h htools hrank⟩
  | c :: cs => by
    unfold Nested.runAll at hrun
    obtain ⟨⟨s₁, trace₁⟩, hfirst, hrun⟩ := bind_eq_ok.mp hrun
    obtain ⟨⟨s₂, trace₂⟩, hrest, heq⟩ := bind_eq_ok.mp hrun
    obtain ⟨rfl, rfl⟩ := Prod.mk.inj (Except.ok.inj heq)
    obtain ⟨held₁, h₁⟩ := run_spec c h htools hrank hfirst
    obtain ⟨held₂, h₂⟩ := runAll_spec cs h₁.ran.stores h₁.ran.toolList h₁.ran.rank hrest
    exact ⟨held₂, h₁.append h₂⟩

end

end Runs

theorem runAll_append (s : AdiakState) (cs cs' : List Nested) :
    Nested.runAll s (cs ++ cs') = (do
      let (s, trace) ← Nested.runAll s cs
      let (s, trace') ← Nested.runAll s cs'
      .ok (s, trace ++ trace')) := by
  induction cs generalizing s with
  | nil =>
    rw [List.nil_append, Nested.runAll, ok_bind]
    dsimp only
    cases Nested.runAll s cs' <;> rfl
  | cons c cs ih =>
    rw [List.cons_append, Nested.runAll, Nested.runAll]
    cases Nested.run s c with
    | error _ => rfl
    | ok first =>
      simp only [ok_bind, ih]
      cases Nested.runAll first.1 cs with
      | error _ => rfl
      | ok rest =>
        simp only [ok_bind]
        cases Nested.runAll rest.1 cs' with
        | error _ => rfl
        | ok last => simp only [ok_bind, List.append_assoc]

/-- Where all that tools get is current, what they got last is what the store holds. -/
theorem Follows.upToDate {tools : List Tool} {reportableRank : Bool} {s s' : AdiakState}
    {held held' : Held} {trace : List Invocation} {names : List CStr} {calm : Prop}
    (h : Follows tools reportableRank s held s' held' trace names calm)
    (hcurrent : ∀ i ∈ trace, i.Current) : UpToDate s' trace := by
  intro tools' htools' tool htool name f hget hhears i hlast
  obtain rfl := Option.some.inj (h.ran.toolList.symm.trans htools')
  obtain ⟨hi, habout⟩ := of_lastAbout hlast
  obtain ⟨hsome, -, hname⟩ := about_eq_true.mp habout
  have hmem := h.about i hi hsome
  rw [hname] at hmem
  rw [h.ran.rank] at hhears
  have hheld : held' name = some f := Except.ok.inj ((h.ran.stores.get name).symm.trans hget)
  obtain ⟨j, hj, hcarries⟩ := h.told hcurrent name hmem f hheld tool htool hhears
  obtain rfl := Option.some.inj (hlast.symm.trans hj)
  exact hcarries

/-- Calls of `adiak_namevalue` from any state, with callbacks that call back: every callback gets what
the store holds for its name, and behind each call the tools have got last what the store holds, if and
only if no callback records the name it is called for while a tool is still to be notified of it. -/
theorem current_iff (minimumVersion : Int) (reportableRank : Bool) (calls : List Call)
    (s s' : AdiakState) (tools : List Tool) (cs : List Nested) (trace : List Invocation)
    (hreach : Adiak.run (initialState minimumVersion reportableRank) calls = .ok s)
    (htools : s.config.toolList = some tools) (hrun : Nested.runAll s cs = .ok (s', trace)) :
    ((∀ i ∈ trace, i.Current) ∧
      ∀ cs₁ cs₂ s₁ trace₁, cs = cs₁ ++ cs₂ → Nested.runAll s cs₁ = .ok (s₁, trace₁) →
        UpToDate s₁ trace₁) ↔
      Nested.UndisturbedAll tools s.config.reportableRank cs := by
  obtain ⟨held, hstores⟩ := stores_run (stores_initialState minimumVersion reportableRank) hreach
  obtain ⟨held', hfollows⟩ := runAll_spec cs hstores htools rfl hrun
  rw [← hfollows.current, and_iff_left_iff_imp]
  rintro hcurrent cs₁ cs₂ s₁ trace₁ rfl hrun₁
  obtain ⟨held₁, h₁⟩ := runAll_spec cs₁ hstores htools rfl hrun₁
  -- the calls to the tools so far are the first ones of the whole run
  rw [runAll_append, hrun₁, ok_bind] at hrun
  obtain ⟨⟨s₂, trace₂⟩, -, heq⟩ := bind_eq_ok.mp hrun
  obtain ⟨-, rfl⟩ := Prod.mk.inj (Except.ok.inj heq)
  exact h₁.upToDate fun i hi => hcurrent i (List.mem_append_left _ hi)

/-- A call that records an `int`, with the calls of the callbacks. -/
def Nested.ofInt (name : CStr) (v : Int) (callback : Nat → List Nested) : Nested :=
  .call .empty name adiakGeneral none ['%', 'd'] [.int v] callback

/-- Two tools, of either kind. -/
def twoTools : List Call :=
  [.registerCb 1 adiakCategoryAll true 0, .registerCbWithInfo 1 adiakCategoryAll true 0]

/-- The condition on a call that records an `int`. -/
theorem undisturbedAll_ofInt {tools : List Tool} {reportableRank : Bool} {name : CStr} {v : Int}
    {callback : Nat → List Nested} :
    Nested.UndisturbedAll tools reportableRank [.ofInt name v callback] ↔
      (tools.filter fun tool => tool.hears reportableRank adiakGeneral).Pairwise (fun earlier _ =>
          name ∉ Nested.recordedAll tools reportableRank (callback earlier.id)) ∧
        ∀ tool ∈ tools.filter fun tool => tool.hears reportableRank adiakGeneral,
          Nested.UndisturbedAll tools reportableRank (callback tool.id) := by
  rw [Nested.UndisturbedAll, Nested.UndisturbedAll, Nested.ofInt, Nested.Undisturbed]
  have hevents : namevalueEvents .empty name adiakGeneral none ['%', 'd'] [.int v] =
      [⟨name, adiakGeneral, none, .vInt v, baseInt⟩] := rfl
  rw [hevents, List.forall_mem_singleton, forall_prop_of_true (by decide : adiakGeneral ≠ adiakControl)]
  exact and_iff_left trivial

/-- Two tools that record another name each. -/
theorem current_iff_other_names : ∃ s s' trace,
    Adiak.run (initialState 1 true) twoTools = .ok s ∧
    Nested.runAll s [.ofInt ['a'] 1 fun _ => [.ofInt ['b'] 2 fun _ => []]] = .ok (s', trace) ∧
    (∀ i ∈ trace, i.Current) ∧ UpToDate s' trace := by
  have hreach : Adiak.run (initialState 1 true) twoTools = .ok _ := rfl
  obtain ⟨⟨s', trace⟩, hrun⟩ := exists_of_isOk (x := Adiak.run (initialState 1 true) twoTools >>=
    fun s => Nested.runAll s [.ofInt ['a'] 1 fun _ => [.ofInt ['b'] 2 fun _ => []]])
    (by decide +kernel)
  rw [hreach, ok_bind] at hrun
  obtain ⟨hcurrent, hprefix⟩ := (current_iff 1 true twoTools _ s' _ _ trace hreach rfl hrun).mpr (by
    rw [undisturbedAll_ofInt]
    refine ⟨?_, fun tool _ => undisturbedAll_ofInt.mpr ⟨?_, fun _ _ => trivial⟩⟩
    · decide
    · decide)
  exact ⟨_, s', trace, hreach, hrun, hcurrent, hprefix _ [] s' trace rfl hrun⟩

/-- The tool that is notified first records the name again: the other one gets what was released. -/
theorem current_iff_not_always : ∃ s s' trace,
    Adiak.run (initialState 1 true) twoTools = .ok s ∧
    Nested.runAll s [.ofInt ['a'] 1 fun k => if k = 1 then [.ofInt ['a'] 2 fun _ => []] else []] =
      .ok (s', trace) ∧ ¬ ∀ i ∈ trace, i.Current := by
  have hreach : Adiak.run (initialState 1 true) twoTools = .ok _ := rfl
  obtain ⟨⟨s', trace⟩, hrun⟩ := exists_of_isOk (x := Adiak.run (initialState 1 true) twoTools >>=
    fun s => Nested.runAll s
      [.ofInt ['a'] 1 fun k => if k = 1 then [.ofInt ['a'] 2 fun _ => []] else []])
    (by decide +kernel)
  rw [hreach, ok_bind] at hrun
  refine ⟨_, s', trace, hreach, hrun, fun hcurrent => ?_⟩
  obtain ⟨held, hstores⟩ := stores_run (stores_initialState 1 true) hreach
  obtain ⟨held', hfollows⟩ := runAll_spec _ hstores rfl rfl hrun
  obtain ⟨hpairwise, -⟩ := undisturbedAll_ofInt.mp (hfollows.current.mp hcurrent)
  exact absurd hpairwise (by decide)

end Adiak
