import Adiak.Store.History

/-!
# What tools see

The calls a tool receives, and the store as a tool can rebuild it from them.

1. `issued` lists the events of a run. `Watches` follows one tool through a run: `watches_step` says
   what one call adds to its log, `watches_run` what a run adds.
2. `entries_of_cleaned` and `entries_of_notCleaned` are the two ways a run can end for the store.
3. `run_tool` puts the log of a tool beside the store: the log is the subsequence of the events it
   asked for, and for a tool that asked for all of them, what it was told last under each name is
   what `adiak_list_namevals` lists.
-/

namespace Adiak

/-! ## Events of a run -/

/-- The events a run hands to `adiak_raw_namevalue`, in order. -/
def issued : Flags → List Call → List Event
  | _, [] => []
  | flags, c :: cs => c.events flags ++ issued (c.setFlags flags) cs

def Call.isClean : Call → Bool
  | .clean => true
  | _ => false

/-- The registration of a tool, with a callback of either kind. -/
def Call.register (withInfo : Bool) (version category : Int) (reportOnAllRanks : Bool)
    (opaqueVal : Addr) : Call :=
  if withInfo then .registerCbWithInfo version category reportOnAllRanks opaqueVal
  else .registerCb version category reportOnAllRanks opaqueVal

/-- Name, value and type. -/
def Event.content (e : Event) : CStr × AdiakValue × AdiakDatatype := (e.name, e.value, e.dtype)

/-- What the calls to a tool carried. -/
def AdiakState.heard (s : AdiakState) (k : Nat) : List (CStr × AdiakValue × AdiakDatatype) :=
  (s.log.filter fun n => n.tool = k).map fun n => (n.name, n.value, n.dtype)

theorem heard_eq (s : AdiakState) (k : Nat) :
    s.heard k = ((s.log.map Notice.content).filter fun c => c.1 = k).map Prod.snd := by
  unfold AdiakState.heard
  rw [List.filter_map, List.map_map]
  rfl

/-! ## Following a tool -/

/-- The numbers of the tools, on the list and in the log, have been given out, and the rank is the
one `adiak_init` has fixed. -/
structure Numbered (s : AdiakState) (reportableRank : Bool) : Prop where
  rank : s.config.reportableRank = reportableRank
  tools : ∀ tools, s.config.toolList = some tools → ∀ tool ∈ tools, tool.id < s.toolBrk
  log : ∀ n ∈ s.log, n.tool < s.toolBrk

/-- The tool number `k` is on the list, once, until the list is released. -/
structure Watches (s : AdiakState) (k : Nat) (tool : Tool) (reportableRank : Bool) : Prop where
  lt : k < s.toolBrk
  rank : s.config.reportableRank = reportableRank
  listed : ∀ tools, s.config.toolList = some tools → tools.filter (fun t => t.id = k) = [tool]

/-- Of the calls an event leads to, a tool that is on the list once gets at most one. -/
theorem deliveries_filter {tools : List Tool} {k : Nat} {tool : Tool}
    (h : tools.filter (fun t => t.id = k) = [tool]) (reportableRank : Bool) (e : Event) :
    ((deliveries tools reportableRank e).filter fun c => c.1 = k).map Prod.snd =
      ([e].filter fun e => tool.notified reportableRank e).map Event.content := by
  unfold deliveries
  have hfilter : (tools.filter fun t => t.notified reportableRank e).filter (fun t => t.id = k) =
      [tool].filter fun t => t.notified reportableRank e := by
    rw [← h, List.filter_filter, List.filter_filter]
    exact List.filter_congr fun t _ => Bool.and_comm _ _
  rw [List.filter_map, List.map_map]
  show ((tools.filter fun t => t.notified reportableRank e).filter fun t => t.id = k).map _ = _
  rw [hfilter]
  cases hwants : tool.notified reportableRank e <;> simp [hwants, Event.content]

/-- What recording events adds to the log of a tool. -/
theorem heard_recordAll {s s' : AdiakState} {rs : List (Nat × Record)} {es : List Event}
    {k : Nat} {tool : Tool} {reportableRank : Bool} (hs : Holds s rs)
    (hwatch : Watches s k tool reportableRank) (hrec : recordAll s es = .ok s') :
    s'.heard k = s.heard k ++ (es.filter fun e => tool.notified reportableRank e).map Event.content := by
  obtain ⟨-, -, -, -, hlog⟩ := recordAll_holds hs hrec
  cases es with
  | nil =>
    obtain rfl : s = s' := by simpa [recordAll] using hrec
    simp
  | cons e es =>
    -- an event can only be recorded while the list of tools is there
    obtain ⟨tools, htools⟩ : ∃ tools, s.config.toolList = some tools := by
      obtain ⟨s₁, hraw, -⟩ := bind_eq_ok.mp hrec
      obtain ⟨tools, -, htools, -⟩ := adiakRawNamevalue_holds hs hraw
      exact ⟨tools, htools⟩
    have hlisted := hwatch.listed tools htools
    have hflat : ∀ es : List Event,
        ((es.flatMap (deliveries tools reportableRank)).filter fun c => c.1 = k).map Prod.snd =
          (es.filter fun e => tool.notified reportableRank e).map Event.content := by
      intro es
      induction es with
      | nil => rfl
      | cons e es ih =>
        rw [List.flatMap_cons, List.filter_append, List.map_append, ih,
          deliveries_filter hlisted, ← List.map_append, ← List.filter_append]
        rfl
    rw [heard_eq, hlog, htools, hwatch.rank, Option.getD_some, List.filter_append, List.map_append,
      hflat, ← heard_eq]

/-- The log stays, and a tool that is new on the list has the next number. -/
structure ToolsKept (s s' : AdiakState) : Prop where
  log : s'.log = s.log
  rank : s'.config.reportableRank = s.config.reportableRank
  brk : s.toolBrk ≤ s'.toolBrk
  list : ∀ tools', s'.config.toolList = some tools' → ∃ tools, s.config.toolList = some tools ∧
    (tools' = tools ∨
      ∃ t : Tool, t.id = s.toolBrk ∧ s'.toolBrk = s.toolBrk + 1 ∧ tools' = t :: tools)

theorem toolsKept_register {s s' : AdiakState} {version category : Int}
    {nv nvi reportOnAllRanks : Bool} {opaqueVal : Addr}
    (h : adiakRegister s version category nv nvi reportOnAllRanks opaqueVal = .ok s') :
    ToolsKept s s' := by
  obtain ⟨tools, htools, htools', hrank, hbrk, hlog, -, -⟩ := adiakRegister_eq_ok h
  refine ⟨hlog, hrank, by omega, fun tools' h' => ⟨tools, htools, .inr ?_⟩⟩
  rw [htools'] at h'
  exact ⟨_, rfl, hbrk, (Option.some.inj h').symm⟩

/-- What follows the events of a call keeps the tools. -/
theorem finish_tools {c : Call} {s s' : AdiakState} (h : c.Finish s s') : ToolsKept s s' := by
  have hsame : ∀ {s' : AdiakState}, s'.log = s.log →
      s'.config.reportableRank = s.config.reportableRank → s'.toolBrk = s.toolBrk →
      s'.config.toolList = s.config.toolList → ToolsKept s s' := fun hlog hrank hbrk htools =>
    ⟨hlog, hrank, hbrk.ge, fun tools' h' => ⟨tools', htools ▸ h', .inl rfl⟩⟩
  cases c with
  | registerCb => exact toolsKept_register h
  | registerCbWithInfo => exact toolsKept_register h
  | clean =>
    obtain ⟨rs, -, rfl⟩ := h
    exact ⟨rfl, rfl, le_rfl, fun tools' h' => by cases h'⟩
  | _ => subst h; exact hsame rfl rfl rfl rfl

/-- A call keeps the numbering. -/
theorem numbered_step {s s' : AdiakState} {rs : List (Nat × Record)} {c : Call}
    {reportableRank : Bool} (hs : Holds s rs) (hnum : Numbered s reportableRank)
    (h : step s c = .ok s') : Numbered s' reportableRank := by
  obtain ⟨s₁, hrec, hfinish⟩ := step_eq_ok hs h
  obtain ⟨-, -, -, hrest, hlog⟩ := recordAll_holds hs hrec
  have htools₁ : s₁.config.toolList = s.config.toolList := congrArg Prod.fst hrest
  have hbrk₁ : s₁.toolBrk = s.toolBrk := congrArg (fun x => x.2.2.1) hrest
  have hrank₁ : s₁.config.reportableRank = s.config.reportableRank :=
    congrArg (fun x => x.2.1) hrest
  obtain ⟨hlog', hrank', hbrk, hlist⟩ := finish_tools hfinish
  refine ⟨(hrank'.trans hrank₁).trans hnum.rank, ?_, ?_⟩
  · intro tools' htools' tool htool
    obtain ⟨tools, htools, rfl | ⟨t, ht, hbrk', rfl⟩⟩ := hlist tools' htools'
    · have hlt := hnum.tools tools' (htools₁ ▸ htools) tool htool
      omega
    · rcases List.mem_cons.mp htool with rfl | htool
      · omega
      · have hlt := hnum.tools tools (htools₁ ▸ htools) tool htool
        omega
  · intro n hn
    rw [hlog'] at hn
    have hcontent : n.content ∈ s₁.log.map Notice.content := List.mem_map_of_mem hn
    rw [hlog, List.mem_append] at hcontent
    have hlt : n.content.1 < s.toolBrk := by
      rcases hcontent with hold | hnew
      · obtain ⟨n', hn', heq⟩ := List.mem_map.mp hold
        rw [← heq]
        exact hnum.log n' hn'
      · obtain ⟨e, -, hdelivered⟩ := List.mem_flatMap.mp hnew
        obtain ⟨tool, htool, heq⟩ := List.mem_map.mp hdelivered
        rw [← heq]
        cases htools : s.config.toolList with
        | none => rw [htools] at htool; cases htool
        | some tools =>
          rw [htools] at htool
          exact hnum.tools tools htools tool (List.mem_of_mem_filter htool)
    have hcontent : n.content.1 = n.tool := rfl
    omega

theorem numbered_run {s s' : AdiakState} {g : History} {calls : List Call} {reportableRank : Bool}
    (hinv : Inv s g) (hnum : Numbered s reportableRank) (h : run s calls = .ok s') :
    Numbered s' reportableRank := by
  induction calls generalizing s g with
  | nil =>
    obtain rfl : s = s' := by simpa [run] using h
    exact hnum
  | cons c cs ih =>
    obtain ⟨s₁, hstep, h⟩ := bind_eq_ok.mp h
    obtain ⟨rs, hs, -⟩ := hinv.store
    exact ih (inv_step hinv hstep) (numbered_step hs hnum hstep) h

/-- What one call adds to the log of a tool. -/
theorem watches_step {s s' : AdiakState} {rs : List (Nat × Record)} {c : Call} {k : Nat}
    {tool : Tool} {reportableRank : Bool} (hs : Holds s rs)
    (hwatch : Watches s k tool reportableRank) (h : step s c = .ok s') :
    Watches s' k tool reportableRank ∧ s'.heard k = s.heard k ++
      ((c.events s.flags).filter fun e => tool.notified reportableRank e).map Event.content := by
  obtain ⟨s₁, hrec, hfinish⟩ := step_eq_ok hs h
  obtain ⟨-, -, -, hrest, -⟩ := recordAll_holds hs hrec
  have htools₁ : s₁.config.toolList = s.config.toolList := congrArg Prod.fst hrest
  have hrank₁ : s₁.config.reportableRank = s.config.reportableRank :=
    congrArg (fun x => x.2.1) hrest
  have hbrk₁ : s₁.toolBrk = s.toolBrk := congrArg (fun x => x.2.2.1) hrest
  obtain ⟨hlog', hrank', hbrk, hlist⟩ := finish_tools hfinish
  have hlt := hwatch.lt
  refine ⟨⟨by omega, (hrank'.trans hrank₁).trans hwatch.rank, fun tools' htools' => ?_⟩, ?_⟩
  · obtain ⟨tools, htools, rfl | ⟨t, ht, -, rfl⟩⟩ := hlist tools' htools'
    · exact hwatch.listed tools' (htools₁ ▸ htools)
    · have hne : ¬ t.id = k := by omega
      rw [List.filter_cons_of_neg (by simpa using hne)]
      exact hwatch.listed tools (htools₁ ▸ htools)
  · rw [← heard_recordAll hs hwatch hrec]
    unfold AdiakState.heard
    rw [hlog']

/-- What a run adds to the log of a tool. -/
theorem watches_run {s s' : AdiakState} {g : History} {calls : List Call} {k : Nat} {tool : Tool}
    {reportableRank : Bool} (hinv : Inv s g) (hwatch : Watches s k tool reportableRank)
    (h : run s calls = .ok s') :
    s'.heard k = s.heard k ++
      ((issued g.flags calls).filter fun e => tool.notified reportableRank e).map Event.content := by
  induction calls generalizing s g with
  | nil =>
    obtain rfl : s = s' := by simpa [run] using h
    simp [issued]
  | cons c cs ih =>
    obtain ⟨s₁, hstep, h⟩ := bind_eq_ok.mp h
    obtain ⟨rs, hs, -⟩ := hinv.store
    obtain ⟨hwatch₁, hheard₁⟩ := watches_step hs hwatch hstep
    have hflags : (g.step c).flags = c.setFlags g.flags := rfl
    rw [ih (inv_step hinv hstep) hwatch₁ h, hheard₁, issued, List.filter_append, List.map_append,
      List.append_assoc, hinv.flags, hflags]

/-! ## The store at the end of a run -/

theorem entries_of_notCleaned {g : History} {calls : List Call}
    (h : calls.any Call.isClean = false) :
    (calls.foldl History.step g).entries =
      g.entries ++ (issued g.flags calls).flatMap Event.registered := by
  induction calls generalizing g with
  | nil => simp [issued]
  | cons c cs ih =>
    rw [List.any_cons, Bool.or_eq_false_iff] at h
    have hentries : (g.step c).entries = g.entries ++ (c.events g.flags).flatMap Event.registered := by
      cases c with
      | clean => cases h.1
      | _ => rfl
    rw [List.foldl_cons, ih h.2, hentries, issued, List.flatMap_append, List.append_assoc]
    rfl

/-- Without a list of tools nothing can be recorded. -/
theorem events_of_toolList_none {s s' : AdiakState} {rs : List (Nat × Record)} {c : Call}
    (hs : Holds s rs) (htools : s.config.toolList = none) (h : step s c = .ok s') :
    c.events s.flags = [] ∧ s'.config.toolList = none := by
  obtain ⟨s₁, hrec, hfinish⟩ := step_eq_ok hs h
  obtain ⟨-, -, -, hrest, -⟩ := recordAll_holds hs hrec
  have htools₁ : s₁.config.toolList = s.config.toolList := congrArg Prod.fst hrest
  constructor
  · cases hevents : c.events s.flags with
    | nil => rfl
    | cons e es =>
      rw [hevents] at hrec
      obtain ⟨s₂, hraw, -⟩ := bind_eq_ok.mp hrec
      obtain ⟨tools, -, hsome, -⟩ := adiakRawNamevalue_holds hs hraw
      rw [htools] at hsome
      cases hsome
  · cases hlist : s'.config.toolList with
    | none => rfl
    | some tools' =>
      obtain ⟨tools, hsome, -⟩ := (finish_tools hfinish).list tools' hlist
      rw [htools₁, htools] at hsome
      cases hsome

theorem entries_of_toolList_none {s s' : AdiakState} {g : History} {calls : List Call}
    (hinv : Inv s g) (htools : s.config.toolList = none) (hentries : g.entries = [])
    (h : run s calls = .ok s') : (calls.foldl History.step g).entries = [] := by
  induction calls generalizing s g with
  | nil => exact hentries
  | cons c cs ih =>
    obtain ⟨s₁, hstep, h⟩ := bind_eq_ok.mp h
    obtain ⟨rs, hs, -⟩ := hinv.store
    obtain ⟨hevents, htools₁⟩ := events_of_toolList_none hs htools hstep
    refine ih (inv_step hinv hstep) htools₁ ?_ h
    rw [hinv.flags] at hevents
    cases c with
    | clean => rfl
    | _ =>
      show g.entries ++ (Call.events g.flags _).flatMap Event.registered = []
      rw [hevents, hentries]
      rfl

theorem entries_of_cleaned {s s' : AdiakState} {g : History} {calls : List Call} (hinv : Inv s g)
    (hclean : calls.any Call.isClean = true) (h : run s calls = .ok s') :
    (calls.foldl History.step g).entries = [] := by
  induction calls generalizing s g with
  | nil => cases hclean
  | cons c cs ih =>
    obtain ⟨s₁, hstep, h⟩ := bind_eq_ok.mp h
    cases hc : c.isClean with
    | true =>
      cases c with
      | clean =>
        obtain ⟨rs, hs, -⟩ := hinv.store
        obtain ⟨s₂, -, rs₂, -, rfl⟩ := step_eq_ok hs hstep
        rw [List.foldl_cons]
        exact entries_of_toolList_none (inv_step hinv hstep) rfl rfl h
      | _ => cases hc
    | false =>
      rw [List.any_cons, hc, Bool.false_or] at hclean
      exact ih (inv_step hinv hstep) hclean h

/-! ## The log of a tool and the store -/

/-- The pair a listing reports for a record. -/
def Event.pair (e : Event) : CStr × (AdiakValue × AdiakDatatype) := (e.name, (e.value, e.dtype))

/-- The pair an event writes: control events write nothing. -/
def Event.written (e : Event) : List (CStr × (AdiakValue × AdiakDatatype)) :=
  if e.category = adiakControl then [] else [e.pair]

/-- Value and type of a registration. -/
def Registration.shown (r : Registration) : AdiakValue × AdiakDatatype := (r.value, r.dtype)

theorem map_registered (e : Event) :
    e.registered.map (Prod.map id Registration.shown) = e.written := by
  unfold Event.registered Event.written
  split_ifs <;> rfl

/-- Listing everything lists the ledger of the history. -/
theorem listing_eq {s : AdiakState} {g : History} (hinv : Inv s g) :
    ∃ es, adiakListNamevals s adiakCategoryAll = .ok es ∧
      es.map Event.pair = Ledger.replay (g.entries.map (Prod.map id Registration.shown)) := by
  obtain ⟨rs, hs, hentries⟩ := hinv.store
  refine ⟨rs.map fun r => r.2.event, ?_, ?_⟩
  · unfold adiakListNamevals
    rw [(holds_iff.mp hs).sharedRecords_eq, ok_bind]
    have hall : (rs.filter fun r => decide (adiakCategoryAll = adiakCategoryAll) ||
        decide (r.2.category = adiakCategoryAll)) = rs := by
      simp
    rw [hall]
  · rw [← Ledger.map_replay, ← hentries, List.map_map, List.map_map]
    rfl

/-- The state in which a tool has just been registered. -/
theorem watches_register {s s' : AdiakState} {withInfo : Bool} {version category : Int}
    {reportOnAllRanks reportableRank : Bool} {opaqueVal : Addr} (hnum : Numbered s reportableRank)
    (h : step s (.register withInfo version category reportOnAllRanks opaqueVal) = .ok s') :
    s'.heard s.toolBrk = [] ∧ Watches s' s.toolBrk
      { id := s.toolBrk, version, opaqueVal, nameValCb := !withInfo, reportOnAllRanks, category,
        namevalInfoCb := withInfo } reportableRank := by
  have hregister : adiakRegister s version category (!withInfo) withInfo reportOnAllRanks opaqueVal =
      .ok s' := by cases withInfo <;> exact h
  obtain ⟨tools, htools, htools', hrank, hbrk, hlog, -, -⟩ := adiakRegister_eq_ok hregister
  refine ⟨?_, by omega, hrank.trans hnum.rank, fun tools' h' => ?_⟩
  · unfold AdiakState.heard
    rw [hlog, List.filter_eq_nil_iff.mpr, List.map_nil]
    intro n hn
    have hlt := hnum.log n hn
    simp only [decide_eq_true_eq]
    omega
  · obtain rfl := Option.some.inj (h'.symm.trans htools')
    have hold : tools.filter (fun t => t.id = s.toolBrk) = [] := by
      refine List.filter_eq_nil_iff.mpr fun t ht => ?_
      have hlt := hnum.tools tools htools t ht
      simp only [decide_eq_true_eq]
      omega
    rw [List.filter_cons_of_pos (by simp), hold]

/-- The events a tool asks for with its category and its flag, on a given rank. -/
def asked (reportOnAllRanks reportableRank : Bool) (category : Int) (es : List Event) : List Event :=
  es.filter fun e => (reportOnAllRanks || reportableRank) &&
    (category = adiakCategoryAll || category = e.category)

/-- A tool that registers in a run is called with the events it asked for that are issued from then
on, in order and once each. If it asked for all of them on a reportable rank, then the listing at
its registration, followed by what it was called with, tells under every name what the listing at
the end of the run tells. -/
theorem run_tool {minimumVersion : Int} {reportableRank : Bool} {before after : List Call}
    {s s₁ s' : AdiakState} (hbefore : run (initialState minimumVersion reportableRank) before = .ok s)
    {withInfo : Bool} {version category : Int} {reportOnAllRanks : Bool} {opaqueVal : Addr}
    (hregister : step s (.register withInfo version category reportOnAllRanks opaqueVal) = .ok s₁)
    (hafter : run s₁ after = .ok s') :
    s'.heard s.toolBrk = (asked reportOnAllRanks reportableRank category
      (issued s.flags after)).map Event.content ∧
    (category = adiakCategoryAll → reportableRank = true → ∃ listing final,
      adiakListNamevals s adiakCategoryAll = .ok listing ∧
      adiakListNamevals s' adiakCategoryAll = .ok final ∧ ∀ name x,
        (if after.any Call.isClean then none
          else Ledger.newest (listing.map Event.pair ++ (asked reportOnAllRanks reportableRank category
            (issued s.flags after)).flatMap Event.written) name) = some x ↔
          (name, x) ∈ final.map Event.pair) := by
  have hinit := inv_initialState minimumVersion reportableRank
  have hnumInit : Numbered (initialState minimumVersion reportableRank) reportableRank := by
    refine ⟨rfl, fun tools htools tool htool => ?_, fun n hn => by cases hn⟩
    obtain rfl := Option.some.inj htools
    cases htool
  have hinv := inv_run hinit hbefore
  have hnum := numbered_run hinit hnumInit hbefore
  obtain ⟨hheard, hwatch⟩ := watches_register hnum hregister
  have hinv₁ := inv_step hinv hregister
  generalize before.foldl History.step .initial = g at hinv hinv₁
  -- the registration issues nothing
  have hg : (g.step (.register withInfo version category reportOnAllRanks opaqueVal)) = g := by
    cases withInfo <;> simp [Call.register, History.step, Call.events, Call.setFlags]
  rw [hg] at hinv₁
  have hlog := watches_run hinv₁ hwatch hafter
  rw [hheard, List.nil_append, ← hinv.flags] at hlog
  constructor
  · rw [hlog]
    unfold asked Tool.notified Tool.wants
    cases withInfo <;> simp
  · rintro rfl rfl
    obtain ⟨listing, hlisting, hpairs⟩ := listing_eq hinv
    obtain ⟨final, hfinal, hpairs'⟩ := listing_eq (inv_run hinv₁ hafter)
    refine ⟨listing, final, hlisting, hfinal, fun name x => ?_⟩
    have hall : asked reportOnAllRanks true adiakCategoryAll (issued s.flags after) =
        issued s.flags after := by
      unfold asked
      simp
    rw [hpairs', Ledger.mem_replay_iff, hall, hpairs, Ledger.newest_replay_append]
    cases hclean : after.any Call.isClean with
    | true =>
      rw [entries_of_cleaned hinv₁ hclean hafter]
      exact iff_of_false (by simp) (by simp [Ledger.newest, Ledger.lookup])
    | false =>
      rw [entries_of_notCleaned hclean, List.map_append, List.map_flatMap, hinv.flags]
      simp only [map_registered, Bool.false_eq_true, if_false]

/-- A tool that hears a value, a flush and the value once more. -/
theorem run_tool_flush : ∃ s₁ s' final,
    step (initialState 1 true) (.register true 1 adiakCategoryAll false 0) = .ok s₁ ∧
    run s₁ [.rawNamevalue ⟨['a'], adiakGeneral, none, .vInt 1, baseInt⟩, .flush 0,
      .rawNamevalue ⟨['a'], adiakPerformance, none, .vLong 2, baseLong⟩] = .ok s' ∧
    s'.heard 0 = [(['a'], .vInt 1, baseInt), (flushEvent 0).content, (['a'], .vLong 2, baseLong)] ∧
    adiakListNamevals s' adiakCategoryAll = .ok final ∧
    (['a'], (.vLong 2, baseLong)) ∈ final.map Event.pair := by
  obtain ⟨s', hs'⟩ := exists_of_isOk (x := step (initialState 1 true)
    (.register true 1 adiakCategoryAll false 0) >>= fun s₁ => run s₁
      [.rawNamevalue ⟨['a'], adiakGeneral, none, .vInt 1, baseInt⟩, .flush 0,
        .rawNamevalue ⟨['a'], adiakPerformance, none, .vLong 2, baseLong⟩]) (by decide +kernel)
  obtain ⟨s₁, hregister, hafter⟩ := bind_eq_ok.mp hs'
  have hbefore : run (initialState 1 true) [] = .ok (initialState 1 true) := rfl
  obtain ⟨hheard, hview⟩ := run_tool hbefore hregister hafter
  obtain ⟨listing, final, hlisting, hfinal, hiff⟩ := hview rfl rfl
  have hempty : adiakListNamevals (initialState 1 true) adiakCategoryAll = .ok [] := rfl
  obtain rfl := Except.ok.inj (hlisting.symm.trans hempty)
  exact ⟨s₁, s', final, hregister, hafter, hheard, hfinal, (hiff _ _).mp rfl⟩

end Adiak
