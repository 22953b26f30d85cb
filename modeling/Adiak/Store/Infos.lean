import Adiak.Store.History

/-!
# The info that tools receive

What `info_ptr` leads to in the calls `adiak_raw_namevalue` makes to the tools with an info callback.

For ordinary events it is the info of the record, for control events it is a record local to one
iteration of the loop: `notifyTools_stored`, `notifyTools_none` and `notifyTools_dangling` follow the
pointer through the loop.
-/

namespace Adiak

/-- The category and the subcategory of an event, with a clock reading of a given time span. -/
def RecordInfo.Of (info : RecordInfo) (e : Event) (start stop : Nat) : Prop :=
  info.category = e.category ∧ info.subcategory = e.subcategory ∧
    start ≤ info.timestamp ∧ info.timestamp < stop

/-- An info pointer that leads to an info. -/
def InfoPtr.Leads : InfoPtr → RecordInfo → Prop
  | .stored info, info' => info' = info
  | .slot info, info' => info' = info
  | .dangling, _ => False

/-- The call to a tool carries the event. With an info callback, the info is that of the event. -/
def Informed (e : Event) (start stop : Nat) (tool : Tool) (n : Notice) : Prop :=
  n.content = (tool.id, e.name, e.value, e.dtype) ∧
    (tool.nameValCb = false →
      ∃ ptr info, n.info = .info ptr ∧ ptr.Leads info ∧ info.Of e start stop)

/-- The tools an event is shown to through their info callback. -/
def infoTools (tools : List Tool) (reportableRank : Bool) (e : Event) : List Tool :=
  tools.filter fun tool => tool.notified reportableRank e && !tool.nameValCb

/-! ## The loop -/

section Loop

variable {e : Event} {reportableRank : Bool} {tool : Tool} {tools : List Tool}
  {ptr : Option InfoPtr} {ticks : Nat}

theorem notifyTools_skip (h : tool.notified reportableRank e = false) :
    notifyTools e reportableRank (tool :: tools) ptr ticks =
      notifyTools e reportableRank tools ptr ticks := by
  unfold Tool.notified at h
  rw [notifyTools.eq_def]
  dsimp only
  split_ifs with hwants hcb hinfo
  · simp [hwants, hcb] at h
  · simp [hwants, hinfo] at h
  · rfl
  · rfl

theorem notifyTools_direct (h : tool.notified reportableRank e = true)
    (hcb : tool.nameValCb = true) :
    notifyTools e reportableRank (tool :: tools) ptr ticks =
      (e.notice tool (.direct e.category e.subcategory) ::
          (notifyTools e reportableRank tools ptr ticks).1,
        (notifyTools e reportableRank tools ptr ticks).2) := by
  unfold Tool.notified at h
  rw [notifyTools.eq_def]
  dsimp only
  rw [if_pos (Bool.and_eq_true_iff.mp h).1, if_pos hcb]

/-- A tool with an info callback: the pointer is kept, or made and lost. -/
theorem notifyTools_info (h : tool.notified reportableRank e = true)
    (hcb : tool.nameValCb = false) :
    notifyTools e reportableRank (tool :: tools) ptr ticks =
      match ptr with
      | some ptr => (e.notice tool (.info ptr) ::
          (notifyTools e reportableRank tools (some ptr) ticks).1,
        (notifyTools e reportableRank tools (some ptr) ticks).2)
      | none => (e.notice tool (.info (.slot (newInfo e ticks))) ::
          (notifyTools e reportableRank tools (some .dangling) (ticks + 1)).1,
        (notifyTools e reportableRank tools (some .dangling) (ticks + 1)).2) := by
  unfold Tool.notified at h
  obtain ⟨hwants, hinfo⟩ := Bool.and_eq_true_iff.mp h
  rw [hcb, Bool.false_or] at hinfo
  cases ptr <;> simp only [notifyTools, hwants, hcb, hinfo, if_true, Bool.false_eq_true, if_false]

theorem infoTools_cons :
    infoTools (tool :: tools) reportableRank e =
      if tool.notified reportableRank e && !tool.nameValCb then
        tool :: infoTools tools reportableRank e
      else infoTools tools reportableRank e := by
  unfold infoTools
  rw [List.filter_cons]

/-- The clock is read at most once, and only if there is no info yet. -/
theorem ticks_le_notifyTools : ticks ≤ (notifyTools e reportableRank tools ptr ticks).2 := by
  induction tools generalizing ptr ticks with
  | nil => exact le_rfl
  | cons tool tools ih =>
    cases hnotified : tool.notified reportableRank e with
    | false => rw [notifyTools_skip hnotified]; exact ih
    | true =>
      cases hcb : tool.nameValCb with
      | true => rw [notifyTools_direct hnotified hcb]; exact ih
      | false =>
        rw [notifyTools_info hnotified hcb]
        cases ptr with
        | none => exact (Nat.le_succ ticks).trans ih
        | some ptr => exact ih

/-- With the info of a record every tool is informed. -/
theorem notifyTools_stored {info : RecordInfo} {start stop : Nat} (hinfo : info.Of e start stop) :
    List.Forall₂ (Informed e start stop) (tools.filter fun tool => tool.notified reportableRank e)
      (notifyTools e reportableRank tools (some (.stored info)) ticks).1 := by
  induction tools with
  | nil => exact .nil
  | cons tool tools ih =>
    rw [List.filter_cons]
    cases hnotified : tool.notified reportableRank e with
    | false => rw [notifyTools_skip hnotified]; exact ih
    | true =>
      cases hcb : tool.nameValCb with
      | true =>
        rw [notifyTools_direct hnotified hcb]
        exact .cons ⟨rfl, fun h => by rw [hcb] at h; cases h⟩ ih
      | false =>
        rw [notifyTools_info hnotified hcb]
        exact .cons ⟨rfl, fun _ => ⟨_, info, rfl, rfl, hinfo⟩⟩ ih

/-- Behind the iteration that made the info, no tool with an info callback is informed. -/
theorem notifyTools_dangling {start stop : Nat} :
    List.Forall₂ (Informed e start stop) (tools.filter fun tool => tool.notified reportableRank e)
      (notifyTools e reportableRank tools (some .dangling) ticks).1 ↔
        infoTools tools reportableRank e = [] := by
  induction tools with
  | nil => exact iff_of_true .nil rfl
  | cons tool tools ih =>
    rw [List.filter_cons, infoTools_cons]
    cases hnotified : tool.notified reportableRank e with
    | false => rw [notifyTools_skip hnotified]; exact ih
    | true =>
      cases hcb : tool.nameValCb with
      | true =>
        rw [notifyTools_direct hnotified hcb]
        refine ⟨fun h => ih.mp (List.forall₂_cons.mp h).2, fun h => .cons ⟨rfl, ?_⟩ (ih.mpr h)⟩
        intro hfalse
        rw [hcb] at hfalse
        cases hfalse
      | false =>
        rw [notifyTools_info hnotified hcb]
        refine iff_of_false (fun h => ?_) (List.cons_ne_nil _ _)
        obtain ⟨ptr, info, hptr, hleads, -⟩ := (List.forall₂_cons.mp h).1.2 hcb
        cases hptr
        exact hleads

/-- Without a record, one tool with an info callback is informed. -/
theorem notifyTools_none {start stop : Nat} (hstart : start ≤ ticks)
    (hstop : (notifyTools e reportableRank tools none ticks).2 ≤ stop) :
    List.Forall₂ (Informed e start stop) (tools.filter fun tool => tool.notified reportableRank e)
      (notifyTools e reportableRank tools none ticks).1 ↔
        (infoTools tools reportableRank e).length ≤ 1 := by
  induction tools with
  | nil => exact iff_of_true .nil (Nat.zero_le _)
  | cons tool tools ih =>
    rw [List.filter_cons, infoTools_cons]
    cases hnotified : tool.notified reportableRank e with
    | false =>
      rw [notifyTools_skip hnotified] at hstop ⊢
      exact ih hstop
    | true =>
      cases hcb : tool.nameValCb with
      | true =>
        rw [notifyTools_direct hnotified hcb] at hstop ⊢
        have ih := ih hstop
        refine ⟨fun h => ih.mp (List.forall₂_cons.mp h).2, fun h => .cons ⟨rfl, ?_⟩ (ih.mpr h)⟩
        intro hfalse
        rw [hcb] at hfalse
        cases hfalse
      | false =>
        rw [notifyTools_info hnotified hcb] at hstop ⊢
        have hticks : ticks < stop := lt_of_lt_of_le ticks_le_notifyTools hstop
        have hlen : (tool :: infoTools tools reportableRank e).length ≤ 1 ↔
            infoTools tools reportableRank e = [] := by
          rw [List.length_cons, ← List.length_eq_zero_iff]
          omega
        refine Iff.trans ⟨fun h => notifyTools_dangling.mp (List.forall₂_cons.mp h).2, fun h => ?_⟩
          hlen.symm
        exact .cons ⟨rfl, fun _ => ⟨_, newInfo e ticks, rfl, rfl, rfl, rfl, hstart, hticks⟩⟩
          (notifyTools_dangling.mpr h)

end Loop

/-! ## Events -/

theorem ticks_setRecordHash (s : AdiakState) (b : Bucket) (p : Option Nat) :
    (s.setRecordHash b p).ticks = s.ticks := by
  unfold AdiakState.setRecordHash
  split_ifs <;> rfl

/-- Recording reads the clock once. -/
theorem recordNameval_eq_ok {s s' : AdiakState} {e : Event} {info : RecordInfo}
    (h : recordNameval s e = .ok (s', info)) :
    info = newInfo e s.ticks ∧ s'.ticks = s.ticks + 1 ∧ s'.rest = s.rest ∧ s'.log = s.log := by
  unfold recordNameval at h
  obtain ⟨found, -, h⟩ := bind_eq_ok.mp h
  cases found with
  | none =>
    obtain ⟨rfl, rfl⟩ := Prod.mk.inj (Except.ok.inj h)
    exact ⟨rfl, ticks_setRecordHash _ _ _, rest_setRecordHash _ _ _⟩
  | some p =>
    obtain ⟨r, -, h⟩ := bind_eq_ok.mp h
    obtain ⟨-, -, h⟩ := bind_eq_ok.mp h
    obtain ⟨rfl, rfl⟩ := Prod.mk.inj (Except.ok.inj h)
    exact ⟨rfl, rfl, rfl, rfl⟩

/-- The clock and the info after the first half of `adiak_raw_namevalue`. -/
theorem recordEvent_eq_ok {s s₁ : AdiakState} {e : Event} {infoPtr : Option InfoPtr}
    (h : recordEvent s e = .ok (s₁, infoPtr)) :
    s₁.log = s.log ∧ s₁.rest = s.rest ∧
      (e.category ≠ adiakControl ∧ s₁.ticks = s.ticks + 1 ∧
          infoPtr = some (.stored (newInfo e s.ticks)) ∨
        e.category = adiakControl ∧ s₁.ticks = s.ticks ∧ infoPtr = none) := by
  unfold recordEvent at h
  by_cases hcat : e.category = adiakControl
  · rw [if_neg (not_not.mpr hcat)] at h
    obtain ⟨rfl, rfl⟩ := Prod.mk.inj (Except.ok.inj h)
    exact ⟨rfl, rfl, .inr ⟨hcat, rfl, rfl⟩⟩
  · rw [if_pos hcat] at h
    obtain ⟨⟨s₂, info⟩, hrec, h⟩ := bind_eq_ok.mp h
    obtain ⟨rfl, rfl⟩ := Prod.mk.inj (Except.ok.inj h)
    obtain ⟨rfl, hticks, hrest, hlog⟩ := recordNameval_eq_ok hrec
    exact ⟨hlog, hrest, .inl ⟨hcat, hticks, rfl⟩⟩

/-- Every eligible tool with an info callback receives the info of the event if and only if the event
is no control event, or there is at most one such tool. -/
theorem adiakRawNamevalue_infos {s s' : AdiakState} {e : Event}
    (h : adiakRawNamevalue s e = .ok s') :
    (∃ notices, s'.log = s.log ++ notices ∧
      List.Forall₂ (Informed e s.ticks s'.ticks)
        ((s.config.toolList.getD []).filter fun tool => tool.notified s.config.reportableRank e)
        notices) ↔
      e.category ≠ adiakControl ∨
        (infoTools (s.config.toolList.getD []) s.config.reportableRank e).length ≤ 1 := by
  unfold adiakRawNamevalue at h
  obtain ⟨⟨s₁, infoPtr⟩, hevent, h⟩ := bind_eq_ok.mp h
  obtain ⟨hlog, hrest, hinfo⟩ := recordEvent_eq_ok hevent
  have htools : s₁.config.toolList = s.config.toolList := congrArg Prod.fst hrest
  have hrank : s₁.config.reportableRank = s.config.reportableRank :=
    congrArg (fun x => x.2.1) hrest
  dsimp only at h
  rw [htools] at h
  cases hlist : s.config.toolList with
  | none => rw [hlist] at h; cases h
  | some tools =>
    rw [hlist] at h
    obtain rfl := Except.ok.inj h
    rw [hlog, hrank]
    simp only [Option.getD_some, List.append_cancel_left_eq, exists_eq_left']
    rcases hinfo with ⟨hcat, hticks, rfl⟩ | ⟨hcat, hticks, rfl⟩
    · rw [hticks]
      exact iff_of_true (notifyTools_stored ⟨rfl, rfl, le_rfl, ticks_le_notifyTools⟩) (.inl hcat)
    · rw [hticks, notifyTools_none le_rfl le_rfl]
      exact ⟨.inr, fun h => h.resolve_left (not_not.mpr hcat)⟩

/-- A flush shown to an info tool behind a tool of the other kind. -/
theorem adiakRawNamevalue_infos_flush : ∃ s s',
    run (initialState 1 true) [.registerCbWithInfo 1 adiakCategoryAll false 0,
      .registerCb 1 adiakCategoryAll false 0] = .ok s ∧
    adiakRawNamevalue s (flushEvent 0) = .ok s' ∧ ∃ notices, s'.log = s.log ++ notices ∧
      List.Forall₂ (Informed (flushEvent 0) s.ticks s'.ticks)
        ((s.config.toolList.getD []).filter fun tool =>
          tool.notified s.config.reportableRank (flushEvent 0)) notices :=
  ⟨_, _, rfl, rfl, (adiakRawNamevalue_infos rfl).mpr (.inr (by decide))⟩

/-- A flush shown to two info tools: the second one is given a pointer to nothing. -/
theorem adiakRawNamevalue_infos_not_always :
    ¬ ∀ s s' e, adiakRawNamevalue s e = .ok s' → ∃ notices, s'.log = s.log ++ notices ∧
      List.Forall₂ (Informed e s.ticks s'.ticks)
        ((s.config.toolList.getD []).filter fun tool => tool.notified s.config.reportableRank e)
        notices := by
  intro h
  let tool : Tool := ⟨0, 1, 0, false, false, adiakCategoryAll, true⟩
  let s : AdiakState := { initialState 1 true with
    config := { (initialState 1 true).config with toolList := some [tool, tool] } }
  obtain ⟨notices, hlog, hinformed⟩ := h s _ (flushEvent 0) rfl
  obtain rfl : _ = notices := hlog
  cases hinformed with
  | cons hfirst hrest =>
    cases hrest with
    | cons hsecond _ =>
      obtain ⟨ptr, info, hptr, hleads, -⟩ := hsecond.2 rfl
      cases hptr
      exact hleads

end Adiak
