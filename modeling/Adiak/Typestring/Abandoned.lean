import Adiak.Typestring.Blocks
import Adiak.Typestring.Settles

/-!
# What a failed parse leaves behind

1. `outline` goes through a typestring from the left, as the parser does, and builds nothing. It logs
   every `Lapse`: an opening bracket that is not closed, and a tuple of no components.
2. `Held` is the invariant of a node under construction. `Outcome` is what a call comes to.
3. `tracked_parse` is the induction over the recursion depth: run side by side with its outline, the
   parser loses blocks if and only if there is a lapse that `leaves` some.
4. `releasedOnce_iff` is the result for whole strings, `abandoned_iff` for strings with counts.
-/

namespace Adiak

namespace Heap

open Traced (Along along_pure along_fail along_lift spec_pure spec_tell spec_lift lift fail tell attempt)

/-! ## The outline of a parse -/

/-- A place in a typestring whose blocks `free_adiak_type` may miss: an opening bracket that is not closed
in its region, a tuple of no components, the end of the string in place of a type. -/
inductive Lapse where
  | unclosed
  | emptyTuple
  | noType

abbrev Outline := Traced Lapse Stop

/-- The arguments and the cursor that are handed back. -/
abbrev Rest := List VArg × Nat

abbrev SelfOutline := Nat → Int → Bool → List VArg → Nat → Outline Rest

section Outline

variable (self : SelfOutline) (ts : CStr)

/-- A container, with what is done inside its brackets. -/
def outlineRegion (endchar : Char) (cur : Nat) (typestrEnd : Int) (inside : Nat → Outline Rest) :
    Outline Rest := do
  match ← lift (Adiak.findEndBrace ts endchar cur typestrEnd) with
  | none =>
    tell .unclosed
    fail .null
  | some endBrace => inside endBrace

/-- The element of a list, a set or a range. What stands behind it in the brackets is skipped. -/
def outlineElement (cur endBrace : Nat) (isReference : Bool) (ap : List VArg) : Outline Rest := do
  let (ap, _) ← self (cur + 1) endBrace isReference ap cur
  pure (ap, endBrace + 1)

def outlineListOrSet (isList : Bool) (cur : Nat) (typestrEnd : Int) (isReference : Bool)
    (ap : List VArg) : Outline Rest :=
  outlineRegion ts (if isList then '}' else ']') cur typestrEnd fun endBrace => do
    let (_, ap) ← lift (vaArgInt ap)
    outlineElement self cur endBrace isReference ap

/-- `n` components of a tuple. -/
def outlineComponents (endBrace : Nat) (isReference : Bool) :
    Nat → Nat → List VArg → Outline (List VArg)
  | 0, _, ap => pure ap
  | n + 1, cur, ap => do
    let (ap, cur) ← self cur endBrace isReference ap cur
    outlineComponents endBrace isReference n cur ap

/-- A count is looked at for a lapse. -/
def checkCount (numElements : Int) : Outline Unit :=
  if numElements = 0 then tell .emptyTuple else pure ()

def outlineTuple (cur endBrace : Nat) (isReference : Bool) (ap : List VArg) (newTypestrStart : Nat) :
    Outline Rest := do
  let (numElements, ap) ← lift (vaArgInt ap)
  if numElements < 0 then fail .undefined
  else
    checkCount numElements
    let ap ← outlineComponents self endBrace isReference numElements.toNat (cur + 1) ap
    pure (ap, newTypestrStart)

def outlineBranch (typestrEnd : Int) (isReference : Bool) (ap : List VArg) (newTypestrStart cur : Nat)
    (c : Char) : Outline Rest :=
  if c = '{' ∨ c = '[' then
    outlineListOrSet self ts (c = '{') cur typestrEnd isReference ap
  else if c = '<' then
    outlineRegion ts '>' cur typestrEnd fun endBrace => outlineElement self cur endBrace isReference ap
  else if c = '(' then
    outlineRegion ts ')' cur typestrEnd fun endBrace =>
      outlineTuple self cur endBrace isReference ap newTypestrStart
  else if c = '%' then do
    let (_, cur) ← lift (Adiak.parseScalar ts isReference (cur + 1))
    pure (ap, cur)
  else if c = nul then do
    tell .noType
    pure (ap, newTypestrStart)
  else fail .null

end Outline

/-- The outline of a call, to a given depth. -/
def outlineHelper (ts : CStr) : Nat → SelfOutline
  | 0, _, _, _, _, _ => fail .fuel
  | depth + 1, typestrStart, typestrEnd, isReference, ap, newTypestrStart =>
    if typestrStart = typestrEnd then fail .null
    else do
      let cur := skipSeparators (ts.drop typestrStart) typestrStart
      let amp := (← lift (charAtInt ts cur)) = '&'
      let cur := if amp then cur + 1 else cur
      let c ← lift (charAtInt ts cur)
      outlineBranch (outlineHelper ts depth) ts typestrEnd (isReference || amp) ap newTypestrStart cur c

/-- The outline of a whole string. -/
def outline (typestr : List Char) (ap : List VArg) : Outline Rest :=
  outlineHelper (cStr typestr) ((cStr typestr).length + 1) 0 (intLength (cStr typestr)) false ap 0

theorem outline_of_lt {typestr : List Char} (h : (cStr typestr).length < 2 ^ 31) (ap : List VArg) :
    outline typestr ap =
      outlineHelper (cStr typestr) ((cStr typestr).length + 1) 0 (cStr typestr).length false ap 0 := by
  unfold outline
  rw [intLength_of_lt h]

/-- A node without a `dtype` stays, and so does the array of an empty tuple, if there is one. -/
def Lapse.leaves (zeroBlock : Bool) : Lapse → Bool
  | .unclosed => true
  | .emptyTuple => zeroBlock
  | .noType => true

/-- No blocks are left behind. -/
def Clean (zeroBlock : Bool) (lapses : List Lapse) : Prop :=
  ∀ l ∈ lapses, l.leaves zeroBlock = false

section Clean

variable {zeroBlock : Bool} {lapses lapses' : List Lapse}

theorem clean_nil : Clean zeroBlock [] := fun _ h => absurd h List.not_mem_nil

theorem clean_singleton {l : Lapse} : Clean zeroBlock [l] ↔ l.leaves zeroBlock = false :=
  List.forall_mem_singleton

theorem clean_append : Clean zeroBlock (lapses ++ lapses') ↔
    Clean zeroBlock lapses ∧ Clean zeroBlock lapses' :=
  List.forall_mem_append

end Clean

/-! ## Quiet functions -/

/-- A function that neither allocates nor releases. -/
def Quiet {α : Type} (x : Run α) : Prop :=
  ∀ log, x.Spec log fun added _ => ∀ a ∈ added, a.isQuiet = true

section Quiet

variable {α β : Type} {x : Run α} {f : α → Run β} {ts : CStr}

theorem quiet_pure (a : α) : Quiet (pure a : Run α) := fun _ =>
  spec_pure fun _ h => absurd h List.not_mem_nil

theorem quiet_lift (y : Except Stop α) : Quiet (lift y : Run α) := fun _ =>
  spec_lift fun _ h => absurd h List.not_mem_nil

theorem Quiet.bind (hx : Quiet x) (hf : ∀ a, Quiet (f a)) : Quiet (x >>= f) := fun log =>
  (hx log).bind
    (fun _ a hadded => (hf a _).mono fun _ _ hadded' b hb =>
      (List.mem_append.mp hb).elim (hadded b) (hadded' b))
    fun _ _ hadded => hadded

theorem quiet_readChar (ts : CStr) (i : Nat) : Quiet (readChar ts i) := by
  have htell : Quiet (tell (.read i) : Run Unit) := fun _ =>
    spec_tell fun a ha => (List.mem_singleton.mp ha) ▸ rfl
  exact htell.bind fun _ => quiet_lift _

theorem quiet_readCharInt (ts : CStr) (i : Nat) : Quiet (readCharInt ts i) :=
  (quiet_lift _).bind fun _ => quiet_readChar ts _

theorem quiet_readBehind (ts : CStr) (base pos : Nat) : Quiet (readBehind ts base pos) :=
  (quiet_lift _).bind fun _ => quiet_readChar ts _

theorem quiet_skipLoop (n cur : Nat) : Quiet (skipLoop ts n cur) := by
  induction n generalizing cur with
  | zero => exact quiet_lift _
  | succ n ih =>
    refine (quiet_readCharInt ts cur).bind fun c => ?_
    split_ifs
    · exact ih _
    · exact quiet_pure cur

theorem quiet_findEndBraceLoop (endchar : Char) (n cur : Nat) (depth : Int) :
    Quiet (findEndBraceLoop ts endchar n cur depth) := by
  induction n generalizing cur depth with
  | zero => exact quiet_pure none
  | succ n ih =>
    refine (quiet_readChar ts cur).bind fun c => ?_
    dsimp only
    by_cases hstop : (if isCloseBrace c = true then (if isOpenBrace c = true then depth + 1 else depth) - 1
        else if isOpenBrace c = true then depth + 1 else depth) = 0 ∧ c = endchar
    · rw [if_pos hstop]
      exact quiet_pure _
    · rw [if_neg hstop]
      exact ih _ _

theorem quiet_parseScalarLenSpec (base pos : Nat) : Quiet (parseScalarLenSpec ts base pos) := by
  refine (quiet_readBehind ts _ _).bind fun c => ?_
  by_cases h8 : c = '8'
  · rw [if_pos h8]
    exact quiet_pure _
  rw [if_neg h8]
  by_cases hfirst : c = '1' ∨ c = '3' ∨ c = '6'
  · rw [if_pos hfirst]
    refine (quiet_readBehind ts _ _).bind fun d => ?_
    dsimp only
    split_ifs <;> exact quiet_pure _
  · rw [if_neg hfirst]
    refine (quiet_pure nul).bind fun d => ?_
    dsimp only
    split_ifs <;> exact quiet_pure _

theorem quiet_scalarType (isLong isLonglong ref : Bool) (cur : Nat) (c : Char) :
    Quiet (scalarType ts isLong isLonglong ref cur c) := by
  unfold scalarType
  split
  iterate 1
    · exact quiet_pure _
  iterate 3
    · refine (quiet_parseScalarLenSpec _ _).bind fun r => ?_
      obtain ⟨size, pos⟩ := r
      dsimp only
      split <;> exact quiet_lift _
  iterate 7
    · exact quiet_pure _
  · exact quiet_lift _

theorem quiet_parseScalar (ref : Bool) (cur : Nat) : Quiet (parseScalar ts ref cur) := by
  refine (quiet_readCharInt ts _).bind fun c₁ => ?_
  refine (quiet_readCharInt ts _).bind fun c₂ => ?_
  refine (quiet_readCharInt ts _).bind fun c₃ => ?_
  refine (quiet_scalarType _ _ _ _ _).bind fun r => ?_
  exact (quiet_lift _).bind fun cur => quiet_pure _

end Quiet

/-! ## Nodes under construction -/

/-- The blocks of `t` have been allocated and wait for their release, which misses some if and only if
there was a lapse. -/
structure Held (zeroBlock : Bool) (log added : List Access) (lapses : List Lapse) (t : TypePtr) :
    Prop where
  owns : Owns log added t.blocks
  static : Access.freeStatic ∉ t.released
  lost : t.lost = [] ↔ Clean zeroBlock lapses

/-- A call has failed and owes blocks if and only if there was a lapse. -/
def Failed (zeroBlock : Bool) (log added : List Access) (lapses : List Lapse) : Prop :=
  ∃ lost, Owes log added lost ∧ (lost = [] ↔ Clean zeroBlock lapses)

/-- What a call comes to. -/
def Outcome (zeroBlock : Bool) (log added : List Access) (lapses : List Lapse) :
    Except Stop TypePtr → Prop
  | .ok t => Held zeroBlock log added lapses t
  | .error e => e = .null → Failed zeroBlock log added lapses

section Held

variable {zeroBlock : Bool} {log added added' : List Access} {lapses lapses' : List Lapse}
  {node n : Nat} {info : TypeNode} {array : Option Nat} {subs : List TypePtr} {sub : TypePtr}

theorem mem_released_node (hinfo : isBasetype info.dtype = false) :
    Access.freeStatic ∈ (TypePtr.node node info array subs).released ↔
      ∃ t ∈ subs, Access.freeStatic ∈ t.released := by
  rw [← List.mem_flatMap, ← releasedAll_eq_flatMap]
  cases subs with
  | nil => simp [TypePtr.released, hinfo, releasedAll]
  | cons t ts => cases array <;> simp [TypePtr.released, hinfo]

theorem static_node (hinfo : isBasetype info.dtype = false) :
    Access.freeStatic ∉ (TypePtr.node node info array subs).released ↔
      ∀ t ∈ subs, Access.freeStatic ∉ t.released := by
  rw [mem_released_node hinfo]
  push Not
  rfl

theorem lost_node (hinfo : isBasetype info.dtype = false) (hne : subs ≠ []) :
    (TypePtr.node node info array subs).lost = lostAll subs := by
  unfold TypePtr.lost
  rw [if_neg (by rw [hinfo]; decide)]
  cases subs with
  | nil => exact absurd rfl hne
  | cons t ts => rfl

/-- A component takes the first place that is left. -/
theorem Held.fill (hinfo : isBasetype info.dtype = false)
    (h : Held zeroBlock log added lapses
      (.node node info array (subs ++ List.replicate (n + 1) .null)))
    (hsub : Held zeroBlock (log ++ added) added' lapses' sub) :
    Held zeroBlock log (added ++ added') (lapses ++ lapses')
      (.node node info array (subs ++ [sub] ++ List.replicate n .null)) := by
  refine ⟨(h.owns.append hsub.owns).of_perm ?_, ?_, ?_⟩
  · simp [TypePtr.blocks, blocksAll]
  · rw [static_node hinfo]
    have hsubs := (static_node hinfo).mp h.static
    intro t ht
    rcases List.mem_append.mp ht with ht | ht
    · rcases List.mem_append.mp ht with ht | ht
      · exact hsubs t (List.mem_append_left _ ht)
      · exact List.mem_singleton.mp ht ▸ hsub.static
    · refine hsubs t (List.mem_append_right _ ?_)
      rw [List.replicate_succ]
      exact List.mem_cons_of_mem _ ht
  · have hlost := h.lost
    rw [lost_node hinfo (by simp)] at hlost ⊢
    rw [clean_append, ← hlost, ← hsub.lost]
    simp [lostAll]

/-- The error path behind a call that has failed. -/
theorem Held.abandon {α : Type} {t : TypePtr} (h : Held zeroBlock log added lapses t)
    (hfailed : Failed zeroBlock (log ++ added) added' lapses') :
    (abandon t : Run α).Spec (log ++ (added ++ added')) fun b r =>
      r = .error .null ∧ Failed zeroBlock log (added ++ added' ++ b) (lapses ++ lapses') := by
  obtain ⟨lost, howes, hlost⟩ := hfailed
  refine ⟨t.released, ?_, ?_, _, (h.owns.toOwes.append howes).release h.static, ?_⟩
  · unfold Heap.abandon
    rw [Traced.bind_apply, freeAdiakType_eq]
    rfl
  · unfold Heap.abandon
    rw [Traced.bind_apply, freeAdiakType_eq]
    rfl
  · rw [List.append_eq_nil_iff, clean_append, h.lost, hlost]

end Held

/-! ## Side by side -/

/-- The recursive calls on a region. -/
structure Tracked (zeroBlock : Bool) (endBrace : Nat) (run : SelfRun) (sketch : SelfOutline) :
    Prop where
  along : ∀ start ref ap new log, start ≤ endBrace →
    Along Prod.snd (run start endBrace ref ap new) log (sketch start endBrace ref ap new)
      fun added lapses r => Outcome zeroBlock log added lapses (r.map Prod.fst)
  cursor : ∀ start ref ap new log r, start ≤ endBrace → new ≤ endBrace →
    (run start endBrace ref ap new log).2 = .ok r → r.2.2 ≤ endBrace

section Tracked

variable {zeroBlock ref : Bool} {ts : CStr} {stop : Int} {endBrace cur node n new : Nat} {ap : List VArg}
  {run : SelfRun} {self : SelfOutline} {log pre : List Access} {info : TypeNode} {array : Option Nat}
  {subs : List TypePtr} {lapses : List Lapse}

theorem mallocArray_pos (zeroBlock : Bool) (hn : n ≠ 0) (log : List Access) :
    mallocArray zeroBlock n log =
      (log ++ [.malloc (log.countP Access.isMalloc)], .ok (some (log.countP Access.isMalloc))) := by
  unfold mallocArray
  rw [if_neg fun h => hn h.1]
  rfl

/-- A component is parsed, or the node is given up. -/
theorem along_component {α β : Type} (hself : Tracked zeroBlock endBrace run self)
    (hinfo : isBasetype info.dtype = false) (hcur : cur ≤ endBrace) (hnew : new ≤ endBrace)
    (h : Held zeroBlock log pre lapses (.node node info array (subs ++ List.replicate (n + 1) .null)))
    {g : α → β} {k : Option ParsedPtr → Run α} {l : Rest → Outline β} {p : α → TypePtr}
    (hnone : k none = abandon (.node node info array (subs ++ List.replicate (n + 1) .null)))
    (hk : ∀ added lapses' sub rest, rest.2 ≤ endBrace →
      Held zeroBlock log (pre ++ added) (lapses ++ lapses')
        (.node node info array (subs ++ [sub] ++ List.replicate n .null)) →
      Along g (k (some (sub, rest))) (log ++ (pre ++ added)) (l rest) fun b b' r =>
        Outcome zeroBlock log (pre ++ added ++ b) (lapses ++ lapses' ++ b') (r.map p)) :
    Along g (attempt .null (run cur endBrace ref ap new) >>= k) (log ++ pre)
      (self cur endBrace ref ap new >>= l) fun added lapses' r =>
        Outcome zeroBlock log (pre ++ added) (lapses ++ lapses') (r.map p) := by
  refine (hself.along cur ref ap new (log ++ pre) hcur).result.attempt_bind ?_ ?_ ?_
  · intro added lapses' r hr
    have hfill := h.fill hinfo hr.2
    have halong := hk _ _ _ r.2 (hself.cursor cur ref ap new _ r hcur hnew hr.1) hfill
    rw [← List.append_assoc] at halong
    exact halong.mono fun b b' r hr => by rwa [List.append_assoc, List.append_assoc] at hr
  · intro added lapses' hfailed
    have habandon : (abandon _ : Run α).Spec _ _ := h.abandon (hfailed.2 rfl)
    rw [← List.append_assoc, ← hnone] at habandon
    refine habandon.mono fun b r hr => ⟨hr.1, ?_⟩
    rw [hr.1]
    intro _
    have hfailed' := hr.2
    rwa [List.append_assoc] at hfailed'
  · intro added lapses' e hne _ heq
    exact absurd heq hne

theorem held_empty (hinfo : isBasetype info.dtype = false)
    (h : Owns log pre (node :: array.toList)) (hlost : n = 0 → array.isSome = true →
      ¬ Clean zeroBlock lapses) (hclean : (n = 0 → array = none) → Clean zeroBlock lapses) :
    Held zeroBlock log pre lapses (.node node info array (List.replicate n .null)) := by
  refine ⟨?_, ?_, ?_⟩
  · simpa [TypePtr.blocks] using h
  · rw [static_node hinfo]
    intro t ht
    rw [List.eq_of_mem_replicate ht]
    exact List.not_mem_nil
  · cases n with
    | zero =>
      cases array with
      | none => simpa [TypePtr.lost, hinfo, lostAll] using hclean
      | some block => simpa [TypePtr.lost, hinfo, lostAll] using hlost
    | succ n =>
      rw [lost_node hinfo (by simp), lostAll_replicate_null]
      exact iff_of_true rfl (hclean (by simp))

/-- The only component of a list, set or range. -/
theorem along_element (hself : Tracked zeroBlock endBrace run self)
    (hinfo : isBasetype info.dtype = false) (hcur : cur < endBrace) (h : Owns log pre [node]) :
    Along Prod.snd
      (do
        let array ← mallocArray zeroBlock 1
        match ← attempt Stop.null (run (cur + 1) endBrace ref ap cur) with
        | none => abandon (.node node info array [.null])
        | some (sub, ap, _) => (pure (.node node info array [sub], ap, endBrace + 1) : Run ParsedPtr))
      (log ++ pre) (outlineElement self cur endBrace ref ap) fun added lapses r =>
        Outcome zeroBlock log (pre ++ added) lapses (r.map Prod.fst) := by
  refine Along.bind_left (mallocArray_pos zeroBlock one_ne_zero _) ?_
  have hheld : Held zeroBlock log (pre ++ [.malloc _]) []
      (.node node info (some ((log ++ pre).countP Access.isMalloc)) ([] ++ [.null])) :=
    held_empty (n := 1) hinfo (h.append (owns_malloc _)) (by simp) fun _ => clean_nil
  rw [List.append_assoc]
  refine (along_component (p := Prod.fst) (n := 0) hself hinfo hcur hcur.le hheld rfl
    fun added lapses sub rest _ hfill => ?_).mono fun added lapses r hr => by
      rwa [List.append_assoc] at hr
  refine along_pure ?_
  rw [List.append_nil, List.append_nil]
  exact hfill

/-- The components of a tuple that are left. -/
theorem along_components (hself : Tracked zeroBlock endBrace run self)
    (hinfo : isBasetype info.dtype = false) (hcur : cur ≤ endBrace)
    (h : Held zeroBlock log pre lapses (.node node info array (subs ++ List.replicate n .null))) :
    Along Prod.snd (parseComponents run (.node node info array) endBrace ref n subs cur ap) (log ++ pre)
      (outlineComponents self endBrace ref n cur ap) fun added lapses' r =>
        Outcome zeroBlock log (pre ++ added) (lapses ++ lapses')
          (r.map fun a : List TypePtr × List VArg => .node node info array a.1) := by
  induction n generalizing subs cur ap pre lapses with
  | zero =>
    rw [List.replicate_zero, List.append_nil] at h
    refine along_pure ?_
    rw [List.append_nil, List.append_nil]
    exact h
  | succ n ih =>
    refine along_component (p := fun a : List TypePtr × List VArg => .node node info array a.1) hself hinfo hcur hcur h rfl
      fun added lapses' sub rest hrest hfill => ?_
    exact ih hrest hfill

theorem charAt_ne_null (ts : CStr) (i : Nat) : charAt ts i ≠ .error .null := by
  unfold charAt
  split
  · simp
  · split_ifs <;> simp

theorem charAtInt_ne_null (ts : CStr) (i : Nat) : charAtInt ts i ≠ .error .null := by
  unfold charAtInt advance
  split_ifs
  · exact charAt_ne_null ts i
  · simp

theorem findEndBraceLoop_ne_null {endchar : Char} (n cur : Nat) (depth : Int) :
    Adiak.findEndBraceLoop ts endchar n cur depth ≠ .error .null := by
  induction n generalizing cur depth with
  | zero => simp [Adiak.findEndBraceLoop]
  | succ n ih =>
    rw [findEndBraceLoop_succ]
    cases hc : charAt ts cur with
    | error e => exact fun heq => charAt_ne_null ts cur (hc.trans (congrArg _ (Except.error.inj heq)))
    | ok c =>
      rw [ok_bind]
      dsimp only
      split_ifs
      · simp
      · exact ih _ _

/-- A container whose bracket is not closed is given up before its node has a `dtype`. -/
theorem along_region {endchar : Char} {k : Option Nat → Run ParsedPtr} {inside : Nat → Outline Rest}
    (h : Owns log pre [node])
    (hnone : k none = abandon (.node node zeroNode none []))
    (hk : ∀ endBrace added, Adiak.findEndBrace ts endchar cur stop = .ok (some endBrace) →
      Owns log (pre ++ added) [node] →
      Along Prod.snd (k (some endBrace)) (log ++ (pre ++ added)) (inside endBrace) fun b lapses r =>
        Outcome zeroBlock log (pre ++ added ++ b) lapses (r.map Prod.fst)) :
    Along Prod.snd (findEndBrace ts endchar cur stop >>= k) (log ++ pre)
      (outlineRegion ts endchar cur stop inside) fun added lapses r =>
        Outcome zeroBlock log (pre ++ added) lapses (r.map Prod.fst) := by
  have hfollows : Traced.Follows id (findEndBrace ts endchar cur stop)
    (Adiak.findEndBrace ts endchar cur stop) := findEndBraceLoop_follows _ _ _ _
  have hstep : Along id _ (log ++ pre) (lift _ : Outline (Option Nat)) _ :=
    (quiet_findEndBraceLoop endchar (stop - cur).toNat cur 0 (log ++ pre)).along hfollows
  refine hstep.result.bind ?_ ?_
  · rintro added lapses brace ⟨hr, rfl, hquiet⟩
    have howes : Owns log (pre ++ added) [node] := h.append (owns_quiet _ hquiet)
    cases brace with
    | none =>
      rw [hnone]
      refine ⟨(TypePtr.node node zeroNode none []).released, [.unclosed], ?_, fun _ => rfl, ?_⟩
      · unfold abandon
        rw [Traced.bind_apply, freeAdiakType_eq]
        rfl
      · intro _
        refine ⟨[node], ?_, iff_of_false (List.cons_ne_nil _ _) fun hclean => ?_⟩
        · show Owes log (pre ++ (added ++ [])) [node]
          rw [List.append_nil]
          exact howes.toOwes
        · cases clean_singleton.mp hclean
    | some endBrace =>
      have halong := hk endBrace added (hfollows.eq_ok hr) howes
      rw [← List.append_assoc] at halong
      exact halong.mono fun b lapses r hr => by rwa [List.append_assoc] at hr
  · rintro added lapses e ⟨hr, -⟩ rfl
    exact absurd (hfollows.eq_error hr) (findEndBraceLoop_ne_null _ _ _)

theorem vaArgInt_ne_null (ap : List VArg) : vaArgInt ap ≠ .error .null := by
  unfold vaArgInt
  split <;> simp

/-- The count of a container is fetched. -/
theorem along_vaArgInt {f : Int × List VArg → Run ParsedPtr} {l : Int × List VArg → Outline Rest}
    (h : ∀ n ap', Along Prod.snd (f (n, ap')) (log ++ pre) (l (n, ap')) fun b lapses r =>
      Outcome zeroBlock log (pre ++ b) lapses (r.map Prod.fst)) :
    Along Prod.snd (lift (vaArgInt ap) >>= f) (log ++ pre) (lift (vaArgInt ap) >>= l)
      fun added lapses r => Outcome zeroBlock log (pre ++ added) lapses (r.map Prod.fst) := by
  have hstep : Along id (lift (vaArgInt ap) : Run (Int × List VArg)) (log ++ pre)
      (lift (vaArgInt ap) : Outline (Int × List VArg)) fun added lapses r =>
        added = [] ∧ lapses = [] ∧ r = vaArgInt ap := along_lift ⟨rfl, rfl, rfl⟩
  refine hstep.bind ?_ ?_
  · rintro added lapses ⟨n, ap'⟩ ⟨rfl, rfl, -⟩
    rw [List.append_nil]
    exact h n ap'
  · rintro added lapses e ⟨-, -, he⟩ rfl
    exact absurd he.symm (vaArgInt_ne_null ap)

/-- The array of a tuple, with the lapse if it is for no components. -/
theorem held_array (zeroBlock : Bool) (h : Owns log pre [node]) {n : Int} (hn : 0 ≤ n)
    (hinfo : isBasetype info.dtype = false) :
    ∃ added array lapses, mallocArray zeroBlock n.toNat (log ++ pre) = (log ++ pre ++ added, .ok array) ∧
      (∀ log', checkCount n log' = (log' ++ lapses, .ok ())) ∧
      Held zeroBlock log (pre ++ added) lapses
        (.node node info array (List.replicate n.toNat .null)) := by
  unfold checkCount
  by_cases hzero : n = 0
  · subst hzero
    cases zeroBlock with
    | false =>
      refine ⟨[], none, [.emptyTuple], ?_, fun _ => rfl, ?_⟩
      · rw [List.append_nil]
        rfl
      · rw [List.append_nil]
        exact held_empty hinfo h (fun _ => by simp) fun _ => clean_singleton.mpr rfl
    | true =>
      refine ⟨_, some _, [.emptyTuple], rfl, fun _ => rfl, ?_⟩
      refine held_empty hinfo (h.append (owns_malloc _)) (fun _ _ hclean => ?_) (by simp)
      cases clean_singleton.mp hclean
  · refine ⟨_, some _, [], mallocArray_pos zeroBlock (by omega) _, fun log' => ?_, ?_⟩
    · rw [if_neg hzero, List.append_nil]
      rfl
    · refine held_empty hinfo (h.append (owns_malloc _)) (fun h => ?_) fun _ => clean_nil
      omega

/-- The inside of a tuple. -/
theorem along_tuple (hself : Tracked zeroBlock endBrace run self) (hcur : cur < endBrace)
    (h : Owns log pre [node]) :
    Along Prod.snd
      (do
        let (numElements, ap) ← lift (vaArgInt ap)
        if numElements < 0 then fail .undefined
        else
          let info := containerNode .tuple ref numElements
          let array ← mallocArray zeroBlock numElements.toNat
          let (subs, ap) ← parseComponents run (.node node info array) endBrace ref numElements.toNat []
            (cur + 1) ap
          (pure (.node node info array subs, ap, new) : Run ParsedPtr))
      (log ++ pre) (outlineTuple self cur endBrace ref ap new) fun added lapses r =>
        Outcome zeroBlock log (pre ++ added) lapses (r.map Prod.fst) := by
  refine along_vaArgInt fun n ap' => ?_
  dsimp only
  split_ifs with hneg
  · exact along_fail fun heq => by cases heq
  · have hinfo : isBasetype (containerNode .tuple ref n).dtype = false := rfl
    obtain ⟨added, array, lapses, harray, hcount, hheld⟩ :=
      held_array zeroBlock h (not_lt.mp hneg) hinfo
    refine Along.bind_left harray (Along.bind_right hcount ?_)
    rw [List.append_assoc]
    have hstart : Held zeroBlock log (pre ++ added) lapses
      (.node node _ array ([] ++ List.replicate n.toNat .null)) := hheld
    refine (along_components hself hinfo hcur hstart).bind ?_ ?_
    · intro added' lapses' r hr
      refine along_pure ?_
      rw [List.append_nil, List.append_nil, ← List.append_assoc]
      exact hr
    · intro added' lapses' e he
      rw [← List.append_assoc]
      exact he

/-- A branch with a node of its own. -/
theorem along_node {k : Nat → Run ParsedPtr} {y : Outline Rest} (h : Owns log pre [])
    (hk : ∀ node added, Owns log (pre ++ added) [node] →
      Along Prod.snd (k node) (log ++ (pre ++ added)) y fun b lapses r =>
        Outcome zeroBlock log (pre ++ added ++ b) lapses (r.map Prod.fst)) :
    Along Prod.snd (mallocNode >>= k) (log ++ pre) y fun added lapses r =>
      Outcome zeroBlock log (pre ++ added) lapses (r.map Prod.fst) := by
  refine Along.bind_left rfl ?_
  have halong := hk _ _ (h.append (owns_malloc (log ++ pre)))
  rw [← List.append_assoc] at halong
  exact halong.mono fun b lapses r hr => by rwa [List.append_assoc] at hr

/-- The branches. -/
theorem along_branch (hself : ∀ endBrace c, charAt ts endBrace = .ok c → isCloseBrace c = true →
      Tracked zeroBlock endBrace run self)
    {c : Char} (hc : charAt ts cur = .ok c) (h : Owns log pre []) :
    Along Prod.snd (parseBranch zeroBlock run ts stop ref ap new cur c) (log ++ pre)
      (outlineBranch self ts stop ref ap new cur c) fun added lapses r =>
        Outcome zeroBlock log (pre ++ added) lapses (r.map Prod.fst) := by
  unfold parseBranch outlineBranch
  split_ifs with hcoll hrange htuple hscalar
  · refine along_node h fun node added hnode => ?_
    refine along_region hnode rfl fun endBrace added' hbrace hnode' => ?_
    obtain ⟨hlo, hhi, hclose⟩ := findEndBrace_eq_ok hbrace hc (by
      rcases hcoll with rfl | rfl <;> decide)
    refine along_vaArgInt fun n ap' => ?_
    have hself' := hself endBrace _ hclose (by split_ifs <;> rfl)
    exact along_element hself' (by dsimp only [containerNode]; split_ifs <;> rfl) hlo hnode'
  · refine along_node h fun node added hnode => ?_
    refine along_region hnode rfl fun endBrace added' hbrace hnode' => ?_
    obtain ⟨hlo, hhi, hclose⟩ := findEndBrace_eq_ok hbrace hc (hrange ▸ by decide)
    exact along_element (hself endBrace _ hclose rfl) rfl hlo hnode'
  · refine along_node h fun node added hnode => ?_
    refine along_region hnode rfl fun endBrace added' hbrace hnode' => ?_
    obtain ⟨hlo, hhi, hclose⟩ := findEndBrace_eq_ok hbrace hc (htuple ▸ by decide)
    exact along_tuple (hself endBrace _ hclose rfl) hlo hnode'
  · have hlt := lt_length_of_charAt hc (hscalar ▸ by decide)
    have hfollows : Traced.Follows id (parseScalar ts ref (cur + 1)) _ := parseScalar_follows _ _
    have hstep : Along id _ (log ++ pre) (lift _ : Outline (AdiakDatatype × Nat)) _ :=
      (quiet_parseScalar ref (cur + 1) (log ++ pre)).along hfollows
    refine hstep.result.bind ?_ ?_
    · rintro added lapses ⟨t, cur'⟩ ⟨hr, rfl, hquiet⟩
      obtain ⟨⟨s, rfl⟩, -⟩ := parseScalar_wellFormed (.inl (charAt_length ts)) hlt (hfollows.eq_ok hr)
      refine along_pure ⟨?_, ?_, iff_of_true rfl clean_nil⟩
      · rw [List.append_nil]
        exact h.append (owns_quiet _ hquiet)
      · cases s <;> cases ref <;> exact List.not_mem_nil
    · rintro added lapses e ⟨-, rfl, hquiet⟩ _
      exact ⟨[], (h.append (owns_quiet _ hquiet)).toOwes, iff_of_true rfl clean_nil⟩
  · refine Along.bind_left rfl (Along.bind_right (fun _ => rfl) (along_pure ?_))
    refine ⟨h.append (owns_malloc _), List.not_mem_nil, iff_of_false (List.cons_ne_nil _ _) ?_⟩
    exact fun hclean => by cases clean_singleton.mp hclean
  · refine along_fail fun _ => ⟨[], ?_, iff_of_true rfl clean_nil⟩
    rw [List.append_nil]
    exact h.toOwes

/-- A character is read. -/
theorem along_readCharInt {i : Nat} {f : Char → Run ParsedPtr} {l : Char → Outline Rest}
    (h : Owns log pre [])
    (hk : ∀ c added, charAt ts i = .ok c → Owns log (pre ++ added) [] →
      Along Prod.snd (f c) (log ++ (pre ++ added)) (l c) fun b lapses r =>
        Outcome zeroBlock log (pre ++ added ++ b) lapses (r.map Prod.fst)) :
    Along Prod.snd (readCharInt ts i >>= f) (log ++ pre) (lift (charAtInt ts i) >>= l)
      fun added lapses r => Outcome zeroBlock log (pre ++ added) lapses (r.map Prod.fst) := by
  have hfollows := readCharInt_follows ts i
  have hstep : Along id _ (log ++ pre) (lift _ : Outline Char) _ :=
    (quiet_readCharInt ts i (log ++ pre)).along hfollows
  refine hstep.result.bind ?_ ?_
  · rintro added lapses c ⟨hr, rfl, hquiet⟩
    have halong := hk c added (charAtInt_eq_ok.mp (hfollows.eq_ok hr)).2
      (h.append (owns_quiet _ hquiet))
    rw [← List.append_assoc] at halong
    exact halong.mono fun b lapses r hr => by rwa [List.append_assoc] at hr
  · rintro added lapses e ⟨hr, -⟩ rfl
    exact absurd (hfollows.eq_error hr) (charAtInt_ne_null ts i)

/-- A call, side by side with its outline. -/
def Tracks (zeroBlock : Bool) (ts : CStr) (depth : Nat) (stop : Int) : Prop :=
  ∀ start ref ap new log, start ≤ ts.length →
    Along Prod.snd (parseTypestrHelper zeroBlock ts depth start stop ref ap new) log
      (outlineHelper ts depth start stop ref ap new) fun added lapses r =>
        Outcome zeroBlock log added lapses (r.map Prod.fst)

theorem Tracks.tracked {depth : Nat} {c : Char} (h : Tracks zeroBlock ts depth endBrace)
    (hnul : nul ∉ ts) (hc : charAt ts endBrace = .ok c) (hclose : isCloseBrace c = true) :
    Tracked zeroBlock endBrace (parseTypestrHelper zeroBlock ts depth) (outlineHelper ts depth) := by
  refine ⟨fun start ref ap new log hstart => ?_, fun start ref ap new log r hstart hnew hr => ?_⟩
  · exact h start ref ap new log (hstart.trans (le_length_of_charAt hc))
  · have hread := (parseTypestrHelper_follows zeroBlock ts depth start endBrace ref ap new).eq_ok hr
    exact (parse_wellFormed hnul depth (.inr ⟨c, hc, hclose⟩) _ _ _ _ _ _ _ hstart hnew hread).2

/-- A call is its outline with nodes. -/
theorem tracks_parse (zeroBlock : Bool) (hnul : nul ∉ ts) (depth : Nat) (stop : Int) :
    Tracks zeroBlock ts depth stop := by
  induction depth generalizing stop with
  | zero =>
    intro start ref ap new log hstart
    exact along_fail fun heq => by cases heq
  | succ depth ih =>
    intro start ref ap new log hstart
    have hloop := skipLoop_follows (n := ts.length + 1) hstart (by omega)
    obtain ⟨added, hlog, hquiet⟩ := quiet_skipLoop (ts.length + 1) start
      (log ++ [.call start stop])
    have hcall : ∀ a ∈ [Access.call start stop] ++ added, a.isQuiet = true :=
      List.forall_mem_append.mpr ⟨List.forall_mem_singleton.mpr rfl, hquiet⟩
    refine Along.bind_left rfl ?_
    unfold outlineHelper
    split_ifs with heq
    · refine along_fail fun _ => ⟨[], ?_, iff_of_true rfl clean_nil⟩
      exact (owns_quiet log (List.forall_mem_singleton.mpr rfl)).toOwes
    rcases Nat.lt_or_ge (skipSeparators (ts.drop start) start) (2 ^ 31) with hfits | hlong
    · rw [advance_of_lt hfits] at hloop
      have hcur : skipLoop ts (ts.length + 1) start (log ++ [.call start stop]) =
          (log ++ [.call start stop] ++ added, .ok (skipSeparators (ts.drop start) start)) := by
        cases hr : (skipLoop ts (ts.length + 1) start (log ++ [.call start stop])).2 with
        | error e => cases hloop.eq_error hr
        | ok cur =>
          obtain rfl := Except.ok.inj (hloop.eq_ok hr)
          exact Prod.ext hlog hr
      refine Along.bind_left hcur ?_
      rw [List.append_assoc]
      refine Along.mono (Q := fun b lapses r => Outcome zeroBlock log
        ([.call start stop] ++ added ++ b) lapses (r.map Prod.fst))
        (along_readCharInt (owns_quiet log hcall) fun c added₁ hc howes => ?_)
        fun b lapses r hr => by rwa [List.append_assoc] at hr
      refine along_readCharInt howes fun d added₂ hd howes' => ?_
      have hself : ∀ endBrace c, charAt ts endBrace = .ok c → isCloseBrace c = true →
          Tracked zeroBlock endBrace (parseTypestrHelper zeroBlock ts depth) (outlineHelper ts depth) :=
        fun endBrace c hc hclose => (ih endBrace).tracked hnul hc hclose
      exact along_branch hself hd howes'
    · -- the cursor overflows
      rw [advance_of_ge hlong] at hloop
      have hover : skipLoop ts (ts.length + 1) start (log ++ [.call start stop]) =
          (log ++ [.call start stop] ++ added, .error .undefined) := by
        cases hr : (skipLoop ts (ts.length + 1) start (log ++ [.call start stop])).2 with
        | error e =>
          obtain rfl := Except.error.inj (hloop.eq_error hr)
          exact Prod.ext hlog hr
        | ok cur => cases hloop.eq_ok hr
      dsimp only
      rw [charAtInt_of_ge ts hlong]
      exact Traced.along_error hover (by rintro ⟨⟩)

end Tracked

/-! ## Whole strings -/

theorem Outcome.held {zeroBlock : Bool} {log added : List Access} {lapses : List Lapse} {t : TypePtr}
    (h : Outcome zeroBlock log added lapses (.ok t)) : Held zeroBlock log added lapses t := h

theorem Outcome.failed {zeroBlock : Bool} {log added : List Access} {lapses : List Lapse}
    (h : Outcome zeroBlock log added lapses (.error .null)) : Failed zeroBlock log added lapses := h rfl

-- the parser is not to be run while it is looked up what a parse comes to
attribute [irreducible] Outcome

/-- What a whole parse comes to. -/
theorem parseTypestr_outcome (zeroBlock : Bool) (typestr : List Char) (ap : List VArg) :
    Outcome zeroBlock [] (parseTypestr zeroBlock typestr ap []).1 (outline typestr ap []).1
      ((parseTypestr zeroBlock typestr ap []).2.map Prod.fst) := by
  have hcall := tracks_parse zeroBlock (nul_notMem_cStr typestr) ((cStr typestr).length + 1)
    (intLength (cStr typestr)) 0 false ap 0 [] (Nat.zero_le _)
  obtain ⟨lapses, hlapses, hcall⟩ := Along.spec hcall
  have hspec : (parseTypestr zeroBlock typestr ap).Spec [] fun added r =>
      Outcome zeroBlock [] added lapses (r.map Prod.fst) := by
    rw [parseTypestr]
    apply hcall.bind
    · rintro added ⟨t, ap', new⟩ hr
      refine spec_pure ?_
      rw [List.append_nil]
      exact hr
    · exact fun added e he => he
  obtain ⟨added, hlog, houtcome⟩ := hspec
  rw [outline, hlapses, hlog]
  exact houtcome

/-- What a parse that fails owes. -/
theorem parseTypestr_failed {zeroBlock : Bool} {typestr : List Char} {ap : List VArg}
    (h : (parseTypestr zeroBlock typestr ap []).2 = .error .null) :
    Failed zeroBlock [] (parseTypestr zeroBlock typestr ap []).1 (outline typestr ap []).1 := by
  have houtcome := parseTypestr_outcome zeroBlock typestr ap
  rw [h] at houtcome
  exact Outcome.failed houtcome

/-- A parse that fails has released every block exactly once, and no static base type, if and only if on
its way it came to no opening bracket that is not closed in its region and, where `malloc(0)` returns a
block, to no tuple of no components. (The end of the string in place of a type is no failure.) -/
theorem releasedOnce_iff (zeroBlock : Bool) (typestr : List Char) (ap : List VArg)
    (h : (parseTypestr zeroBlock typestr ap []).2 = .error .null) :
    ReleasedOnce (parseTypestr zeroBlock typestr ap []).1 ↔
      ∀ lapse ∈ (outline typestr ap []).1, lapse.leaves zeroBlock = false := by
  obtain ⟨lost, howes, hlost⟩ := parseTypestr_failed h
  rw [howes.once_iff, hlost]
  exact Iff.rfl

/-- A set that stands in front of what is no type is released. A tuple that is closed by another bracket is
not, inside a list that is closed. -/
theorem releasedOnce_iff_tuple :
    ReleasedOnce (parseTypestr true "([%d],%z)".toList [.int 2, .int 5] []).1 ∧
      ¬ ReleasedOnce (parseTypestr true "{(%d]}".toList [.int 1] []).1 := by
  constructor
  · have hnull : (parseTypestr true "([%d],%z)".toList [.int 2, .int 5] []).2 = .error .null := by
      rw [parseTypestr_of_lt true (by decide)]
      rfl
    have hclean : (outline "([%d],%z)".toList [.int 2, .int 5] []).1 = [] := by
      rw [outline_of_lt (by decide)]
      rfl
    exact (releasedOnce_iff true _ _ hnull).mpr (hclean ▸ fun _ h => absurd h List.not_mem_nil)
  · have hnull : (parseTypestr true "{(%d]}".toList [.int 1] []).2 = .error .null := by
      rw [parseTypestr_of_lt true (by decide)]
      rfl
    have hlapse : (outline "{(%d]}".toList [.int 1] []).1 = [.unclosed] := by
      rw [outline_of_lt (by decide)]
      rfl
    intro honce
    have hclean := (releasedOnce_iff true _ _ hnull).mp honce
    rw [hlapse] at hclean
    cases hclean _ (List.mem_singleton_self _)

/-- A parse that returns a datatype has released nothing, and the blocks of the datatype are those that it
has allocated. Releasing the datatype releases them all if and only if there was no lapse. -/
theorem parse_owns (zeroBlock : Bool) (typestr : List Char) (ap ap' : List VArg) (t : TypePtr)
    (h : (parseTypestr zeroBlock typestr ap []).2 = .ok (t, ap')) :
    frees (parseTypestr zeroBlock typestr ap []).1 = [] ∧
    (mallocs (parseTypestr zeroBlock typestr ap []).1).Perm t.blocks ∧ t.blocks.Nodup ∧
    (ReleasedOnce (freeAdiakType t (parseTypestr zeroBlock typestr ap []).1).1 ↔
      ∀ lapse ∈ (outline typestr ap []).1, lapse.leaves zeroBlock = false) := by
  have houtcome := parseTypestr_outcome zeroBlock typestr ap
  rw [h] at houtcome
  obtain ⟨howns, hstatic, hlost⟩ := Outcome.held houtcome
  have hnodup : (mallocs (parseTypestr zeroBlock typestr ap []).1).Nodup := by
    rw [howns.numbered]
    exact List.nodup_range'
  refine ⟨howns.kept, howns.mallocs, howns.mallocs.nodup_iff.mp hnodup, ?_⟩
  have howes : Owes [] (parseTypestr zeroBlock typestr ap []).1 (t.blocks ++ []) := by
    rw [List.append_nil]
    exact howns.toOwes
  rw [freeAdiakType_eq, (howes.release hstatic).once_iff, List.append_nil, hlost]
  exact Iff.rfl

theorem parse_owns_set :
    frees (parseTypestr true "[%d]".toList [.int 2] []).1 = [] ∧
    (mallocs (parseTypestr true "[%d]".toList [.int 2] []).1).Perm [0, 1] := by
  have hok : (parseTypestr true "[%d]".toList [.int 2] []).2 =
      .ok (.node 0 (containerNode .set false 2) (some 1) [.static baseInt], []) := by
    rw [parseTypestr_of_lt true (by decide)]
    rfl
  obtain ⟨hfrees, hperm, -, -⟩ := parse_owns true _ _ _ _ hok
  exact ⟨hfrees, hperm⟩

/-- With counts for arguments, a parse that fails has released no static base type and no block twice. It
has released every block if and only if there was no lapse. -/
theorem abandoned_iff (zeroBlock : Bool) (typestr : List Char) (counts : List Int)
    (h : (parseTypestr zeroBlock typestr (counts.map .int) []).2 = .error .null) :
    Access.freeStatic ∉ (parseTypestr zeroBlock typestr (counts.map .int) []).1 ∧
    (∀ block, (parseTypestr zeroBlock typestr (counts.map .int) []).1.count (.free block) ≤ 1) ∧
    (ReleasedOnce (parseTypestr zeroBlock typestr (counts.map .int) []).1 ↔
      Clean zeroBlock (outline typestr (counts.map .int) []).1) := by
  obtain ⟨lost, howes, hlost⟩ := parseTypestr_failed h
  exact ⟨howes.static, howes.count_free_le, howes.once_iff.trans hlost⟩

/-- A tuple of no components in front of one that fails: its array is left behind if `malloc(0)` gives a
block, and there is none otherwise. -/
theorem abandoned_iff_empty :
    ReleasedOnce (parseTypestr false "((%z))".toList ([2, 0, 1].map .int) []).1 ∧
      ¬ ReleasedOnce (parseTypestr true "((%z))".toList ([2, 0, 1].map .int) []).1 := by
  have hlapse : (outline "((%z))".toList ([2, 0, 1].map .int) []).1 = [.emptyTuple] := by
    rw [outline_of_lt (by decide)]
    rfl
  have hnull : ∀ zeroBlock,
      (parseTypestr zeroBlock "((%z))".toList ([2, 0, 1].map .int) []).2 = .error .null := by
    intro zeroBlock
    rw [parseTypestr_of_lt zeroBlock (by decide)]
    cases zeroBlock <;> rfl
  constructor
  · have honce := (abandoned_iff false _ _ (hnull false)).2.2
    rw [hlapse, clean_singleton] at honce
    exact honce.mpr rfl
  · have honce := (abandoned_iff true _ _ (hnull true)).2.2
    rw [hlapse, clean_singleton] at honce
    rw [honce]
    decide

/-- The node of a set without its closing bracket is not released. -/
theorem releasedOnce_not_always :
    ¬ ∀ zeroBlock typestr (counts : List Int), (∀ n ∈ counts, 0 ≤ n) →
      (parseTypestr zeroBlock typestr (counts.map .int) []).2 = .error .null →
      ReleasedOnce (parseTypestr zeroBlock typestr (counts.map .int) []).1 := by
  intro h
  have hnull : (parseTypestr false "[%d".toList [] []).2 = .error .null := by
    rw [parseTypestr_of_lt false (by decide)]
    rfl
  have honce := h false "[%d".toList [] (fun _ hn => absurd hn List.not_mem_nil) hnull
  rw [List.map_nil, parseTypestr_of_lt false (by decide)] at honce
  exact absurd (honce.once 0 (by decide)) (by decide)

end Heap

end Adiak
