import Adiak.Typestring.HeapParser
import Adiak.Typestring.Settles

/-!
# What the parser reads

1. `Safe` is what is asked of a function of the parser: it reads characters up to the terminating NUL,
   its recursive calls have a start that is not behind the end, and it does not run out of rounds.
2. The terminating NUL stops every loop, so the cursor stays inside (`safe_skipLoop`, `safe_parseScalar`).
   A recursive call is made on a `Region`. `safe_parse` is the induction over the recursion depth.
3. `reads_inBounds_iff` is the result for whole strings: what is left is that the cursor may overflow.
-/

namespace Adiak

namespace Heap

open Traced (spec_pure spec_lift spec_tell tell)

/-- A read up to the terminating NUL of a string of `len` characters, and a call of a region. -/
def Access.InBounds (len : Nat) : Access → Prop
  | .read i => i ≤ len
  | .call typestrStart typestrEnd => (typestrStart : Int) ≤ typestrEnd ∧ typestrEnd ≤ len
  | _ => True

/-- All accesses are sound, and the rounds suffice. -/
def Safe {α : Type} (len : Nat) (x : Run α) : Prop :=
  ∀ log, x.Spec log fun added r => (∀ a ∈ added, a.InBounds len) ∧ r ≠ .error .fuel

section Safe

variable {α β : Type} {len : Nat} {x : Run α} {f : α → Run β}

theorem safe_pure (a : α) : Safe len (pure a : Run α) := fun _ =>
  spec_pure ⟨fun _ h => absurd h List.not_mem_nil, by simp⟩

theorem safe_lift {y : Except Stop α} (h : y ≠ .error .fuel) : Safe len (Traced.lift y) := fun _ =>
  spec_lift ⟨fun _ h => absurd h List.not_mem_nil, h⟩

theorem safe_fail {e : Stop} (h : e ≠ .fuel) : Safe len (Traced.fail e : Run α) :=
  safe_lift fun heq => h (Except.error.inj heq)

theorem safe_tell {a : Access} (h : a.InBounds len) : Safe len (Traced.tell a : Run Unit) := fun _ =>
  spec_tell ⟨fun b hb => (List.mem_singleton.mp hb) ▸ h, by simp⟩

theorem Safe.bind (hx : Safe len x) (hf : ∀ a log, (x log).2 = .ok a → Safe len (f a)) :
    Safe len (x >>= f) := by
  intro log
  obtain ⟨added, hlog, hadded, hr⟩ := hx log
  have hspec : x.Spec log fun added r => (x log).2 = r ∧
      (∀ a ∈ added, a.InBounds len) ∧ r ≠ .error .fuel := ⟨added, hlog, rfl, hadded, hr⟩
  refine hspec.bind (fun added a ⟨hok, hadded, _⟩ => ?_) fun added e ⟨_, hadded, he⟩ => ⟨hadded, ?_⟩
  · obtain ⟨added', hlog', hadded', hr'⟩ := hf a log hok (log ++ added)
    exact ⟨added', hlog', fun b hb => (List.mem_append.mp hb).elim (hadded b) (hadded' b), hr'⟩
  · exact fun heq => he (congrArg _ (Except.error.inj heq))

/-- A step of which it is known what it comes to without its log. -/
theorem Safe.bind_follows {γ : Type} {g : α → γ} {y : Except Stop γ} (hx : Safe len x)
    (hfollows : Traced.Follows g x y) (hf : ∀ a, y = .ok (g a) → Safe len (f a)) : Safe len (x >>= f) :=
  hx.bind fun a _ hr => hf a (hfollows.eq_ok hr)

theorem Safe.attempt (hx : Safe len x) : Safe len (x.attempt .null) := fun log =>
  (hx log).attempt (fun _ _ h => ⟨h.1, by simp⟩) (fun _ h => ⟨h.1, by simp⟩)
    fun _ _ _ h => ⟨h.1, fun heq => h.2 (congrArg _ (Except.error.inj heq))⟩

theorem inBounds_released (t : TypePtr) : ∀ a ∈ t.released, a.InBounds len := by
  intro a ha
  rcases released_cases ha with rfl | ⟨block, rfl⟩
  · trivial
  · trivial

theorem safe_abandon (t : TypePtr) : Safe len (abandon t : Run α) := by
  have hfree : Safe len (freeAdiakType t) := fun log =>
    ⟨t.released, by rw [freeAdiakType_eq], inBounds_released t, by rw [freeAdiakType_eq]; simp⟩
  exact hfree.bind fun _ _ _ => safe_fail (by decide)

theorem safe_mallocNode : Safe len mallocNode := fun _ =>
  ⟨_, rfl, fun _ ha => (List.mem_singleton.mp ha) ▸ trivial, by simp [mallocNode]⟩

theorem safe_mallocArray (zeroBlock : Bool) (n : Nat) : Safe len (mallocArray zeroBlock n) := by
  unfold mallocArray
  split_ifs
  · exact safe_pure none
  · exact safe_mallocNode.bind fun _ _ _ => safe_pure _

end Safe

/-! ## Characters -/

section Characters

variable {ts : CStr}

theorem safe_readChar {i : Nat} (h : i ≤ ts.length) : Safe ts.length (readChar ts i) := by
  obtain ⟨c, hc⟩ := exists_charAt h
  exact (safe_tell (a := .read i) h).bind fun _ _ _ => safe_lift (by rw [hc]; simp)

/-- A read, with the character for what follows. -/
theorem safe_readChar_bind {α : Type} {i : Nat} {f : Char → Run α} (h : i ≤ ts.length)
    (hf : ∀ c, charAt ts i = .ok c → Safe ts.length (f c)) :
    Safe ts.length (readChar ts i >>= f) :=
  (safe_readChar h).bind_follows (readChar_follows ts i) hf

theorem advance_ne_fuel (cur : Nat) : advance cur ≠ .error .fuel := by
  unfold advance
  split_ifs <;> simp

/-- The same for a cursor that has been counted up. -/
theorem safe_readCharInt_bind {α : Type} {i : Nat} {f : Char → Run α} (h : i ≤ ts.length)
    (hf : ∀ c, charAt ts i = .ok c → Safe ts.length (f c)) :
    Safe ts.length (readCharInt ts i >>= f) := by
  have hread : Safe ts.length (readCharInt ts i) := by
    refine (safe_lift (advance_ne_fuel i)).bind_follows (Traced.follows_lift _) fun cur hcur => ?_
    obtain ⟨-, rfl⟩ := advance_eq_ok.mp hcur
    exact safe_readChar h
  exact hread.bind_follows (readCharInt_follows ts i) fun c hc => hf c (charAtInt_eq_ok.mp hc).2

/-- The same behind a pointer. -/
theorem safe_readBehind_bind {α : Type} {base pos : Nat} {f : Char → Run α}
    (h : base + pos ≤ ts.length) (hf : ∀ c, charAt ts (base + pos) = .ok c → Safe ts.length (f c)) :
    Safe ts.length (readBehind ts base pos >>= f) := by
  have hread : Traced.Follows id (readBehind ts base pos) (do
      let pos ← advance pos
      charAt ts (base + pos)) :=
    (Traced.follows_lift (advance pos)).bind fun _ => readChar_follows ts _
  have hsafe : Safe ts.length (readBehind ts base pos) := by
    refine (safe_lift (advance_ne_fuel pos)).bind_follows (Traced.follows_lift _) fun cur hcur => ?_
    obtain ⟨-, rfl⟩ := advance_eq_ok.mp hcur
    exact safe_readChar h
  refine hsafe.bind_follows hread fun c hc => hf c ?_
  obtain ⟨cur, hcur, hc⟩ := bind_eq_ok.mp hc
  obtain ⟨-, rfl⟩ := advance_eq_ok.mp hcur
  exact hc

theorem lt_length_of_isSeparator {i : Nat} {c : Char} (hc : charAt ts i = .ok c)
    (hsep : isSeparator c = true) : i < ts.length :=
  lt_length_of_charAt hc (by rintro rfl; cases hsep)

theorem safe_skipLoop {n cur : Nat} (hcur : cur ≤ ts.length) (hn : ts.length < n + cur) :
    Safe ts.length (skipLoop ts n cur) := by
  induction n generalizing cur with
  | zero => omega
  | succ n ih =>
    refine safe_readCharInt_bind hcur fun c hc => ?_
    split_ifs with hsep
    · exact ih (lt_length_of_isSeparator hc hsep) (by omega)
    · exact safe_pure cur

theorem safe_findEndBraceLoop (endchar : Char) {n cur : Nat} (h : cur + n ≤ ts.length) (depth : Int) :
    Safe ts.length (findEndBraceLoop ts endchar n cur depth) := by
  induction n generalizing cur depth with
  | zero => exact safe_pure none
  | succ n ih =>
    refine safe_readChar_bind (by omega) fun c hc => ?_
    dsimp only
    by_cases hstop : (if isCloseBrace c = true then (if isOpenBrace c = true then depth + 1 else depth) - 1
        else if isOpenBrace c = true then depth + 1 else depth) = 0 ∧ c = endchar
    · rw [if_pos hstop]
      exact safe_pure _
    · rw [if_neg hstop]
      exact ih (by omega) _

theorem safe_findEndBrace (endchar : Char) {cur : Nat} {stop : Int} (hcur : cur ≤ ts.length)
    (hstop : stop ≤ ts.length) : Safe ts.length (findEndBrace ts endchar cur stop) :=
  safe_findEndBraceLoop endchar (by omega) 0

/-- The second digit is read only behind a first one. -/
theorem safe_parseScalarLenSpec {base pos : Nat} (h : base + pos < ts.length) :
    Safe ts.length (parseScalarLenSpec ts base pos) := by
  refine safe_readBehind_bind h fun c hc => ?_
  by_cases h8 : c = '8'
  · rw [if_pos h8]
    exact safe_pure _
  rw [if_neg h8]
  by_cases hfirst : c = '1' ∨ c = '3' ∨ c = '6'
  · have hlt := lt_length_of_charAt hc (by rcases hfirst with rfl | rfl | rfl <;> decide)
    rw [if_pos hfirst]
    refine safe_readBehind_bind hlt fun d _ => ?_
    dsimp only
    split_ifs <;> exact safe_pure _
  · rw [if_neg hfirst]
    refine (safe_pure nul).bind fun d _ _ => ?_
    dsimp only
    split_ifs <;> exact safe_pure _

theorem safe_scalarType {cur : Nat} {isLong isLonglong ref : Bool} {c : Char}
    (h : c ≠ nul → cur < ts.length) :
    Safe ts.length (scalarType ts isLong isLonglong ref cur c) := by
  have hnull : Safe ts.length (Traced.fail .null : Run (AdiakDatatype × Nat)) := safe_fail (by decide)
  unfold scalarType
  split
  iterate 1
    · exact safe_pure _
  iterate 3
    · refine (safe_parseScalarLenSpec ((Nat.zero_add cur).trans_lt (h (by decide)))).bind
        fun r _ _ => ?_
      obtain ⟨size, pos⟩ := r
      dsimp only
      split <;> first | exact safe_pure _ | exact hnull
  iterate 7
    · exact safe_pure _
  · exact hnull

theorem safe_parseScalar {cur : Nat} {ref : Bool} (h : cur ≤ ts.length) :
    Safe ts.length (parseScalar ts ref cur) := by
  have hletter : ∀ {p : Nat} {c : Char} {P : Prop} [Decidable P], p ≤ ts.length →
      charAt ts p = .ok c → (P → c = 'l') → (if P then p + 1 else p) ≤ ts.length := by
    intro p c P _ hp hc hP
    split_ifs with hl
    · obtain rfl := hP hl
      exact lt_length_of_charAt hc (by decide)
    · exact hp
  unfold parseScalar
  refine safe_readCharInt_bind h fun c₁ hc₁ => ?_
  have h₂ := hletter h hc₁ id
  refine safe_readCharInt_bind h₂ fun c₂ hc₂ => ?_
  have hll : (decide (c₁ = 'l') && decide (c₂ = 'l')) = true → c₂ = 'l' := fun hl =>
    of_decide_eq_true (Bool.and_eq_true_iff.mp hl).2
  have h₃ := hletter h₂ hc₂ hll
  refine safe_readCharInt_bind h₃ fun c₃ hc₃ => ?_
  refine (safe_scalarType fun hne => lt_length_of_charAt hc₃ hne).bind fun r _ _ => ?_
  exact (safe_lift (advance_ne_fuel _)).bind fun cur _ _ => safe_pure _

end Characters

/-! ## Containers -/

section Containers

variable {zeroBlock : Bool} {ts : CStr} {typestrEnd : Nat} {ref : Bool} {ap : List VArg}
  {run : SelfRun} {self : SelfCall}

/-- The only component of a list, set or range. -/
theorem safe_element {node start endBrace new : Nat} {info : TypeNode}
    (hself : Safe ts.length (run start endBrace ref ap new)) :
    Safe ts.length (do
      let array ← mallocArray zeroBlock 1
      match ← (run start endBrace ref ap new).attempt Stop.null with
      | none => abandon (.node node info array [.null])
      | some (sub, ap, _) => (pure (.node node info array [sub], ap, endBrace + 1) : Run ParsedPtr)) := by
  refine (safe_mallocArray zeroBlock 1).bind fun array _ _ => hself.attempt.bind fun r _ _ => ?_
  cases r with
  | none => exact safe_abandon _
  | some r => exact safe_pure _

/-- Each component starts behind the one in front. -/
theorem safe_components (hfollows : SelfFollows run self) (htakes : Takes ts typestrEnd self)
    (lo : Nat) (hself : ∀ start new ap, lo ≤ start → start ≤ typestrEnd → new ≤ typestrEnd →
      Safe ts.length (run start typestrEnd ref ap new))
    (node : List TypePtr → TypePtr) (n : Nat) {subs : List TypePtr} {cur : Nat} (hlo : lo ≤ cur)
    (hcur : cur ≤ typestrEnd) :
    Safe ts.length (parseComponents run node typestrEnd ref n subs cur ap) := by
  induction n generalizing subs cur ap with
  | zero => exact safe_pure _
  | succ n ih =>
    have hcall := hself cur cur ap hlo hcur hcur
    refine hcall.attempt.bind fun r log hr => ?_
    cases r with
    | none => exact safe_abandon _
    | some r =>
      have hok : (run cur typestrEnd ref ap cur log).2 = .ok r := by
        unfold Traced.attempt at hr
        split at hr
        · rename_i a ha
          rw [ha, Option.some.inj (Except.ok.inj hr)]
        · split_ifs at hr
          · cases Except.ok.inj hr
      have hread := (hfollows cur typestrEnd ref ap cur).eq_ok hok
      have hcursor := htakes.cursor (a := (r.1.erase, r.2.2)) hcur ⟨le_rfl, hcur⟩ hread
      exact ih (hlo.trans hcursor.1) hcursor.2

theorem vaArgInt_ne_fuel (ap : List VArg) : vaArgInt ap ≠ .error .fuel := by
  unfold vaArgInt
  split <;> simp

/-- A branch is safe if the recursive calls are. -/
theorem safe_branch (hfollows : SelfFollows run self) {stop : Int} (hstop : stop ≤ ts.length)
    (htakes : ∀ endBrace, Region ts endBrace → Takes ts endBrace self) {cur new : Nat} {c : Char}
    (hself : ∀ endBrace : Nat, Region ts endBrace → (endBrace : Int) < stop → ∀ start new ref ap,
      cur < start → start ≤ endBrace → new ≤ endBrace → Safe ts.length (run start endBrace ref ap new))
    (hc : charAt ts cur = .ok c) :
    Safe ts.length (parseBranch zeroBlock run ts stop ref ap new cur c) := by
  have hcur := le_length_of_charAt hc
  unfold parseBranch
  split_ifs with hcoll hrange htuple hscalar hnul
  · refine safe_mallocNode.bind fun node _ _ => ?_
    refine (safe_findEndBrace _ hcur hstop).bind_follows (findEndBraceLoop_follows _ _ _ _)
      fun brace hbrace => ?_
    cases brace with
    | none => exact safe_abandon _
    | some endBrace =>
      obtain ⟨hlo, hhi, hclose⟩ := findEndBrace_eq_ok hbrace hc (by
        rcases hcoll with rfl | rfl <;> decide)
      refine (safe_lift (vaArgInt_ne_fuel ap)).bind fun r _ _ => safe_element ?_
      exact hself endBrace (.inr ⟨_, hclose, by split_ifs <;> rfl⟩) hhi (cur + 1) cur ref _
        (Nat.lt_succ_self cur) hlo hlo.le
  · refine safe_mallocNode.bind fun node _ _ => ?_
    refine (safe_findEndBrace _ hcur hstop).bind_follows (findEndBraceLoop_follows _ _ _ _)
      fun brace hbrace => ?_
    cases brace with
    | none => exact safe_abandon _
    | some endBrace =>
      obtain ⟨hlo, hhi, hclose⟩ := findEndBrace_eq_ok hbrace hc (hrange ▸ by decide)
      refine safe_element ?_
      exact hself endBrace (.inr ⟨_, hclose, rfl⟩) hhi (cur + 1) cur ref _ (Nat.lt_succ_self cur) hlo
        hlo.le
  · refine safe_mallocNode.bind fun node _ _ => ?_
    refine (safe_findEndBrace _ hcur hstop).bind_follows (findEndBraceLoop_follows _ _ _ _)
      fun brace hbrace => ?_
    cases brace with
    | none => exact safe_abandon _
    | some endBrace =>
      obtain ⟨hlo, hhi, hclose⟩ := findEndBrace_eq_ok hbrace hc (htuple ▸ by decide)
      refine (safe_lift (vaArgInt_ne_fuel ap)).bind fun r _ _ => ?_
      obtain ⟨n, ap'⟩ := r
      dsimp only
      split_ifs with hneg
      · exact safe_fail (by decide)
      refine (safe_mallocArray zeroBlock n.toNat).bind fun array _ _ => ?_
      refine (safe_components hfollows (htakes endBrace (.inr ⟨_, hclose, rfl⟩)) (cur + 1)
        (fun start new ap hstart => hself endBrace (.inr ⟨_, hclose, rfl⟩) hhi start new ref ap hstart)
        _ n.toNat le_rfl hlo).bind fun subs _ _ => ?_
      exact safe_pure _
  · have hlt := lt_length_of_charAt hc (hscalar ▸ by decide)
    exact (safe_parseScalar hlt).bind fun r _ _ => safe_pure _
  · exact safe_mallocNode.bind fun node _ _ => safe_pure _
  · exact safe_fail (by decide)

/-- What a call does behind its first event, if its recursive calls are safe. -/
theorem safe_behind (zeroBlock : Bool) (hnul : nul ∉ ts) (depth : Nat) {stop : Int}
    (hstop : stop ≤ ts.length) {start new : Nat} (hstart : start ≤ ts.length)
    (hself : ∀ endBrace : Nat, Region ts endBrace → (endBrace : Int) < stop → ∀ start' new ref ap,
      start < start' → start' ≤ endBrace → new ≤ endBrace →
        Safe ts.length (parseTypestrHelper zeroBlock ts depth start' endBrace ref ap new))
    (log : List Access) :
    (parseTypestrHelper zeroBlock ts (depth + 1) start stop ref ap new).Spec log fun added r =>
      ∃ behind, added = .call start stop :: behind ∧ (∀ a ∈ behind, a.InBounds ts.length) ∧
        r ≠ .error .fuel := by
  have hregion : Region ts ts.length := .inl (charAt_length ts)
  have hskip := hregion.skip_le hstart
  refine (spec_tell (Q := fun added r => added = [.call start stop] ∧ r = .ok ()) ⟨rfl, rfl⟩).bind ?_
    fun added e ⟨_, he⟩ => by cases he
  rintro added _ ⟨rfl, -⟩
  have hbehind : Safe ts.length (if start = stop then Traced.fail .null
      else do
        let cur ← skipLoop ts (ts.length + 1) start
        let amp := (← readCharInt ts cur) = '&'
        let cur := if amp then cur + 1 else cur
        let c ← readCharInt ts cur
        parseBranch zeroBlock (parseTypestrHelper zeroBlock ts depth) ts stop (ref || amp) ap new cur c) := by
    split_ifs with heq
    · exact safe_fail (by decide)
    refine (safe_skipLoop hstart (by omega)).bind_follows (skipLoop_follows hstart (by omega))
      fun cur hcur => ?_
    obtain ⟨-, rfl⟩ := advance_eq_ok.mp hcur
    refine safe_readCharInt_bind hskip fun c hc => ?_
    have hle : start ≤ if c = '&' then skipSeparators (ts.drop start) start + 1
        else skipSeparators (ts.drop start) start := by
      refine le_trans ?_ (le_ite_succ _ _)
      rw [skipSeparators_eq]
      omega
    have hlength : (if c = '&' then skipSeparators (ts.drop start) start + 1
        else skipSeparators (ts.drop start) start) ≤ ts.length := by
      split_ifs with hc'
      · exact lt_length_of_charAt hc (hc' ▸ by decide)
      · exact hskip
    refine safe_readCharInt_bind hlength fun d hd => ?_
    refine safe_branch (parseTypestrHelper_follows zeroBlock ts depth) hstop
      (fun _ => parse_takes hnul depth) ?_ hd
    intro endBrace hregion' hlt start' new' ref' ap' hlo hhi hnew
    exact hself endBrace hregion' hlt start' new' ref' ap' (hle.trans_lt hlo) hhi hnew
  exact (hbehind _).mono fun added r hr => ⟨added, rfl, hr⟩

/-- The parser is safe in any region. -/
theorem safe_parse (zeroBlock : Bool) (hnul : nul ∉ ts) (depth : Nat) (hregion : Region ts typestrEnd)
    {start new : Nat} (hstart : start ≤ typestrEnd) (hdepth : typestrEnd - start < depth) :
    Safe ts.length (parseTypestrHelper zeroBlock ts depth start typestrEnd ref ap new) := by
  induction depth generalizing typestrEnd start new ref ap with
  | zero => omega
  | succ depth ih =>
    intro log
    have hend := hregion.le_length
    refine (safe_behind zeroBlock hnul depth (by omega) (hstart.trans hend) ?_ log).mono ?_
    · intro endBrace hregion' hlt start' new' ref' ap' hlo hhi _
      exact ih hregion' hhi (by omega)
    · rintro added r ⟨behind, rfl, hbehind, hr⟩
      exact ⟨List.forall_mem_cons.mpr ⟨⟨by omega, by omega⟩, hbehind⟩, hr⟩

end Containers

/-! ## Whole strings -/

/-- The first event of `parse_typestr` is its own call of `parse_typestr_helper`. -/
theorem parseTypestr_reads (zeroBlock : Bool) (typestr : List Char) (ap : List VArg) :
    (∀ a ∈ (parseTypestr zeroBlock typestr ap []).1.tail, a.InBounds (cStr typestr).length) ∧
      (parseTypestr zeroBlock typestr ap []).2 ≠ .error .fuel := by
  have hnul := nul_notMem_cStr typestr
  have hhelper := @safe_behind (cStr typestr) false ap zeroBlock hnul (cStr typestr).length _
    (intLength_le _) 0 0 (Nat.zero_le _) (fun endBrace hregion hlt start new ref ap hlo hhi hnew =>
      safe_parse zeroBlock hnul _ hregion hhi (by have := hregion.le_length; omega)) []
  have hspec : (parseTypestr zeroBlock typestr ap).Spec [] fun added r => ∃ behind,
      added = .call 0 (intLength (cStr typestr)) :: behind ∧
        (∀ a ∈ behind, a.InBounds (cStr typestr).length) ∧ r ≠ .error .fuel := by
    refine hhelper.bind ?_ ?_
    · rintro added r ⟨behind, rfl, hbehind, -⟩
      refine spec_pure ⟨behind, List.append_nil _, hbehind, by rintro ⟨⟩⟩
    · rintro added e ⟨behind, rfl, hbehind, hr⟩
      exact ⟨behind, rfl, hbehind, fun heq => hr (congrArg _ (Except.error.inj heq))⟩
  obtain ⟨added, hlog, behind, rfl, hbehind, hr⟩ := hspec
  rw [hlog]
  exact ⟨hbehind, hr⟩

section Toplevel

variable {ts : CStr}

theorem safe_frontLoop {n cur : Nat} (hcur : cur ≤ ts.length) (hn : ts.length < n + cur) :
    Safe ts.length (frontLoop ts n cur) := by
  induction n generalizing cur with
  | zero => omega
  | succ n ih =>
    refine safe_readChar_bind hcur fun c hc => ?_
    split_ifs with hfront
    · exact ih (lt_length_of_charAt hc (by rintro rfl; cases hfront)) (by omega)
    · exact safe_pure cur

/-- The scanner reads on behind a letter `l`. -/
theorem safe_toplevelScalar {cur : Nat} (hcur : cur ≤ ts.length) :
    Safe ts.length (toplevelScalar ts cur) := by
  refine safe_readChar_bind hcur fun c hc => ?_
  dsimp only
  split
  · refine safe_readChar_bind (lt_length_of_charAt hc (by decide)) fun d hd => ?_
    split
    · exact safe_pure _
    · exact safe_pure _
    · refine safe_readChar_bind (lt_length_of_charAt hd (by decide)) fun e he => ?_
      split <;> exact safe_pure _
    · exact safe_pure _
  iterate 1
    · exact safe_pure _
  iterate 2
    · exact (safe_parseScalarLenSpec (lt_length_of_charAt hc (by decide))).bind fun r _ _ =>
        safe_pure _
  all_goals exact safe_pure _

theorem safe_toplevelType (typestr : List Char) :
    Safe (cStr typestr).length (toplevelType typestr) := by
  have hloop := frontLoop_follows [] (l := cStr typestr) (Nat.lt_succ_self _)
  refine (safe_frontLoop (Nat.zero_le _) (by omega)).bind_follows hloop fun cur hcur => ?_
  obtain rfl : 0 + ((cStr typestr).takeWhile isFront).length = cur := Except.ok.inj hcur
  have hle : 0 + ((cStr typestr).takeWhile isFront).length ≤ (cStr typestr).length := by
    rw [Nat.zero_add]
    exact (List.takeWhile_prefix _).length_le
  refine safe_readChar_bind hle fun c hc => ?_
  split
  · exact safe_toplevelScalar (lt_length_of_charAt hc (by decide))
  all_goals exact safe_pure _

theorem exists_parseScalarLenSpec (h : 0 < ts.length) :
    ∃ r, Adiak.parseScalarLenSpec ts 0 = .ok r := by
  unfold Adiak.parseScalarLenSpec
  rw [charAtInt_of_lt ts (by decide), charAt_getD h, ok_bind]
  have hlt := lt_length_of_charAt (charAt_getD h)
  generalize ts.getD (0 + 1) nul = c at hlt
  by_cases h8 : c = '8'
  · exact ⟨_, if_pos h8⟩
  rw [if_neg h8]
  by_cases hfirst : c = '1' ∨ c = '3' ∨ c = '6'
  · rw [if_pos hfirst, charAtInt_of_lt ts (by decide),
      charAt_getD (hlt (by rcases hfirst with rfl | rfl | rfl <;> decide)), ok_bind]
    dsimp only
    split_ifs <;> exact ⟨_, rfl⟩
  · rw [if_neg hfirst, ok_bind]
    dsimp only
    split_ifs <;> exact ⟨_, rfl⟩

/-- `toplevel_type` returns. -/
theorem exists_toplevelType (typestr : List Char) : ∃ top, Adiak.toplevelType typestr = .ok top := by
  unfold Adiak.toplevelType
  split
  · unfold Adiak.toplevelScalar
    split
    iterate 5
      · exact ⟨_, rfl⟩
    iterate 2
      · obtain ⟨r, hr⟩ := @exists_parseScalarLenSpec (_ :: _) (Nat.zero_lt_succ _)
        exact ⟨_, by rw [hr]; rfl⟩
    all_goals exact ⟨_, rfl⟩
  all_goals exact ⟨_, rfl⟩

end Toplevel

/-- `toplevel_type` and `parse_typestr` return, with reads up to the terminating NUL only and recursive
calls on regions. (The first event of `parse_typestr` is no recursive call.) -/
def ReadsInBounds (zeroBlock : Bool) (typestr : List Char) : Prop :=
  (∀ a ∈ (toplevelType typestr []).1, a.InBounds (cStr typestr).length) ∧
  (∃ top, (toplevelType typestr []).2 = .ok top) ∧
  (∀ ap, (∀ a ∈ (parseTypestr zeroBlock typestr ap []).1.tail, a.InBounds (cStr typestr).length) ∧
    (parseTypestr zeroBlock typestr ap []).2 ≠ .error .fuel) ∧
  ∀ counts : Nat → Int, (∀ i, 0 ≤ counts i) → ∃ N, ∀ n ≥ N,
    Answers (parseTypestr zeroBlock typestr (supply counts 0 n) []).2

theorem toplevelType_reads (typestr : List Char) :
    (∀ a ∈ (toplevelType typestr []).1, a.InBounds (cStr typestr).length) ∧
      ∃ top, (toplevelType typestr []).2 = .ok top := by
  obtain ⟨added, hlog, hadded, -⟩ := safe_toplevelType typestr []
  refine ⟨by rw [hlog]; exact hadded, ?_⟩
  obtain ⟨top, htop⟩ := exists_toplevelType typestr
  have hfollows := toplevelType_follows typestr []
  rw [htop] at hfollows
  cases hr : (toplevelType typestr []).2 with
  | ok top => exact ⟨top, rfl⟩
  | error e => rw [hr] at hfollows; cases hfollows

/-- A run answers if and only if the parser that returns datatypes does. -/
theorem answers_iff {zeroBlock : Bool} {typestr : List Char} {ap : List VArg} :
    Answers (parseTypestr zeroBlock typestr ap []).2 ↔ Answers (Adiak.parseTypestr typestr ap) := by
  rw [← parseTypestr_follows zeroBlock typestr ap []]
  cases (parseTypestr zeroBlock typestr ap []).2 with
  | ok r => exact iff_of_true (.ok r) (.ok _)
  | error e =>
    constructor
    · rintro (he | ⟨a, ha⟩)
      · exact .inl (congrArg _ (Except.error.inj he))
      · cases ha
    · rintro (he | ⟨a, ha⟩)
      · exact .inl (congrArg _ (Except.error.inj he))
      · cases ha

/-- The reads are sound if and only if the cursor of the first call does not overflow, or the end bound is
zero, so that nothing is read. -/
theorem reads_inBounds_iff (zeroBlock : Bool) (typestr : List Char) :
    ReadsInBounds zeroBlock typestr ↔
      intLength (cStr typestr) = 0 ∨ headReach (cStr typestr) < 2 ^ 31 := by
  constructor
  · rintro ⟨-, -, -, hanswers⟩
    by_contra hnot
    obtain ⟨hstop, hhead⟩ := not_or.mp hnot
    obtain ⟨N, hN⟩ := hanswers (fun _ => 0) fun _ => le_rfl
    have hover := parseTypestr_overflows hstop (not_lt.mp hhead) (supply (fun _ => 0) 0 N)
    rcases hover ▸ answers_iff.mp (hN N le_rfl) with hnull | ⟨a, ha⟩
    · cases hnull
    · cases ha
  · intro hfits
    obtain ⟨htop, hreturns⟩ := toplevelType_reads typestr
    refine ⟨htop, hreturns, parseTypestr_reads zeroBlock typestr, fun counts hcounts => ?_⟩
    obtain ⟨N, hN⟩ := parseTypestr_settles hcounts hfits
    exact ⟨N, fun n hn => answers_iff.mpr (hN n hn)⟩

/-- The cursor overflows on `2^31` separators. -/
theorem reads_inBounds_not_always : ¬ ReadsInBounds false (List.replicate (2 ^ 31) ' ') := by
  rintro ⟨-, -, -, hanswers⟩
  generalize hn : 2 ^ 31 = n at hanswers
  have hseps : cStr (List.replicate n ' ') = List.replicate n ' ' :=
    List.takeWhile_eq_self_iff.mpr fun c hc => by rw [List.eq_of_mem_replicate hc]; decide
  have hstop : intLength (cStr (List.replicate n ' ')) ≠ 0 := by
    rw [hseps, intLength, List.length_replicate, ← hn]
    decide
  have hskip : skipSeparators (List.replicate n ' ') 0 = n := by
    rw [skipSeparators_eq, List.takeWhile_eq_self_iff.mpr fun c hc => by
      rw [List.eq_of_mem_replicate hc]; rfl, List.length_replicate, Nat.zero_add]
  have hhead : 2 ^ 31 ≤ headReach (cStr (List.replicate n ' ')) := by
    have hle := (skip_le_headCursor (List.replicate n ' ')).trans (headCursor_le_headReach _)
    rw [hskip, ← hseps] at hle
    rwa [hn]
  obtain ⟨N, hN⟩ := hanswers (fun _ => 0) fun _ => le_rfl
  have hover := parseTypestr_overflows hstop hhead (supply (fun _ => 0) 0 N)
  rcases hover ▸ answers_iff.mp (hN N le_rfl) with hnull | ⟨a, ha⟩
  · cases hnull
  · cases ha

end Heap

end Adiak
