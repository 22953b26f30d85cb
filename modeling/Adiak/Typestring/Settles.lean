import Adiak.Typestring.Loose

/-!
# When the parser returns

With enough counts that are not negative, `parse_typestr` returns `NULL` or a datatype, unless its
cursor overflows.

1. `headReach` is how far the first call moves the cursor before it looks for a closing bracket. Behind a
   bracket that is closed, the cursor stays in front of the end bound, an `int` (`scalarReach_le`).
2. `Spans` is what is asked of a function that moves the cursor up to a position: it answers if the
   position is an `int`, and overflows if not.
3. `Settles` is what is asked of a function that fetches counts. `parse_settles` is the induction over the
   recursion depth, `parseTypestr_settles` and `parseTypestr_overflows` are the results.
-/

namespace Adiak

section Positions

variable {ts : CStr}

theorem exists_charAt {i : Nat} (h : i ≤ ts.length) : ∃ c, charAt ts i = .ok c := by
  rcases Nat.lt_or_eq_of_le h with h | rfl
  · exact ⟨ts[i], by rw [charAt, List.getElem?_eq_getElem h]⟩
  · exact ⟨nul, charAt_length ts⟩

theorem lt_length_of_charAt {i : Nat} {c : Char} (hc : charAt ts i = .ok c) (hne : c ≠ nul) :
    i < ts.length := by
  by_contra hlt
  have hdrop := drop_of_charAt hc hne
  rw [List.drop_eq_nil_of_le (by omega)] at hdrop
  cases hdrop

theorem getD_of_charAt {i : Nat} {c : Char} (hc : charAt ts i = .ok c) : ts.getD i nul = c := by
  unfold charAt at hc
  rw [List.getD_eq_getElem?_getD]
  cases hget : ts[i]? with
  | none =>
    rw [hget] at hc
    dsimp only at hc
    split_ifs at hc
    exact Except.ok.inj hc
  | some d =>
    rw [hget] at hc
    exact Except.ok.inj hc

theorem charAt_getD {i : Nat} (h : i ≤ ts.length) : charAt ts i = .ok (ts.getD i nul) := by
  obtain ⟨c, hc⟩ := exists_charAt h
  rw [hc, getD_of_charAt hc]

/-- A function of the parser that is given sound positions returns `NULL` or a result. -/
def Answers {α : Type} (x : Except Stop α) : Prop := x = .error .null ∨ ∃ a, x = .ok a

theorem Answers.bind {α β : Type} {x : Except Stop α} {f : α → Except Stop β} (hx : Answers x)
    (hf : ∀ a, x = .ok a → Answers (f a)) : Answers (x >>= f) := by
  rcases hx with rfl | ⟨a, rfl⟩
  · exact .inl rfl
  · exact hf a rfl

theorem Answers.ok {α : Type} (a : α) : Answers (.ok a) := .inr ⟨a, rfl⟩

theorem charAt_answers {i : Nat} (h : i ≤ ts.length) : Answers (charAt ts i) :=
  .inr (exists_charAt h)

/-! ## How far the cursor gets -/

/-- How far the cursor gets from a specifier at `pos` that takes a size suffix, of one and of two bytes
too if it is `narrow`. -/
def suffixReach (ts : CStr) (narrow : Bool) (pos : Nat) : Nat :=
  let c := ts.getD (pos + 1) nul
  let d := ts.getD (pos + 2) nul
  if c = '8' ∧ narrow then pos + 2
  else if c = '1' ∧ d = '6' ∧ narrow ∨ c = '3' ∧ d = '2' ∨ c = '6' ∧ d = '4' then pos + 3
  else if c = '1' ∨ c = '3' ∨ c = '6' then pos + 2
  else pos + 1

/-- How far it gets from a specifier at `cur`. What is no specifier is not stepped over. -/
def specReach (ts : CStr) (cur : Nat) : Nat :=
  let c := ts.getD cur nul
  if c = 'u' ∨ c = 'i' ∨ c = 'f' then suffixReach ts (c ≠ 'f') cur
  else if c ∈ ['d', 'D', 't', 'v', 's', 'r', 'j', 'p'] then cur + 1
  else cur

/-- How far it gets from behind a `%`. -/
def scalarReach (ts : CStr) (cur : Nat) : Nat :=
  let isLong := ts.getD cur nul = 'l'
  let cur := if isLong then cur + 1 else cur
  let isLonglong := isLong ∧ ts.getD cur nul = 'l'
  let cur := if isLonglong then cur + 1 else cur
  specReach ts cur

/-- Where the first type begins, behind the separators and a `&`. -/
def headCursor (ts : CStr) : Nat :=
  let cur := skipSeparators ts 0
  if ts.getD cur nul = '&' then cur + 1 else cur

/-- How far the cursor gets in the first call. At a bracket, it looks for the closing one from there. -/
def headReach (ts : CStr) : Nat :=
  let cur := headCursor ts
  if ts.getD cur nul = '%' then scalarReach ts (cur + 1) else cur

theorem le_suffixReach (ts : CStr) (narrow : Bool) (pos : Nat) : pos + 1 ≤ suffixReach ts narrow pos := by
  unfold suffixReach
  dsimp only
  split_ifs <;> omega

theorem le_specReach (ts : CStr) (cur : Nat) : cur ≤ specReach ts cur := by
  have hsuffix := fun narrow => le_suffixReach ts narrow cur
  unfold specReach
  dsimp only
  split_ifs
  · exact (Nat.le_succ cur).trans (hsuffix _)
  · exact Nat.le_succ cur
  · exact le_rfl

theorem le_ite_succ (P : Prop) [Decidable P] (p : Nat) : p ≤ if P then p + 1 else p := by
  split_ifs <;> omega

theorem letter_le_scalarReach (ts : CStr) (cur : Nat) :
    (if ts.getD cur nul = 'l' then cur + 1 else cur) ≤ scalarReach ts cur :=
  (le_ite_succ _ _).trans (le_specReach ts _)

theorem le_scalarReach (ts : CStr) (cur : Nat) : cur ≤ scalarReach ts cur :=
  (le_ite_succ _ _).trans (letter_le_scalarReach ts cur)

/-- At the end of a region neither a letter nor a digit stands. -/
theorem Region.char_lt {typestrEnd p : Nat} (h : Region ts typestrEnd) (hp : p ≤ typestrEnd)
    (hne : ts.getD p nul ≠ nul) (hbrace : isCloseBrace (ts.getD p nul) = false) : p < typestrEnd :=
  h.lt hp (charAt_getD (hp.trans h.le_length)) hne hbrace

theorem Region.suffixReach_le {typestrEnd pos : Nat} {narrow : Bool} (h : Region ts typestrEnd)
    (hlt : pos < typestrEnd) : suffixReach ts narrow pos ≤ typestrEnd := by
  unfold suffixReach
  dsimp only
  split_ifs with h8 hsecond hfirst
  · exact h.char_lt hlt (by rw [h8.1]; decide) (by rw [h8.1]; rfl)
  · have hlt' : pos + 1 < typestrEnd := by
      rcases hsecond with hc | hc | hc <;> exact h.char_lt hlt (by rw [hc.1]; decide) (by rw [hc.1]; rfl)
    rcases hsecond with hc | hc | hc
    · exact h.char_lt hlt' (by rw [hc.2.1]; decide) (by rw [hc.2.1]; rfl)
    · exact h.char_lt hlt' (by rw [hc.2]; decide) (by rw [hc.2]; rfl)
    · exact h.char_lt hlt' (by rw [hc.2]; decide) (by rw [hc.2]; rfl)
  · rcases hfirst with hc | hc | hc <;> exact h.char_lt hlt (by rw [hc]; decide) (by rw [hc]; rfl)
  · exact hlt

theorem Region.specReach_le {typestrEnd cur : Nat} (h : Region ts typestrEnd)
    (hle : cur ≤ typestrEnd) : specReach ts cur ≤ typestrEnd := by
  unfold specReach
  dsimp only
  split_ifs with hsuffix hplain
  · refine h.suffixReach_le ?_
    rcases hsuffix with hc | hc | hc <;> exact h.char_lt hle (by rw [hc]; decide) (by rw [hc]; rfl)
  · refine h.char_lt hle ?_ ?_
    · intro hc
      rw [hc] at hplain
      exact absurd hplain (by decide)
    · revert hplain
      generalize ts.getD cur nul = c
      intro hplain
      simp only [List.mem_cons, List.not_mem_nil, or_false] at hplain
      rcases hplain with rfl | rfl | rfl | rfl | rfl | rfl | rfl | rfl <;> rfl
  · exact hle

theorem Region.letter_le {typestrEnd p : Nat} {P : Prop} [Decidable P] (h : Region ts typestrEnd)
    (hp : p ≤ typestrEnd) (hP : P → ts.getD p nul = 'l') : (if P then p + 1 else p) ≤ typestrEnd := by
  split_ifs with hl
  · exact h.char_lt hp (by rw [hP hl]; decide) (by rw [hP hl]; rfl)
  · exact hp

/-- In a region the cursor stays in front of the end. -/
theorem Region.scalarReach_le {typestrEnd cur : Nat} (h : Region ts typestrEnd)
    (hle : cur ≤ typestrEnd) : scalarReach ts cur ≤ typestrEnd :=
  h.specReach_le (h.letter_le (h.letter_le hle id) And.right)

theorem skip_le_headCursor (ts : CStr) : skipSeparators ts 0 ≤ headCursor ts := le_ite_succ _ _

theorem headCursor_le_headReach (ts : CStr) : headCursor ts ≤ headReach ts := by
  unfold headReach
  dsimp only
  split_ifs
  · exact (Nat.le_succ _).trans (le_scalarReach ts _)
  · exact le_rfl

theorem headCursor_le_length (ts : CStr) : headCursor ts ≤ ts.length := by
  have hregion : Region ts ts.length := .inl (charAt_length ts)
  have hskip : skipSeparators ts 0 ≤ ts.length := hregion.skip_le (Nat.zero_le _)
  unfold headCursor
  dsimp only
  split_ifs with hc
  · exact hregion.char_lt hskip (by rw [hc]; decide) (by rw [hc]; rfl)
  · exact hskip

/-- A function that moves the cursor up to `n` answers, or `n` is no `int`. -/
def Spans {α : Type} (x : Except Stop α) (n : Nat) : Prop :=
  n < 2 ^ 31 ∧ Answers x ∨ 2 ^ 31 ≤ n ∧ x = .error .undefined

section Spans

variable {α β : Type} {n : Nat}

theorem Spans.answers {x : Except Stop α} (h : Spans x n) (hn : n < 2 ^ 31) : Answers x :=
  (h.resolve_right fun hlong => absurd hlong.1 (not_le.mpr hn)).2

theorem Spans.overflows {x : Except Stop α} (h : Spans x n) (hn : 2 ^ 31 ≤ n) :
    x = .error .undefined :=
  (h.resolve_left fun hfits => absurd hfits.1 (not_lt.mpr hn)).2

/-- A character on the way. -/
theorem spans_charAtInt_bind {i : Nat} {f : Char → Except Stop β} (hi : i ≤ ts.length) (hn : i ≤ n)
    (hf : i < 2 ^ 31 → Spans (f (ts.getD i nul)) n) : Spans (charAtInt ts i >>= f) n := by
  rcases Nat.lt_or_ge i (2 ^ 31) with hlt | hge
  · rw [charAtInt_of_lt ts hlt, charAt_getD hi, ok_bind]
    exact hf hlt
  · rw [charAtInt_of_ge ts hge, error_bind]
    exact .inr ⟨hge.trans hn, rfl⟩

theorem spans_advance_bind {f : Nat → Except Stop β} (hf : ∀ cur, Answers (f cur)) :
    Spans (advance n >>= f) n := by
  rcases Nat.lt_or_ge n (2 ^ 31) with hlt | hge
  · rw [advance_of_lt hlt, ok_bind]
    exact .inl ⟨hlt, hf n⟩
  · rw [advance_of_ge hge, error_bind]
    exact .inr ⟨hge, rfl⟩

/-- The sizes that a specifier takes. -/
def sizes (narrow : Bool) : List Int := if narrow then [0, 1, 2, 4, 8] else [0, 4, 8]

/-- A size suffix, with what is done behind it. -/
theorem spans_suffix (narrow : Bool) {pos : Nat} (h : pos < ts.length)
    {f : Int × Nat → Except Stop β} (hnull : ∀ len p, len ∉ sizes narrow → f (len, p) = .error .null)
    (hf : ∀ len p, len ∈ sizes narrow → Spans (f (len, p)) (p + 1)) :
    Spans (parseScalarLenSpec ts pos >>= f) (suffixReach ts narrow pos) := by
  have hunknown : ∀ len p m, len ∉ sizes narrow → m < 2 ^ 31 → Spans (f (len, p)) m :=
    fun len p m hlen hm => .inl ⟨hm, .inl (hnull len p hlen)⟩
  have hnone : (-1 : Int) ∉ sizes narrow := by cases narrow <;> decide
  unfold parseScalarLenSpec
  rw [bind_assoc]
  refine spans_charAtInt_bind h (le_suffixReach ts narrow pos) fun hfits => ?_
  have hlt : ts.getD (pos + 1) nul ≠ nul → pos + 1 < ts.length :=
    lt_length_of_charAt (charAt_getD h)
  unfold suffixReach
  generalize ts.getD (pos + 1) nul = c at hlt ⊢
  dsimp only
  by_cases h8 : c = '8'
  · obtain rfl := h8
    cases narrow with
    | true => exact hf 1 (pos + 1) (by decide)
    | false => exact hunknown 1 (pos + 1) (pos + 1) (by decide) hfits
  have h8' : ¬ (c = '8' ∧ narrow = true) := fun h => h8 h.1
  rw [if_neg h8, if_neg h8']
  by_cases hfirst : c = '1' ∨ c = '3' ∨ c = '6'
  · rw [if_pos hfirst, bind_assoc]
    refine spans_charAtInt_bind (hlt (by rcases hfirst with rfl | rfl | rfl <;> decide)) ?_
      fun hfits' => ?_
    · split_ifs <;> omega
    generalize ts.getD (pos + 2) nul = d
    rcases hfirst with rfl | rfl | rfl
    · by_cases hd : d = '6'
      · cases narrow with
        | true => simpa [hd] using hf 2 (pos + 2) (by decide)
        | false => simpa [hd] using hunknown 2 (pos + 2) (pos + 2) (by decide) hfits'
      · simpa [hd] using hunknown (-1) pos (pos + 2) hnone hfits'
    · by_cases hd : d = '2'
      · simpa [hd] using hf 4 (pos + 2) (by cases narrow <;> decide)
      · simpa [hd] using hunknown (-1) pos (pos + 2) hnone hfits'
    · by_cases hd : d = '4'
      · simpa [hd] using hf 8 (pos + 2) (by cases narrow <;> decide)
      · simpa [hd] using hunknown (-1) pos (pos + 2) hnone hfits'
  · obtain ⟨h1, h3, h6⟩ : c ≠ '1' ∧ c ≠ '3' ∧ c ≠ '6' := by simpa using hfirst
    simp only [ok_bind, h1, h3, h6, false_and, or_self, if_false]
    split_ifs
    · exact hunknown (-1) pos (pos + 1) hnone hfits
    · exact hf 0 pos (by cases narrow <;> decide)

/-- A specifier, with what is done behind it. -/
theorem spans_scalarType {cur : Nat} {isLong isLonglong ref : Bool} (hcur : cur ≤ ts.length)
    (hfits : cur < 2 ^ 31) {f : AdiakDatatype × Nat → Except Stop β}
    (hf : ∀ t p, Spans (f (t, p)) (p + 1)) :
    Spans (scalarType ts isLong isLonglong ref cur (ts.getD cur nul) >>= f) (specReach ts cur) := by
  have hlt : ts.getD cur nul ≠ nul → cur < ts.length := lt_length_of_charAt (charAt_getD hcur)
  unfold specReach
  generalize ts.getD cur nul = c at hlt ⊢
  dsimp only
  unfold scalarType
  split
  iterate 1
    · exact hf _ _
  iterate 2
    · rw [bind_assoc]
      refine spans_suffix true (hlt (by decide)) (fun len p hlen => ?_) fun len p hlen => ?_
      · dsimp only
        split <;> first | rfl | exact absurd (by decide) hlen
      · have hlen' : len = 0 ∨ len = 1 ∨ len = 2 ∨ len = 4 ∨ len = 8 := by simpa [sizes] using hlen
        rcases hlen' with rfl | rfl | rfl | rfl | rfl <;> exact hf _ _
  iterate 1
    · rw [bind_assoc]
      refine spans_suffix false (hlt (by decide)) (fun len p hlen => ?_) fun len p hlen => ?_
      · dsimp only
        split <;> first | rfl | exact absurd (by decide) hlen
      · have hlen' : len = 0 ∨ len = 4 ∨ len = 8 := by simpa [sizes] using hlen
        rcases hlen' with rfl | rfl | rfl <;> exact hf _ _
  iterate 7
    · exact hf _ _
  · have hsuffix : ¬ (c = 'u' ∨ c = 'i' ∨ c = 'f') := by grind
    have hplain : c ∉ ['d', 'D', 't', 'v', 's', 'r', 'j', 'p'] := by simp_all
    rw [if_neg hsuffix, if_neg hplain]
    exact .inl ⟨hfits, .inl rfl⟩

/-- The branch behind `%`. -/
theorem spans_parseScalar {cur : Nat} {ref : Bool} (hcur : cur ≤ ts.length) :
    Spans (parseScalar ts ref cur) (scalarReach ts cur) := by
  have hregion : Region ts ts.length := .inl (charAt_length ts)
  have hcur' := hregion.letter_le hcur id
  unfold parseScalar
  refine spans_charAtInt_bind hcur (le_scalarReach ts cur) fun _ => ?_
  simp only
  refine spans_charAtInt_bind hcur' (letter_le_scalarReach ts cur) fun _ => ?_
  simp only [Bool.and_eq_true, decide_eq_true_eq]
  refine spans_charAtInt_bind (hregion.letter_le hcur' And.right) (le_specReach ts _) fun hfits => ?_
  refine spans_scalarType (hregion.letter_le hcur' And.right) hfits fun t p => ?_
  exact spans_advance_bind fun cur => .ok _

end Spans

/-! ## Enough counts -/

variable {typestrEnd : Nat} {self : SelfCall} {ref : Bool} {ap ap' : List VArg}

theorem findEndBrace_answers {c : Char} {cur : Nat} {stop : Int} (hcur : cur ≤ ts.length)
    (hend : stop ≤ ts.length) : Answers (findEndBrace ts c cur stop) := by
  unfold findEndBrace
  generalize hn : (stop - cur).toNat = n
  replace hn : cur + n ≤ ts.length := by omega
  generalize (0 : Int) = depth
  induction n generalizing cur depth with
  | zero => exact .ok none
  | succ n ih =>
    rw [findEndBraceLoop_succ]
    refine (charAt_answers (by omega)).bind fun d _ => ?_
    dsimp only
    split_ifs
    · exact .ok _
    · exact ih (by omega) (by omega) _

/-- The next `n` arguments of a supply of counts. -/
def supply (counts : Nat → Int) : Nat → Nat → List VArg
  | _, 0 => []
  | j, n + 1 => .int (counts j) :: supply counts (j + 1) n

/-- With enough arguments of the supply, `f` returns `NULL`, or some `pack a` of what is left. -/
def Settles {α β : Type} (counts : Nat → Int) (pack : α → List VArg → β)
    (f : List VArg → Except Stop β) : Prop :=
  ∀ j, ∃ N, (∀ n ≥ N, f (supply counts j n) = .error .null) ∨
    ∃ a m, m ≤ N ∧ ∀ n ≥ N, f (supply counts j n) = .ok (pack a (supply counts (j + m) (n - m)))

section Settles

variable {α β γ δ : Type} {counts : Nat → Int} {pack : α → List VArg → β}
  {pack' : γ → List VArg → δ} {f : List VArg → Except Stop β}

theorem Settles.null : Settles counts pack fun _ => .error .null :=
  fun _ => ⟨0, .inl fun _ _ => rfl⟩

theorem Settles.ok (a : α) : Settles counts pack fun ap => .ok (pack a ap) :=
  fun _ => ⟨0, .inr ⟨a, 0, le_rfl, fun _ _ => rfl⟩⟩

/-- A step that does not look at the arguments. -/
theorem Settles.answer {η : Type} {x : Except Stop η} {g : η → List VArg → Except Stop β}
    (hx : Answers x) (hg : ∀ a, x = .ok a → Settles counts pack (g a)) :
    Settles counts pack fun ap => x >>= fun a => g a ap := by
  rcases hx with rfl | ⟨a, rfl⟩
  · exact .null
  · exact hg a rfl

/-- One step after the other. -/
theorem Settles.bind {g : β → Except Stop δ} (hf : Settles counts pack f)
    (hg : ∀ a, (∃ j n ap', f (supply counts j n) = .ok (pack a ap')) →
      Settles counts pack' fun ap => g (pack a ap)) :
    Settles counts pack' fun ap => f ap >>= g := by
  intro j
  obtain ⟨N, hnull | ⟨a, m, hm, hok⟩⟩ := hf j
  · exact ⟨N, .inl fun n hn => by simp only [hnull n hn, error_bind]⟩
  · obtain ⟨N', hN'⟩ := hg a ⟨j, N, _, hok N le_rfl⟩ (j + m)
    refine ⟨max N (m + N'), ?_⟩
    have hstep : ∀ n ≥ max N (m + N'), (f (supply counts j n) >>= g) =
        g (pack a (supply counts (j + m) (n - m))) := fun n hn => by rw [hok n (by omega), ok_bind]
    rcases hN' with hnull | ⟨b, m', hm', hok'⟩
    · exact .inl fun n hn => (hstep n hn).trans (hnull _ (by omega))
    · refine .inr ⟨b, m + m', by omega, fun n hn => (hstep n hn).trans ?_⟩
      rw [← Nat.add_assoc, ← Nat.sub_sub]
      exact hok' (n - m) (by omega)

end Settles

/-- The result of `parse_typestr_helper`, by the datatype and the cursor. -/
def packParsed (a : AdiakDatatype × Nat) (ap : List VArg) : Parsed := (a.1, ap, a.2)

variable {counts : Nat → Int}

theorem vaArgInt_settles : Settles counts (fun n ap => (n, ap)) vaArgInt := by
  intro j
  refine ⟨1, .inr ⟨counts j, 1, le_rfl, fun n hn => ?_⟩⟩
  cases n with
  | zero => omega
  | succ n => rfl

/-- A count of the supply. -/
theorem vaArgInt_supply (hcounts : ∀ i, 0 ≤ counts i) {j n : Nat} {x : Int} {ap' : List VArg}
    (h : vaArgInt (supply counts j n) = .ok (x, ap')) : 0 ≤ x := by
  cases n with
  | zero => cases h
  | succ n =>
    obtain ⟨rfl, -⟩ := Prod.mk.inj (Except.ok.inj h)
    exact hcounts j

/-- The cursor behind what is taken. -/
theorem Takes.cursor {start new : Nat} {a : AdiakDatatype × Nat} (h : Takes ts typestrEnd self)
    (hstart : start ≤ typestrEnd) (hnew : start ≤ new ∧ new ≤ typestrEnd)
    (hself : self start typestrEnd ref ap new = .ok (packParsed a ap')) :
    start ≤ a.2 ∧ a.2 ≤ typestrEnd := by
  rcases h start ref ap new _ hstart hself with ⟨text, tree, -, hle, -, -, -, hcur⟩ |
      ⟨-, -, -, -, hcur⟩
  · rw [hcur]
    split_ifs <;> omega
  · obtain rfl : a.2 = new := hcur
    exact hnew

theorem components_settles (htakes : Takes ts typestrEnd self) (lo : Nat)
    (hself : ∀ start new, lo ≤ start → start ≤ typestrEnd → new ≤ typestrEnd →
      Settles counts packParsed fun ap => self start typestrEnd ref ap new)
    (n : Nat) {cur : Nat} (hlo : lo ≤ cur) (hcur : cur ≤ typestrEnd) :
    Settles counts (fun subs ap => (subs, ap))
      fun ap => parseComponents self typestrEnd ref n cur ap := by
  induction n generalizing cur with
  | zero => exact .ok []
  | succ n ih =>
    refine (hself cur cur hlo hcur hcur).bind fun a hread => ?_
    obtain ⟨j, k, ap', hread⟩ := hread
    have hcursor := htakes.cursor hcur ⟨le_rfl, hcur⟩ hread
    exact (ih (hlo.trans hcursor.1) hcursor.2).bind fun subs _ => .ok (a.1 :: subs)

/-- A branch settles if the recursive calls do, and the branch behind `%` answers. -/
theorem branch_settles (hcounts : ∀ i, 0 ≤ counts i) {stop : Int} (hend : stop ≤ ts.length)
    (htakes : ∀ endBrace, Region ts endBrace → Takes ts endBrace self) {cur new : Nat} {c : Char}
    (hself : ∀ endBrace : Nat, Region ts endBrace → (endBrace : Int) < stop → ∀ start new ref,
      cur < start → start ≤ endBrace → new ≤ endBrace →
        Settles counts packParsed fun ap => self start endBrace ref ap new)
    (hc : charAt ts cur = .ok c) (hscalar : c = '%' → Answers (parseScalar ts ref (cur + 1))) :
    Settles counts packParsed fun ap => parseBranch self ts stop ref ap new cur c := by
  have hcur := le_length_of_charAt hc
  unfold parseBranch
  split_ifs with hcoll hrange htuple hpercent hnul
  · refine Settles.answer (findEndBrace_answers hcur hend) fun brace hbrace => ?_
    cases brace with
    | none => exact .null
    | some endBrace =>
      obtain ⟨hlo, hhi, hclose⟩ := findEndBrace_eq_ok hbrace hc (by
        rcases hcoll with rfl | rfl <;> decide)
      refine vaArgInt_settles.bind fun n _ => ?_
      refine (hself endBrace (.inr ⟨_, hclose, by split_ifs <;> rfl⟩) hhi (cur + 1) cur ref
        (Nat.lt_succ_self cur) hlo hlo.le).bind fun a _ => ?_
      exact .ok (_, endBrace + 1)
  · refine Settles.answer (findEndBrace_answers hcur hend) fun brace hbrace => ?_
    cases brace with
    | none => exact .null
    | some endBrace =>
      obtain ⟨hlo, hhi, hclose⟩ := findEndBrace_eq_ok hbrace hc (hrange ▸ by decide)
      refine (hself endBrace (.inr ⟨_, hclose, rfl⟩) hhi (cur + 1) cur ref
        (Nat.lt_succ_self cur) hlo hlo.le).bind fun a _ => ?_
      exact .ok (_, endBrace + 1)
  · refine Settles.answer (findEndBrace_answers hcur hend) fun brace hbrace => ?_
    cases brace with
    | none => exact .null
    | some endBrace =>
      obtain ⟨hlo, hhi, hclose⟩ := findEndBrace_eq_ok hbrace hc (htuple ▸ by decide)
      refine vaArgInt_settles.bind fun n hn => ?_
      obtain ⟨j, k, ap', hn⟩ := hn
      have hneg : ¬ n < 0 := not_lt.mpr (vaArgInt_supply hcounts hn)
      simp only [if_neg hneg]
      refine (components_settles (htakes endBrace (.inr ⟨_, hclose, rfl⟩)) (cur + 1)
        (fun start new hstart => hself endBrace (.inr ⟨_, hclose, rfl⟩) hhi start new ref hstart)
        n.toNat le_rfl hlo).bind fun subs _ => ?_
      exact .ok (AdiakDatatype.node (containerNode .tuple ref n) subs, new)
  · exact Settles.answer (hscalar hpercent) fun r _ => .ok r
  · exact .ok (_, new)
  · exact .null

/-- In a region that ends at an `int`, the parser returns. -/
theorem parse_settles (hcounts : ∀ i, 0 ≤ counts i) (hnul : nul ∉ ts) (depth : Nat)
    (hregion : Region ts typestrEnd) (hfits : typestrEnd < 2 ^ 31) {start new : Nat}
    (hstart : start ≤ typestrEnd) (hdepth : typestrEnd - start < depth) :
    Settles counts packParsed fun ap => parseTypestrHelper ts depth start typestrEnd ref ap new := by
  induction depth generalizing typestrEnd start new ref with
  | zero => omega
  | succ depth ih =>
    have hend := hregion.le_length
    have hskip := hregion.skip_le hstart
    simp only [parseTypestrHelper]
    split_ifs with heq
    · exact .null
    rw [charAtInt_of_lt ts (hskip.trans_lt hfits)]
    refine Settles.answer (charAt_answers (hskip.trans hend)) fun c hc => ?_
    obtain ⟨sep, amp, hamp, hcur, hfront⟩ := drop_front hc
    have hle : (if c = '&' then skipSeparators (ts.drop start) start + 1
        else skipSeparators (ts.drop start) start) ≤ typestrEnd := by
      split_ifs with hc'
      · exact hregion.lt hskip hc (hc' ▸ by decide) (hc' ▸ rfl)
      · exact hskip
    rw [charAtInt_of_lt ts (hle.trans_lt hfits)]
    refine Settles.answer (charAt_answers (hle.trans hend)) fun d hd => ?_
    refine branch_settles hcounts (by omega) (fun _ => parse_takes hnul depth) ?_ hd fun hpercent => ?_
    · intro endBrace hregion' hlt start' new' ref' hlo hhi _
      exact ih hregion' (by omega) hhi (by omega)
    · have hlt := Nat.add_one_le_of_lt (hregion.lt hle hd (hpercent ▸ by decide) (hpercent ▸ rfl))
      exact (spans_parseScalar (hlt.trans hend)).answers ((hregion.scalarReach_le hlt).trans_lt hfits)

/-! ## Whole strings -/

theorem intLength_lt_two_pow (ts : CStr) : intLength ts < 2 ^ 31 := by
  unfold intLength wrapInt Int.bmod
  dsimp only
  split_ifs <;> omega

/-- The first call goes on with a branch on the first character of the first type. -/
theorem parse_head (depth : Nat) {stop : Int} (hstop : stop ≠ 0) (ap : List VArg) :
    parseTypestrHelper ts (depth + 1) 0 stop false ap 0 =
      if headCursor ts < 2 ^ 31 then
        parseBranch (parseTypestrHelper ts depth) ts stop (ts.getD (skipSeparators ts 0) nul = '&') ap 0
          (headCursor ts) (ts.getD (headCursor ts) nul)
      else .error .undefined := by
  have hskip := (skip_le_headCursor ts).trans (headCursor_le_length ts)
  have hcursor : (if ts.getD (skipSeparators ts 0) nul = '&' then skipSeparators ts 0 + 1
      else skipSeparators ts 0) = headCursor ts := rfl
  rw [parseTypestrHelper, if_neg fun h => hstop h.symm, List.drop_zero]
  dsimp only
  split_ifs with hfits
  · rw [charAtInt_of_lt ts ((skip_le_headCursor ts).trans_lt hfits), charAt_getD hskip, ok_bind]
    rw [hcursor, charAtInt_of_lt ts hfits, charAt_getD (headCursor_le_length ts), ok_bind, Bool.false_or]
  · rcases Nat.lt_or_ge (skipSeparators ts 0) (2 ^ 31) with hlt | hge
    · rw [charAtInt_of_lt ts hlt, charAt_getD hskip, ok_bind]
      rw [hcursor, charAtInt_of_ge ts (not_lt.mp hfits), error_bind]
    · rw [charAtInt_of_ge ts hge, error_bind]

end Positions

/-- With enough counts that are not negative, `parse_typestr` returns if its end bound is zero or the
cursor of its first call does not overflow. -/
theorem parseTypestr_settles {counts : Nat → Int} (hcounts : ∀ i, 0 ≤ counts i)
    {typestr : List Char}
    (hhead : intLength (cStr typestr) = 0 ∨ headReach (cStr typestr) < 2 ^ 31) :
    ∃ N, ∀ n ≥ N, Answers (parseTypestr typestr (supply counts 0 n)) := by
  set ts := cStr typestr with hts
  have hsettles : Settles counts packParsed fun ap =>
      parseTypestrHelper ts (ts.length + 1) 0 (intLength ts) false ap 0 := by
    by_cases hstop : intLength ts = 0
    · simp only [parseTypestrHelper, hstop]
      exact .null
    replace hhead := hhead.resolve_left hstop
    simp only [parse_head _ hstop, if_pos ((headCursor_le_headReach ts).trans_lt hhead)]
    refine branch_settles hcounts (intLength_le ts)
      (fun _ => parse_takes (nul_notMem_cStr typestr) _) ?_ (charAt_getD (headCursor_le_length ts)) ?_
    · intro endBrace hregion hlt start new ref hlo hhi _
      have hend := intLength_lt_two_pow ts
      have hle := hregion.le_length
      exact parse_settles hcounts (nul_notMem_cStr typestr) _ hregion (by omega) hhi (by omega)
    · intro hpercent
      have hlt := lt_length_of_charAt (charAt_getD (headCursor_le_length ts)) (hpercent ▸ by decide)
      have hreach : headReach ts = scalarReach ts (headCursor ts + 1) := if_pos hpercent
      exact (spans_parseScalar hlt).answers (hreach ▸ hhead)
  obtain ⟨N, hnull | ⟨a, m, -, hok⟩⟩ := hsettles 0
  · refine ⟨N, fun n hn => .inl ?_⟩
    have hnull : parseTypestrHelper _ _ _ _ _ _ _ = _ := hnull n hn
    unfold parseTypestr
    dsimp only
    rw [hnull, error_bind]
  · refine ⟨N, fun n hn => .inr ⟨(a.1, supply counts (0 + m) (n - m)), ?_⟩⟩
    have hok : parseTypestrHelper _ _ _ _ _ _ _ = _ := hok n hn
    unfold parseTypestr
    dsimp only
    rw [hok]
    rfl

/-- Where that cursor overflows, the behaviour is undefined, unless the end bound is zero. -/
theorem parseTypestr_overflows {typestr : List Char} (hstop : intLength (cStr typestr) ≠ 0)
    (hhead : 2 ^ 31 ≤ headReach (cStr typestr)) (ap : List VArg) :
    parseTypestr typestr ap = .error .undefined := by
  set ts := cStr typestr with hts
  have hparse : parseTypestrHelper ts (ts.length + 1) 0 (intLength ts) false ap 0 =
      .error .undefined := by
    rw [parse_head _ hstop]
    split_ifs with hfits
    · -- only a specifier is stepped over behind the cursor
      have hpercent : ts.getD (headCursor ts) nul = '%' := by
        by_contra hne
        have hreach : headReach ts = headCursor ts := if_neg hne
        omega
      have hreach : headReach ts = scalarReach ts (headCursor ts + 1) := if_pos hpercent
      have hlt := lt_length_of_charAt (charAt_getD (headCursor_le_length ts)) (hpercent ▸ by decide)
      rw [hpercent]
      show (parseScalar ts _ (headCursor ts + 1) >>= _) = _
      rw [(spans_parseScalar hlt).overflows (hreach ▸ hhead), error_bind]
    · rfl
  unfold parseTypestr
  dsimp only
  rw [hparse, error_bind]

end Adiak
