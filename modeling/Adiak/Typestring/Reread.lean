import Mathlib.Data.List.TakeWhile
import Adiak.Typestring.Grammar

/-!
# The parser on typestrings of the grammar

`TypeTree.reread t` reads counts the way the parser does on a text that denotes `t`, with the text
gone: one count for each collection and each tuple, and in a tuple the parser's habit of staying
where it is behind a component that is itself a tuple, so that the next component is read from
the same text again.

`parse_text` says that this is all the parser does on the text of an expression, at any position
of a longer string and under any bound that leaves the text inside.
-/

namespace Adiak

/-- A reader of one component: the tree and the arguments left over. -/
abbrev CompReader := List VArg → Except Stop (TypeTree × List VArg)

/-- Reads `n` components. The flag of a component says whether it leaves the cursor in front. -/
def readComps : List (Bool × CompReader) → Nat → List VArg →
    Except Stop (List TypeTree × List VArg)
  | _, 0, ap => .ok ([], ap)
  | [], _ + 1, _ => .error .null
  | (stuck, rd) :: rs, n + 1, ap => do
    let (t, ap) ← rd ap
    let (ts, ap) ← readComps (if stuck then (stuck, rd) :: rs else rs) n ap
    .ok (t :: ts, ap)

theorem length_readComps {rs : List (Bool × CompReader)} {n : Nat} {ap ap' : List VArg}
    {ts : List TypeTree} (h : readComps rs n ap = .ok (ts, ap')) : ts.length = n := by
  induction n generalizing rs ap ts with
  | zero =>
    rw [readComps] at h
    obtain ⟨rfl, -⟩ : [] = ts ∧ ap = ap' := by simpa using h
    rfl
  | succ n ih =>
    cases rs with
    | nil => cases h
    | cons r rs =>
      simp only [readComps, bind_eq_ok] at h
      obtain ⟨⟨t, ap₁⟩, -, ⟨us, ap₂⟩, hus, h⟩ := h
      obtain ⟨rfl, rfl⟩ : t :: us = ts ∧ ap₂ = ap' := by simpa using h
      rw [List.length_cons, ih hus]

namespace TypeTree

mutual

/-- The tree read from a text that denotes this one, with the counts taken from the arguments. -/
def reread : TypeTree → List VArg → Except Stop (TypeTree × List VArg)
  | .scalar s, ap => .ok (.scalar s, ap)
  | .str k ref, ap => .ok (.str k ref, ap)
  | .coll k ref _ elem, ap => do
    let (n, ap) ← vaArgInt ap
    let (elem, ap) ← reread elem ap
    .ok (.coll k ref n elem, ap)
  | .range ref elem, ap => do
    let (elem, ap) ← reread elem ap
    .ok (.range ref elem, ap)
  | .tuple ref comps, ap => do
    let (n, ap) ← vaArgInt ap
    if n < 0 then .error .undefined
    else
      let (comps, ap) ← readComps (readers comps) n.toNat ap
      .ok (.tuple ref comps, ap)

def readers : List TypeTree → List (Bool × CompReader)
  | [] => []
  | t :: ts => (t.isTuple, fun ap => reread t ap) :: readers ts

end

section Map

variable {f : ScalarKind → ScalarKind} {g : Bool → Bool}

/-- Reading counts for the components, with readers that agree up to a change of leaves. -/
theorem readComps_map {ts : List TypeTree}
    (hts : ∀ t ∈ ts, ∀ ap, (t.map f g).reread ap = (t.reread ap).map fun r => (r.1.map f g, r.2))
    (n : Nat) (ap : List VArg) :
    readComps (readers (ts.map (map f g))) n ap =
      (readComps (readers ts) n ap).map fun r => (r.1.map (map f g), r.2) := by
  induction n generalizing ts ap with
  | zero =>
    rw [readComps, readComps]
    rfl
  | succ n ih =>
    cases ts with
    | nil => rfl
    | cons t ts =>
      rw [List.map_cons, readers, readers, readComps, readComps, isTuple_map,
        hts t List.mem_cons_self]
      cases t.reread ap with
      | error e => rfl
      | ok r =>
        have hrest : readComps (if t.isTuple then readers (t.map f g :: ts.map (map f g))
              else readers (ts.map (map f g))) n r.2 =
            (readComps (if t.isTuple then readers (t :: ts) else readers ts) n r.2).map
              fun q => (q.1.map (map f g), q.2) := by
          split_ifs
          · exact ih hts r.2
          · exact ih (fun u hu => hts u (List.mem_cons_of_mem t hu)) r.2
        have hcons : ((t.isTuple, fun ap => (t.map f g).reread ap) :: readers (ts.map (map f g))) =
            readers (t.map f g :: ts.map (map f g)) := by rw [readers, isTuple_map]
        have hcons' : ((t.isTuple, fun ap => t.reread ap) :: readers ts) = readers (t :: ts) := by
          rw [readers]
        rw [hcons, hcons']
        show (readComps _ n r.2 >>= _) = Except.map _ (readComps _ n r.2 >>= _)
        rw [hrest]
        cases readComps (if t.isTuple then readers (t :: ts) else readers ts) n r.2 <;> rfl

/-- Reading counts does not depend on the leaves and the marks. -/
theorem reread_map (t : TypeTree) (ap : List VArg) :
    (t.map f g).reread ap = (t.reread ap).map fun r => (r.1.map f g, r.2) := by
  induction t generalizing ap with
  | scalar s => rfl
  | str k ref => rfl
  | coll k ref n elem ih =>
    rw [map, reread, reread]
    cases vaArgInt ap with
    | error e => rfl
    | ok r =>
      simp only [ok_bind, ih]
      cases elem.reread r.2 <;> rfl
  | range ref elem ih =>
    rw [map, reread, reread, ih]
    cases elem.reread ap <;> rfl
  | tuple ref comps ih =>
    rw [map_tuple, reread, reread]
    cases vaArgInt ap with
    | error e => rfl
    | ok r =>
      simp only [ok_bind, readComps_map ih]
      split_ifs
      · rfl
      · cases readComps (readers comps) r.1.toNat r.2 with
        | error e => rfl
        | ok q =>
          simp only [ok_bind, Except.map, map_tuple]

end Map

end TypeTree

/-! ## Characters and separators -/

@[simp] theorem charAt_append (pre : List Char) (c : Char) (post : List Char) :
    charAt (pre ++ c :: post) pre.length = .ok c := by
  simp [charAt]

theorem charAt_length (ts : CStr) : charAt ts ts.length = .ok nul := by
  simp [charAt]

theorem skipSeparators_append {seps : List Char} (hs : ∀ c ∈ seps, isSeparator c = true) {c : Char}
    (hc : isSeparator c = false) (post : List Char) (start : Nat) :
    skipSeparators (seps ++ c :: post) start = start + seps.length := by
  induction seps generalizing start with
  | nil => simp [skipSeparators, hc]
  | cons d seps ih =>
    rw [List.cons_append, skipSeparators, if_pos (hs d List.mem_cons_self),
      ih (fun e he => hs e (List.mem_cons_of_mem d he)), List.length_cons]
    omega

/-! ## Braces -/

/-- One round of the loop changes the counter by a step of the scanner. -/
theorem findEndBraceLoop_succ (ts : CStr) (endchar : Char) (n cur : Nat) (depth : Int) :
    findEndBraceLoop ts endchar (n + 1) cur depth =
      (do
        let c ← charAt ts cur
        let depth := depth + Nesting.step isOpenBrace isCloseBrace c
        if depth = 0 ∧ c = endchar then .ok (some cur)
        else findEndBraceLoop ts endchar n (cur + 1) depth) := by
  rw [findEndBraceLoop]
  congr 1
  funext c
  have hstep : (if isCloseBrace c then (if isOpenBrace c then depth + 1 else depth) - 1
      else (if isOpenBrace c then depth + 1 else depth)) =
      depth + Nesting.step isOpenBrace isCloseBrace c := by
    unfold Nesting.step
    split_ifs <;> omega
  rw [← hstep]

/-- `find_end_brace` is the one-counter scanner over the region. -/
theorem findEndBraceLoop_eq (endchar : Char) (w : List Char) :
    ∀ (pre post : List Char) (depth : Int),
      findEndBraceLoop (pre ++ (w ++ post)) endchar w.length pre.length depth =
        .ok (Nesting.scan isOpenBrace isCloseBrace (· = endchar) w pre.length depth) := by
  induction w with
  | nil => intro pre post depth; rfl
  | cons c w ih =>
    intro pre post depth
    have hrec := ih (pre ++ [c]) post (depth + Nesting.step isOpenBrace isCloseBrace c)
    rw [List.append_assoc, List.singleton_append, List.length_append] at hrec
    rw [List.length_cons, findEndBraceLoop_succ, List.cons_append, charAt_append, ok_bind,
      Nesting.scan]
    simp only [decide_eq_true_eq]
    split_ifs
    · rfl
    · exact hrec

theorem findEndBrace_eq (pre w post : List Char) (endchar : Char) :
    findEndBrace (pre ++ (w ++ post)) endchar pre.length (pre.length + w.length : Nat) =
      .ok (Nesting.scan isOpenBrace isCloseBrace (· = endchar) w pre.length 0) := by
  rw [findEndBrace, Int.toNat_sub, Nat.add_sub_cancel_left, findEndBraceLoop_eq]

/-- The characters from `start` to `stop`. -/
def between (ts : CStr) (start stop : Nat) : List Char := (ts.drop start).take (stop - start)

theorem length_between {ts : CStr} (start : Nat) {stop : Nat} (hstop : stop ≤ ts.length) :
    (between ts start stop).length = stop - start := by
  unfold between
  rw [List.length_take, List.length_drop]
  omega

theorem between_append_drop (ts : CStr) {start stop : Nat} (h : start ≤ stop) :
    between ts start stop ++ ts.drop stop = ts.drop start := by
  have hdrop : ts.drop stop = (ts.drop start).drop (stop - start) := by
    rw [List.drop_drop, Nat.add_sub_cancel' h]
  rw [hdrop]
  exact List.take_append_drop _ _

/-- `find_end_brace` over a region of the string. -/
theorem findEndBrace_between {ts : CStr} {start typestrEnd : Nat} (hle : start ≤ typestrEnd)
    (hend : typestrEnd ≤ ts.length) (endchar : Char) :
    findEndBrace ts endchar start typestrEnd =
      .ok (Nesting.scan isOpenBrace isCloseBrace (· = endchar) (between ts start typestrEnd)
        start 0) := by
  have h := findEndBrace_eq (ts.take start) (between ts start typestrEnd) (ts.drop typestrEnd) endchar
  rwa [between_append_drop ts hle, List.take_append_drop, List.length_take, length_between _ hend,
    min_eq_left (hle.trans hend), Nat.add_sub_cancel' hle] at h

/-- On a brace with a nested body, `find_end_brace` finds the mate under any bound behind it. -/
theorem findEndBrace_wrap {pre body post : List Char} {o c : Char} {typestrEnd : Nat}
    (ho : Nesting.step isOpenBrace isCloseBrace o = 1)
    (hc : Nesting.step isOpenBrace isCloseBrace c = -1)
    (hbody : Nesting.Nested isOpenBrace isCloseBrace Mates body)
    (hlo : pre.length + body.length + 2 ≤ typestrEnd)
    (hhi : typestrEnd ≤ (pre ++ o :: (body ++ c :: post)).length) :
    findEndBrace (pre ++ o :: (body ++ c :: post)) c pre.length typestrEnd =
      .ok (some (pre.length + 1 + body.length)) := by
  have hbehind : pre.length ≤ typestrEnd := by omega
  rw [findEndBrace_between hbehind hhi]
  -- the part of `post` inside the bound
  have hregion : between (pre ++ o :: (body ++ c :: post)) pre.length typestrEnd =
      o :: (body ++ c :: post.take (typestrEnd - (pre.length + body.length + 2))) := by
    obtain ⟨k, rfl⟩ := Nat.exists_eq_add_of_le hlo
    have hk : pre.length + body.length + 2 + k - pre.length = body.length + (k + 1) + 1 := by omega
    unfold between
    rw [List.drop_left, hk, List.take_succ_cons, List.take_length_add_append, List.take_succ_cons,
      Nat.add_sub_cancel_left]
  rw [hregion, Nesting.scan_wrap ho hc (by simp) hbody]

/-! ## Scalars -/

/-- What follows a specifier does not start with a digit. -/
def NoDigit (post : List Char) : Prop := ∀ c ∈ post.head?, ¬('0' ≤ c ∧ c ≤ '9')

theorem NoDigit.cons {c : Char} (h : ¬('0' ≤ c ∧ c ≤ '9')) (post : List Char) :
    NoDigit (c :: post) := by
  intro d hd
  obtain rfl : c = d := by simpa using hd
  exact h

@[simp] theorem charAt_add (pre w : List Char) (k : Nat) :
    charAt (pre ++ w) (pre.length + k) = charAt w k := by
  simp [charAt, List.getElem?_append_right]

@[simp] theorem charAt_cons_zero (c : Char) (w : List Char) : charAt (c :: w) 0 = .ok c := rfl

@[simp] theorem charAt_cons_succ (c : Char) (w : List Char) (k : Nat) :
    charAt (c :: w) (k + 1) = charAt w k := by
  simp [charAt]

/-- The character behind a specifier without suffix is no digit. -/
theorem charAt_zero_of_noDigit {post : List Char} (h : NoDigit post) :
    ∃ c, charAt post 0 = .ok c ∧ ¬('0' ≤ c ∧ c ≤ '9') := by
  cases post with
  | nil => exact ⟨nul, rfl, by decide⟩
  | cons c post => exact ⟨c, rfl, h c (by simp)⟩

theorem parseScalarLenSpec_none {ts : CStr} {pos : Nat} {c : Char}
    (hc : charAtInt ts (pos + 1) = .ok c) (hd : ¬('0' ≤ c ∧ c ≤ '9')) :
    parseScalarLenSpec ts pos = .ok (0, pos) := by
  have hne : ∀ d, ('0' ≤ d ∧ d ≤ '9') → c ≠ d := by rintro d hd' rfl; exact hd hd'
  simp [parseScalarLenSpec, hc, hne '8' (by decide), hne '1' (by decide), hne '3' (by decide),
    hne '6' (by decide), hd]

/-- The parser reads a specifier and stops behind it. -/
theorem parseScalar_spec (pre : List Char) (s : Spec) {post : List Char} (h : NoDigit post)
    (hlen : pre.length + s.text.length < 2 ^ 31) (ref : Bool) :
    parseScalar (pre ++ (s.text ++ post)) ref pre.length =
      .ok ((s.tree ref).datatype, pre.length + s.text.length) := by
  obtain ⟨c, hc, hd⟩ := charAt_zero_of_noDigit h
  -- no cursor gets behind the specifier
  have hread : ∀ k ≤ s.text.length, charAtInt (pre ++ (s.text ++ post)) (pre.length + k) =
      charAt (s.text ++ post) k := fun k hk => by
    rw [charAtInt_of_lt _ (by omega), charAt_add]
  have hfirst := hread 0 (Nat.zero_le _)
  have hend := advance_of_lt hlen
  rw [Nat.add_zero] at hfirst
  cases s with
  | d | ld | lld | date | timeval | version | string | catstring | jsonstring | path =>
    simp [Spec.text] at hread hfirst hend ⊢
    simp [parseScalar, scalarType, Nat.add_assoc, hread, hfirst, hend]
    rfl
  | i | u | lu | llu | f =>
    -- the look-ahead meets a character that is no digit
    simp [Spec.text] at hread hfirst hend ⊢
    simp [parseScalar, scalarType, Nat.add_assoc, hread, hfirst]
    rw [parseScalarLenSpec_none (c := c) (by simp [Nat.add_assoc, hread, hc]) hd]
    simp [Nat.add_assoc, hend]
    rfl
  | i8 | i16 | i32 | i64 | u8 | u16 | u32 | u64 | f32 | f64 =>
    simp [Spec.text] at hread hfirst hend ⊢
    simp [parseScalar, scalarType, parseScalarLenSpec, Nat.add_assoc, hread, hfirst, hend]
    rfl

section Shift

variable {pre w : List Char} {p q : Nat}

/-- What is read behind a stretch of text is read without it. -/
theorem charAtInt_shift {c : Char} (h : charAtInt (pre ++ w) (pre.length + p) = .ok c) :
    charAtInt w p = .ok c := by
  obtain ⟨hlt, hc⟩ := charAtInt_eq_ok.mp h
  rw [charAt_add] at hc
  exact charAtInt_eq_ok.mpr ⟨by omega, hc⟩

theorem parseScalarLenSpec_shift {len : Int}
    (h : parseScalarLenSpec (pre ++ w) (pre.length + p) = .ok (len, q)) :
    ∃ k, q = pre.length + k ∧ parseScalarLenSpec w p = .ok (len, k) := by
  unfold parseScalarLenSpec at h ⊢
  obtain ⟨c, hc, h⟩ := bind_eq_ok.mp h
  rw [charAtInt_shift hc, ok_bind]
  by_cases h8 : c = '8'
  · rw [if_pos h8] at h ⊢
    obtain ⟨rfl, rfl⟩ := Prod.mk.inj (Except.ok.inj h)
    exact ⟨p + 1, rfl, rfl⟩
  rw [if_neg h8] at h ⊢
  by_cases hfirst : c = '1' ∨ c = '3' ∨ c = '6'
  · rw [if_pos hfirst] at h ⊢
    obtain ⟨d, hd, h⟩ := bind_eq_ok.mp h
    rw [charAtInt_shift hd, ok_bind]
    dsimp only at h ⊢
    split_ifs at h ⊢ <;>
      (obtain ⟨rfl, rfl⟩ := Prod.mk.inj (Except.ok.inj h); exact ⟨_, rfl, rfl⟩)
  · rw [if_neg hfirst] at h ⊢
    rw [ok_bind] at h ⊢
    dsimp only at h ⊢
    split_ifs at h ⊢ <;>
      (obtain ⟨rfl, rfl⟩ := Prod.mk.inj (Except.ok.inj h); exact ⟨_, rfl, rfl⟩)

theorem scalarType_shift {isLong isLonglong ref : Bool} {c : Char} {t : AdiakDatatype}
    (h : scalarType (pre ++ w) isLong isLonglong ref (pre.length + p) c = .ok (t, q)) :
    ∃ k, q = pre.length + k ∧ scalarType w isLong isLonglong ref p c = .ok (t, k) := by
  unfold scalarType at h ⊢
  split at h
  iterate 1
    · obtain ⟨rfl, rfl⟩ := Prod.mk.inj (Except.ok.inj h)
      exact ⟨p, rfl, rfl⟩
  iterate 3
    · obtain ⟨⟨len, pos⟩, hlen, h⟩ := bind_eq_ok.mp h
      obtain ⟨k, rfl, hk⟩ := parseScalarLenSpec_shift hlen
      simp only [hk, ok_bind]
      dsimp only at h
      split at h <;> first
        | (obtain ⟨rfl, rfl⟩ := Prod.mk.inj (Except.ok.inj h); exact ⟨k, rfl, rfl⟩)
        | cases h
  iterate 7
    · obtain ⟨rfl, rfl⟩ := Prod.mk.inj (Except.ok.inj h)
      exact ⟨p, rfl, rfl⟩
  · cases h

/-- A specifier behind a stretch of text is read as it is without it. -/
theorem parseScalar_shift {ref : Bool} {t : AdiakDatatype}
    (h : parseScalar (pre ++ w) ref (pre.length + p) = .ok (t, q)) :
    ∃ k, q = pre.length + k ∧ q < 2 ^ 31 ∧ parseScalar w ref p = .ok (t, k) := by
  have hstep : ∀ {P : Prop} [Decidable P] (a : Nat), (if P then pre.length + a + 1 else pre.length + a) =
      pre.length + if P then a + 1 else a := fun a => by split_ifs <;> rfl
  unfold parseScalar at h ⊢
  obtain ⟨c₁, hc₁, h⟩ := bind_eq_ok.mp h
  obtain ⟨c₂, hc₂, h⟩ := bind_eq_ok.mp h
  obtain ⟨c₃, hc₃, h⟩ := bind_eq_ok.mp h
  obtain ⟨⟨u, pos⟩, hu, h⟩ := bind_eq_ok.mp h
  obtain ⟨cur, hcur, h⟩ := bind_eq_ok.mp h
  obtain ⟨hlt, rfl⟩ := advance_eq_ok.mp hcur
  obtain ⟨rfl, rfl⟩ := Prod.mk.inj (Except.ok.inj h)
  simp only [hstep] at hc₂ hc₃ hu
  obtain ⟨k, rfl, hk⟩ := scalarType_shift hu
  rw [charAtInt_shift hc₁, ok_bind]
  dsimp only
  rw [charAtInt_shift hc₂, ok_bind]
  rw [charAtInt_shift hc₃, ok_bind, hk, ok_bind]
  dsimp only
  rw [advance_of_lt (by omega)]
  exact ⟨k + 1, rfl, hlt, rfl⟩

end Shift

/-! ## Expressions -/

namespace TypeExpr

/-- The parser skips what stands in front of an expression and branches on what follows. -/
theorem parse_front (pre : List Char) (sep : Sep) (amp : Bool) {c : Char} {w : List Char}
    (hsep : isSeparator c = false) (hamp : c ≠ '&')
    (hfits : pre.length + (front sep amp).length < 2 ^ 31) {typestrEnd : Int}
    (hne : (pre.length : Int) ≠ typestrEnd) (depth : Nat) (ref : Bool) (ap : List VArg) (new : Nat) :
    parseTypestrHelper (pre ++ (front sep amp ++ c :: w)) (depth + 1) pre.length typestrEnd ref ap
        new =
      parseBranch (parseTypestrHelper (pre ++ (front sep amp ++ c :: w)) depth)
        (pre ++ (front sep amp ++ c :: w)) typestrEnd (ref || amp) ap new
        (pre.length + (front sep amp).length) c := by
  have hread : ∀ k ≤ (front sep amp).length, charAtInt (pre ++ (front sep amp ++ c :: w))
      (pre.length + k) = charAt (front sep amp ++ c :: w) k := fun k hk => by
    rw [charAtInt_of_lt _ (by omega), charAt_add]
  rw [parseTypestrHelper, if_neg hne, List.drop_left]
  cases amp with
  | false =>
    simp [front] at hread
    simp [front, skipSeparators_append sep.isSep hsep, hread, hamp]
  | true =>
    simp [front] at hread
    simp [front, skipSeparators_append sep.isSep, show isSeparator '&' = false from rfl,
      Nat.add_assoc, hread]

theorem not_digit_of_isSeparator {c : Char} (h : isSeparator c = true) :
    ¬('0' ≤ c ∧ c ≤ '9') := by
  rintro ⟨hlo, -⟩
  have h48 : 48 ≤ c.toNat := UInt32.le_iff_toNat_le.mp hlo
  have hc : c = ' ' ∨ c = ',' ∨ c.toNat ≤ 13 := by
    simp only [isSeparator, isSpace, Bool.or_eq_true, Bool.and_eq_true, decide_eq_true_eq] at h
    tauto
  rcases hc with rfl | rfl | hc
  · exact absurd h48 (by decide)
  · exact absurd h48 (by decide)
  · omega

theorem noDigit_front (sep : Sep) (amp : Bool) {c : Char} (hc : ¬('0' ≤ c ∧ c ≤ '9'))
    (w : List Char) : NoDigit (front sep amp ++ c :: w) := by
  unfold front
  rcases sep with ⟨_ | ⟨d, ds⟩, hsep⟩
  · cases amp
    · exact .cons hc w
    · exact .cons (by decide) (c :: w)
  · exact .cons (not_digit_of_isSeparator (hsep d List.mem_cons_self)) _

/-- No typestring starts with a digit. -/
theorem noDigit_text (e : TypeExpr) (post : List Char) : NoDigit (e.text ++ post) := by
  cases e with
  | spec sep amp s =>
    rw [text, List.append_assoc]; exact noDigit_front sep amp (by decide) _
  | coll sep amp k n elem =>
    rw [text, List.append_assoc]; exact noDigit_front sep amp (by cases k <;> decide) _
  | range sep amp elem =>
    rw [text, List.append_assoc]; exact noDigit_front sep amp (by decide) _
  | tuple sep amp comps =>
    rw [text, List.append_assoc]; exact noDigit_front sep amp (by decide) _

theorem noDigit_texts (es : List TypeExpr) (post : List Char) :
    NoDigit (texts es ++ ')' :: post) := by
  cases es with
  | nil => exact .cons (by decide) post
  | cons e es => rw [texts, List.append_assoc]; exact noDigit_text e _

/-- What the parser is to do on the text of `e`. -/
def Parses (e : TypeExpr) : Prop :=
  ∀ (pre post : List Char) (typestrEnd depth : Nat) (ref : Bool) (ap : List VArg) (new : Nat),
    NoDigit post → pre.length + e.text.length < 2 ^ 31 → pre.length + e.text.length ≤ typestrEnd →
    typestrEnd ≤ (pre ++ (e.text ++ post)).length → e.depth < depth →
    parseTypestrHelper (pre ++ (e.text ++ post)) depth pre.length typestrEnd ref ap new =
      (do
        let (t, ap) ← (e.tree ref).reread ap
        .ok (t.datatype, ap,
          if (e.tree ref).isTuple then new else pre.length + e.text.length))

/-- The component loop: at a component that is a tuple it stays where it is. -/
theorem parseComponents_eq {es : List TypeExpr} (hes : ∀ e ∈ es, Parses e) {depth : Nat}
    (hdepth : depths es < depth) (post : List Char) (ref : Bool) (n : Nat) :
    ∀ (pre : List Char) (ap : List VArg), pre.length + (texts es).length < 2 ^ 31 →
      parseComponents (parseTypestrHelper (pre ++ (texts es ++ ')' :: post)) depth)
          (pre.length + (texts es).length) ref n pre.length ap =
        (do
          let (ts, ap) ← readComps (TypeTree.readers (trees es ref)) n ap
          .ok (ts.map TypeTree.datatype, ap)) := by
  induction n generalizing es with
  | zero => intro pre ap _; simp [parseComponents, readComps]
  | succ n ih =>
    intro pre ap hfits
    cases es with
    | nil =>
      obtain ⟨depth, rfl⟩ : ∃ d, depth = d + 1 := ⟨depth - 1, by omega⟩
      simp [parseComponents, texts, parseTypestrHelper, trees, TypeTree.readers, readComps]
    | cons e es =>
      have hlen : (texts (e :: es)).length = e.text.length + (texts es).length := by
        rw [texts, List.length_append]
      have he := hes e List.mem_cons_self pre (texts es ++ ')' :: post)
        (pre.length + (texts (e :: es)).length) depth ref ap pre.length (noDigit_texts es post)
        (by omega) (by omega) (by simp [texts]) (by simp [depths] at hdepth; omega)
      have htext : texts (e :: es) ++ ')' :: post = e.text ++ (texts es ++ ')' :: post) := by
        rw [texts, List.append_assoc]
      rw [parseComponents, htext, he, trees, TypeTree.readers, readComps]
      cases hread : (e.tree ref).reread ap with
      | error err => rfl
      | ok r =>
        obtain ⟨t, ap'⟩ := r
        simp only [ok_bind]
        cases htuple : (e.tree ref).isTuple with
        | true =>
          have hrec := ih hes hdepth pre ap' hfits
          rw [htext, trees, TypeTree.readers, htuple] at hrec
          simp only [if_true]
          rw [hrec]
          cases readComps _ n ap' <;> rfl
        | false =>
          have hrec := ih (fun e' he' => hes e' (List.mem_cons_of_mem e he'))
            (by simp [depths] at hdepth; omega) (pre ++ e.text) ap'
            (by rw [List.length_append]; omega)
          rw [List.append_assoc, List.length_append] at hrec
          simp only [Bool.false_eq_true, if_false, texts, List.length_append, ← Nat.add_assoc]
          rw [hrec]
          cases readComps _ n ap' <;> rfl

/-- `find_end_brace` on a container in a text. -/
theorem findEndBrace_text {pre front body post : List Char} {o c : Char} {typestrEnd : Nat}
    (ho : Nesting.step isOpenBrace isCloseBrace o = 1)
    (hc : Nesting.step isOpenBrace isCloseBrace c = -1)
    (hbody : Nesting.Nested isOpenBrace isCloseBrace Mates body)
    (hlo : pre.length + (front ++ o :: (body ++ [c])).length ≤ typestrEnd)
    (hhi : typestrEnd ≤ (pre ++ (front ++ o :: (body ++ c :: post))).length) :
    findEndBrace (pre ++ (front ++ o :: (body ++ c :: post))) c (pre.length + front.length)
      typestrEnd = .ok (some (pre.length + front.length + 1 + body.length)) := by
  simp only [List.length_append, List.length_cons, List.length_nil] at hlo hhi
  have hlo' : (pre ++ front).length + body.length + 2 ≤ typestrEnd := by
    simp only [List.length_append]; omega
  have hhi' : typestrEnd ≤ ((pre ++ front) ++ o :: (body ++ c :: post)).length := by
    simp only [List.length_append, List.length_cons]; omega
  have h := findEndBrace_wrap ho hc hbody hlo' hhi'
  rwa [List.append_assoc, List.length_append] at h

/-- The body of a container, as the parser's recursive call sees it. -/
theorem parse_body {e : TypeExpr} (ih : Parses e) (pre front : List Char) {o c : Char}
    (hc : ¬('0' ≤ c ∧ c ≤ '9')) (post : List Char)
    (hfits : pre.length + front.length + 1 + e.text.length < 2 ^ 31) {depth : Nat}
    (hdepth : e.depth < depth) (ref : Bool) (ap : List VArg) (new : Nat) :
    parseTypestrHelper (pre ++ (front ++ o :: (e.text ++ c :: post))) depth
        (pre.length + front.length + 1) (pre.length + front.length + 1 + e.text.length : Nat) ref ap
        new =
      (do
        let (t, ap) ← (e.tree ref).reread ap
        .ok (t.datatype, ap,
          if (e.tree ref).isTuple then new
          else pre.length + front.length + 1 + e.text.length)) := by
  have h := ih (pre ++ (front ++ [o])) (c :: post)
    (pre.length + front.length + 1 + e.text.length) depth ref ap new (.cons hc post)
    (by simp; omega) (by simp [Nat.add_assoc]) (by simp; omega) hdepth
  simpa [Nat.add_assoc] using h

theorem reread_spec (s : Spec) (ref : Bool) (ap : List VArg) :
    (s.tree ref).reread ap = .ok (s.tree ref, ap) ∧ (s.tree ref).isTuple = false := by
  cases s <;> exact ⟨rfl, rfl⟩

/-- The branches for `{` and `[` are one branch. -/
theorem parseBranch_coll (self : SelfCall) (ts : CStr) (k : CollKind) (typestrEnd : Int)
    (ref : Bool) (ap : List VArg) (new cur : Nat) :
    parseBranch self ts typestrEnd ref ap new cur k.openBrace =
      (do
        match ← findEndBrace ts k.closeBrace cur typestrEnd with
        | none => .error .null
        | some endBrace =>
          let (numElements, ap) ← vaArgInt ap
          let (sub, ap, _) ← self (cur + 1) endBrace ref ap cur
          .ok (.node (containerNode k.dtype ref numElements) [sub], ap, endBrace + 1)) := by
  cases k <;> rfl

/-- The parser on the text of an expression: the position and the bound do not matter, only the
counts do. -/
theorem parse_text (e : TypeExpr) : Parses e := by
  induction e with
  | spec sep amp s =>
    intro pre post typestrEnd depth ref ap new hpost hfits hend _ hdepth
    obtain ⟨depth, rfl⟩ : ∃ d, depth = d + 1 := ⟨depth - 1, by omega⟩
    simp only [text, List.length_append, List.length_cons] at hfits hend
    have hscalar := parseScalar_spec (pre ++ (front sep amp ++ ['%'])) s hpost (by simp; omega)
      (ref || amp)
    simp only [List.append_assoc, List.singleton_append, List.length_append, List.length_singleton,
      ← Nat.add_assoc] at hscalar
    obtain ⟨hread, htuple⟩ := reread_spec s (ref || amp) ap
    rw [text, List.append_assoc, List.cons_append,
      parse_front pre sep amp rfl (by decide) (by omega) (by omega)]
    simp only [parseBranch, tree, hscalar, hread, htuple, ok_bind]
    simp
    omega
  | coll sep amp k n elem ih =>
    intro pre post typestrEnd depth ref ap new hpost hfits hend hbound hdepth
    obtain ⟨depth, rfl⟩ : ∃ d, depth = d + 1 := ⟨depth - 1, by omega⟩
    simp only [text, List.append_assoc, List.cons_append, List.nil_append] at hbound ⊢
    rw [text] at hfits hend
    have hbrace := findEndBrace_text (by cases k <;> rfl) (by cases k <;> rfl) (nested_text elem)
      hend hbound
    simp only [List.length_append, List.length_cons] at hfits hend
    have hbody := parse_body ih pre (front sep amp) (o := k.openBrace) (c := k.closeBrace)
      (by cases k <;> decide) post (by omega) (by simp [TypeExpr.depth] at hdepth; omega) (ref || amp)
    rw [parse_front pre sep amp (by cases k <;> rfl) (by cases k <;> decide) (by omega) (by omega),
      parseBranch_coll, hbrace, tree, TypeTree.reread]
    cases hcount : vaArgInt ap with
    | error err => simp
    | ok r =>
      simp only [ok_bind, hbody]
      cases (elem.tree (ref || amp)).reread r.2 with
      | error err => simp
      | ok q => simp [TypeTree.datatype, TypeTree.isTuple]; omega
  | range sep amp elem ih =>
    intro pre post typestrEnd depth ref ap new hpost hfits hend hbound hdepth
    obtain ⟨depth, rfl⟩ : ∃ d, depth = d + 1 := ⟨depth - 1, by omega⟩
    simp only [text, List.append_assoc, List.cons_append, List.nil_append] at hbound ⊢
    rw [text] at hfits hend
    have hbrace := findEndBrace_text rfl rfl (nested_text elem) hend hbound
    simp only [List.length_append, List.length_cons] at hfits hend
    have hbody := parse_body ih pre (front sep amp) (o := '<') (c := '>') (by decide) post
      (by omega) (by simp [TypeExpr.depth] at hdepth; omega) (ref || amp)
    rw [parse_front pre sep amp rfl (by decide) (by omega) (by omega), tree, TypeTree.reread]
    simp only [parseBranch, parseRange, hbrace, hbody, ok_bind]
    cases (elem.tree (ref || amp)).reread ap with
    | error err => simp
    | ok q => simp [TypeTree.datatype, TypeTree.isTuple]; omega
  | tuple sep amp comps ih =>
    intro pre post typestrEnd depth ref ap new hpost hfits hend hbound hdepth
    obtain ⟨depth, rfl⟩ : ∃ d, depth = d + 1 := ⟨depth - 1, by omega⟩
    simp only [text, List.append_assoc, List.cons_append, List.nil_append] at hbound ⊢
    rw [text] at hfits hend
    have hbrace := findEndBrace_text rfl rfl (nested_texts comps) hend hbound
    have hcomps := parseComponents_eq ih (by simp [TypeExpr.depth] at hdepth; omega) post
      (ref || amp)
    simp only [List.length_append, List.length_cons] at hfits hend
    rw [parse_front pre sep amp rfl (by decide) (by omega) (by omega), tree, TypeTree.reread]
    simp only [parseBranch, parseTuple, hbrace, ok_bind]
    cases hcount : vaArgInt ap with
    | error err => simp
    | ok r =>
      have hloop := hcomps r.1.toNat (pre ++ (front sep amp ++ ['('])) r.2 (by simp; omega)
      simp only [List.append_assoc, List.cons_append, List.nil_append, List.length_append,
        List.length_cons, List.length_nil, Nat.zero_add, ← Nat.add_assoc] at hloop
      by_cases hneg : r.1 < 0
      · simp [hneg]
      · simp [hneg, hloop]
        cases hread : readComps (TypeTree.readers (trees comps (ref || amp))) r.1.toNat r.2 with
        | error err => simp
        | ok q =>
          have hlen : (q.1.length : Int) = r.1 := by
            have hq : q.1.length = r.1.toNat := length_readComps hread
            omega
          simp [TypeTree.datatype, TypeTree.datatypes_eq_map, TypeTree.isTuple, hlen]

theorem depth_lt (e : TypeExpr) : e.depth < e.text.length := by
  induction e with
  | spec sep amp s => simp [depth, text]
  | coll sep amp k n elem ih => simp [depth, text]; omega
  | range sep amp elem ih => simp [depth, text]; omega
  | tuple sep amp comps ih =>
    have hcomps : depths comps ≤ (texts comps).length := by
      clear sep amp
      induction comps with
      | nil => simp [depths]
      | cons e es ihes =>
        have he := ih e List.mem_cons_self
        have hes := ihes fun e' he' => ih e' (List.mem_cons_of_mem e he')
        simp [depths, texts]
        omega
    simp [depth, text]
    omega

theorem cStr_text (e : TypeExpr) : cStr e.text = e.text :=
  List.takeWhile_eq_self_iff.mpr fun c hc => by
    have hne : c ≠ nul := fun h => nul_notMem_text e (h ▸ hc)
    simpa using hne

/-- `parse_typestr` on the text of an expression. -/
theorem parseTypestr_text (e : TypeExpr) (hfits : e.text.length < 2 ^ 31) (ap : List VArg) :
    parseTypestr e.text ap =
      (do
        let (t, ap) ← (e.tree false).reread ap
        .ok (t.datatype, ap)) := by
  have h := parse_text e [] [] e.text.length (e.text.length + 1) false ap 0
    (by intro c hc; cases hc) (by simp; omega) (by simp) (by simp) (by have := depth_lt e; omega)
  rw [List.append_nil, List.nil_append, List.length_nil] at h
  rw [parseTypestr_of_lt (by rwa [cStr_text]), cStr_text, h]
  cases (e.tree false).reread ap <;> rfl

end TypeExpr

end Adiak
