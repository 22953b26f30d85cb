import Adiak.Namevalue
import Adiak.Typestring.Reread

/-!
# The two readings of a typestring

`toplevel_type` chooses the member of `adiak_value_t` that `adiak_namevalue` writes, the datatype of
`parse_typestr` the member that readers read.

1. `parseScalar_toplevel` compares the two readings of a specifier.
2. `parseTypestr_eq_ok` brings what the parser accepts into the shape `toplevel_type` sees.
3. `namevalue_toplevel_iff`: they agree unless a size suffix stands behind `%lu` or `%llu`.
-/

namespace Adiak

/-! ## Specifiers -/

/-- The bytes of the size suffix at the start of a text; `0` without one. -/
def suffixBytes : List Char → Nat
  | '8' :: _ => 1
  | '1' :: '6' :: _ => 2
  | '3' :: '2' :: _ => 4
  | '6' :: '4' :: _ => 8
  | _ => 0

theorem suffixBytes_cases (cs : List Char) : suffixBytes cs = 0 ∨ suffixBytes cs = 1 ∨
    suffixBytes cs = 2 ∨ suffixBytes cs = 4 ∨ suffixBytes cs = 8 := by
  unfold suffixBytes
  split <;> simp

theorem suffixBytes_eq_zero {c : Char} {cs : List Char} (h8 : c ≠ '8')
    (h16 : ∀ l, c = '1' → cs ≠ '6' :: l) (h32 : ∀ l, c = '3' → cs ≠ '2' :: l)
    (h64 : ∀ l, c = '6' → cs ≠ '4' :: l) : suffixBytes (c :: cs) = 0 := by
  unfold suffixBytes
  split <;> simp_all

/-- Behind `%`: `lu` with a size suffix, or `llu` with one other than `64`. -/
def LongSuffix : List Char → Prop
  | 'l' :: 'u' :: cs => suffixBytes cs ≠ 0
  | 'l' :: 'l' :: 'u' :: cs => suffixBytes cs ≠ 0 ∧ suffixBytes cs ≠ 8
  | _ => False

/-- What `parse_scalar_len_spec` returns. -/
theorem parseScalarLenSpec_cons {u : Char} {cs : List Char} {len : Int} {pos : Nat}
    (h : parseScalarLenSpec (u :: cs) 0 = .ok (len, pos)) :
    len = -1 ∨ len = suffixBytes cs := by
  cases cs with
  | nil =>
    obtain ⟨rfl, -⟩ : 0 = len ∧ 0 = pos := by
      simpa [parseScalarLenSpec, charAtInt_of_lt, charAt, nul] using h
    exact .inr rfl
  | cons c cs =>
    unfold parseScalarLenSpec at h
    rw [charAtInt_of_lt _ (by decide), charAtInt_of_lt _ (by decide)] at h
    simp only [Nat.zero_add, charAt_cons_succ, charAt_cons_zero, ok_bind] at h
    by_cases h8 : c = '8'
    · subst h8
      obtain ⟨rfl, -⟩ : 1 = len ∧ 1 = pos := by simpa using h
      exact .inr rfl
    rw [if_neg h8] at h
    have hrest : (if '0' ≤ c ∧ c ≤ '9' then Except.ok (-1, 0) else Except.ok (0, 0)) =
        Except.ok (ε := Stop) (len, pos) → len = -1 ∨ len = 0 := by
      split_ifs
      · rintro ⟨⟩; exact .inl rfl
      · rintro ⟨⟩; exact .inr rfl
    cases cs with
    | nil =>
      have hzero : suffixBytes [c] = 0 := suffixBytes_eq_zero h8 (by simp) (by simp) (by simp)
      rw [hzero]
      exact hrest (by simpa [charAt, nul] using h)
    | cons d cs =>
      simp only [charAt_cons_zero] at h
      by_cases h16 : c = '1' ∧ d = '6'
      · obtain ⟨rfl, rfl⟩ := h16
        obtain ⟨rfl, -⟩ : 2 = len ∧ 2 = pos := by simpa using h
        exact .inr rfl
      by_cases h32 : c = '3' ∧ d = '2'
      · obtain ⟨rfl, rfl⟩ := h32
        obtain ⟨rfl, -⟩ : 4 = len ∧ 2 = pos := by simpa using h
        exact .inr rfl
      by_cases h64 : c = '6' ∧ d = '4'
      · obtain ⟨rfl, rfl⟩ := h64
        obtain ⟨rfl, -⟩ : 8 = len ∧ 2 = pos := by simpa using h
        exact .inr rfl
      have hzero : suffixBytes (c :: d :: cs) = 0 := by
        refine suffixBytes_eq_zero h8 ?_ ?_ ?_
        · rintro l rfl h; exact h16 ⟨rfl, by simpa using congrArg List.head? h⟩
        · rintro l rfl h; exact h32 ⟨rfl, by simpa using congrArg List.head? h⟩
        · rintro l rfl h; exact h64 ⟨rfl, by simpa using congrArg List.head? h⟩
      rw [hzero]
      refine hrest ?_
      by_cases hd : c = '1' ∨ c = '3' ∨ c = '6'
      · rwa [if_pos hd, ok_bind, if_neg h16, if_neg h32, if_neg h64] at h
      · obtain ⟨h1, h3, h6⟩ : c ≠ '1' ∧ c ≠ '3' ∧ c ≠ '6' := by simpa using hd
        rwa [if_neg hd, if_neg fun h => h1 h.1, if_neg fun h => h3 h.1,
          if_neg fun h => h6 h.1] at h

/-- The type of an unsigned specifier, by its prefix and its suffix. -/
theorem scalarType_unsigned (pre : List Char) {cs : List Char} {isLong isLonglong ref : Bool}
    {t : AdiakDatatype} {n : Nat}
    (h : scalarType (pre ++ 'u' :: cs) isLong isLonglong ref pre.length 'u' = .ok (t, n)) :
    (∃ p, parseScalarLenSpec ('u' :: cs) 0 = .ok ((suffixBytes cs : Int), p)) ∧
      t.dtype =
        if suffixBytes cs = 0 then
          if isLong then if isLonglong then .ulonglong else .ulong else .uint
        else if suffixBytes cs = 8 then .ulonglong else .uint := by
  obtain ⟨k, -, h⟩ := scalarType_shift (p := 0) h
  unfold scalarType at h
  cases hlen : parseScalarLenSpec ('u' :: cs) 0 with
  | error e => rw [hlen] at h; cases h
  | ok r =>
    obtain ⟨len, p⟩ := r
    rw [hlen] at h
    have hlen' := parseScalarLenSpec_cons hlen
    rcases hlen' with rfl | rfl
    · cases h
    · refine ⟨⟨p, rfl⟩, ?_⟩
      rcases suffixBytes_cases cs with hs | hs | hs | hs | hs
      · rw [hs] at h ⊢
        obtain ⟨rfl, -⟩ := Prod.mk.inj (Except.ok.inj h)
        cases isLong <;> cases isLonglong <;> rfl
      all_goals
        rw [hs] at h ⊢
        obtain ⟨rfl, -⟩ := Prod.mk.inj (Except.ok.inj h)
        rfl

/-- The type of a signed specifier with a suffix. -/
theorem scalarType_signed {cs : List Char} {isLong isLonglong ref : Bool} {t : AdiakDatatype}
    {n : Nat} (h : scalarType ('i' :: cs) isLong isLonglong ref 0 'i' = .ok (t, n)) :
    (∃ p, parseScalarLenSpec ('i' :: cs) 0 = .ok ((suffixBytes cs : Int), p)) ∧
      t.dtype = if suffixBytes cs = 8 then .longlong else .int := by
  unfold scalarType at h
  cases hlen : parseScalarLenSpec ('i' :: cs) 0 with
  | error e => rw [hlen] at h; cases h
  | ok r =>
    obtain ⟨len, p⟩ := r
    rw [hlen] at h
    rcases parseScalarLenSpec_cons hlen with rfl | rfl
    · cases h
    · refine ⟨⟨p, rfl⟩, ?_⟩
      rcases suffixBytes_cases cs with hs | hs | hs | hs | hs
      all_goals
        rw [hs] at h ⊢
        obtain ⟨rfl, -⟩ := Prod.mk.inj (Except.ok.inj h)
        rfl

/-- A floating-point specifier is a `double` whatever its suffix. -/
theorem scalarType_floating {cs : List Char} {isLong isLonglong ref : Bool} {t : AdiakDatatype}
    {n : Nat} (h : scalarType ('f' :: cs) isLong isLonglong ref 0 'f' = .ok (t, n)) :
    t.dtype = .double := by
  unfold scalarType at h
  cases hlen : parseScalarLenSpec ('f' :: cs) 0 with
  | error e => rw [hlen] at h; cases h
  | ok r =>
    obtain ⟨len, p⟩ := r
    rw [hlen] at h
    rcases parseScalarLenSpec_cons hlen with rfl | rfl
    · cases h
    · rcases suffixBytes_cases cs with hs | hs | hs | hs | hs
      all_goals rw [hs] at h
      · obtain ⟨rfl, -⟩ := Prod.mk.inj (Except.ok.inj h); rfl
      · cases h
      · cases h
      · obtain ⟨rfl, -⟩ := Prod.mk.inj (Except.ok.inj h); rfl
      · obtain ⟨rfl, -⟩ := Prod.mk.inj (Except.ok.inj h); rfl

/-- `parseScalar` without a prefix. -/
theorem parseScalar_eq_ok {c : Char} {cs : List Char} (hc : c ≠ 'l') {ref : Bool}
    {t : AdiakDatatype} {n : Nat} (h : parseScalar (c :: cs) ref 0 = .ok (t, n)) :
    ∃ k, scalarType (c :: cs) false false ref 0 c = .ok (t, k) := by
  obtain ⟨⟨u, k⟩, hu, hn⟩ : ∃ r, scalarType (c :: cs) false false ref 0 c = .ok r ∧
      (do let cur ← advance (r.2 + 1); .ok (r.1, cur)) = Except.ok (ε := Stop) (t, n) := by
    simpa [parseScalar, charAtInt_of_lt, bind_eq_ok, hc] using h
  obtain ⟨cur, -, hn⟩ := bind_eq_ok.mp hn
  obtain ⟨rfl, -⟩ := Prod.mk.inj (Except.ok.inj hn)
  exact ⟨k, hu⟩

theorem parseScalar_lu {cs : List Char} {ref : Bool} {t : AdiakDatatype} {n : Nat}
    (h : parseScalar ('l' :: 'u' :: cs) ref 0 = .ok (t, n)) :
    t.dtype = if suffixBytes cs = 0 then .ulong
      else if suffixBytes cs = 8 then .ulonglong else .uint := by
  obtain ⟨⟨u, k⟩, hu, hn⟩ : ∃ r, scalarType (['l'] ++ 'u' :: cs) true false ref ['l'].length 'u' = .ok r ∧
      (do let cur ← advance (r.2 + 1); .ok (r.1, cur)) = Except.ok (ε := Stop) (t, n) := by
    simpa [parseScalar, charAtInt_of_lt, bind_eq_ok] using h
  obtain ⟨cur, -, hn⟩ := bind_eq_ok.mp hn
  obtain ⟨rfl, -⟩ := Prod.mk.inj (Except.ok.inj hn)
  exact (scalarType_unsigned _ hu).2

theorem parseScalar_llu {cs : List Char} {ref : Bool} {t : AdiakDatatype} {n : Nat}
    (h : parseScalar ('l' :: 'l' :: 'u' :: cs) ref 0 = .ok (t, n)) :
    t.dtype = if suffixBytes cs = 0 then .ulonglong
      else if suffixBytes cs = 8 then .ulonglong else .uint := by
  obtain ⟨⟨u, k⟩, hu, hn⟩ : ∃ r,
      scalarType (['l', 'l'] ++ 'u' :: cs) true true ref ['l', 'l'].length 'u' = .ok r ∧
        (do let cur ← advance (r.2 + 1); .ok (r.1, cur)) = Except.ok (ε := Stop) (t, n) := by
    simpa [parseScalar, charAtInt_of_lt, bind_eq_ok] using h
  obtain ⟨cur, -, hn⟩ := bind_eq_ok.mp hn
  obtain ⟨rfl, -⟩ := Prod.mk.inj (Except.ok.inj hn)
  exact (scalarType_unsigned _ hu).2

/-- Behind such a prefix, a suffix makes the type. -/
theorem dtype_of_longSuffix {cs : List Char} {ref : Bool} {t : AdiakDatatype} {n : Nat}
    (h : parseScalar cs ref 0 = .ok (t, n)) (hsuffix : LongSuffix cs) :
    t.dtype = .uint ∨ t.dtype = .ulonglong := by
  unfold LongSuffix at hsuffix
  split at hsuffix
  · rw [parseScalar_lu h, if_neg hsuffix]
    split_ifs
    · exact .inr rfl
    · exact .inl rfl
  · rw [parseScalar_llu h, if_neg hsuffix.1]
    split_ifs
    · exact .inr rfl
    · exact .inl rfl
  · exact hsuffix.elim

/-- The type of a specifier and the type `toplevel_type` gives it. -/
theorem parseScalar_toplevel {cs : List Char} {ref : Bool} {t : AdiakDatatype} {n : Nat}
    {top : AdiakType} (h : parseScalar cs ref 0 = .ok (t, n))
    (htop : toplevelScalar cs = .ok top) (hset : top ≠ .unset) :
    top = t.dtype ↔ ¬ LongSuffix cs := by
  unfold toplevelScalar at htop
  split at htop
  · -- `%ld`
    obtain rfl := Except.ok.inj htop
    obtain ⟨rfl, -⟩ : baseLong = t ∧ 2 = n := by
      simpa [parseScalar, charAtInt_of_lt, scalarType, advance_of_lt] using h
    exact iff_of_true rfl id
  · -- `%lu`
    rename_i cs
    obtain rfl := Except.ok.inj htop
    rw [parseScalar_lu h]
    rcases suffixBytes_cases cs with hs | hs | hs | hs | hs <;> simp [LongSuffix, hs]
  · -- `%lld`
    obtain rfl := Except.ok.inj htop
    obtain ⟨rfl, -⟩ : baseLonglong = t ∧ 3 = n := by
      simpa [parseScalar, charAtInt_of_lt, scalarType, advance_of_lt] using h
    exact iff_of_true rfl id
  · -- `%llu`
    rename_i cs
    obtain rfl := Except.ok.inj htop
    rw [parseScalar_llu h]
    rcases suffixBytes_cases cs with hs | hs | hs | hs | hs <;> simp [LongSuffix, hs]
  · -- `%d`
    obtain rfl := Except.ok.inj htop
    obtain ⟨k, hk⟩ := parseScalar_eq_ok (by decide) h
    obtain ⟨rfl, -⟩ := Prod.mk.inj (Except.ok.inj hk)
    exact iff_of_true rfl id
  · -- `%i`
    rename_i cs
    obtain ⟨k, hk⟩ := parseScalar_eq_ok (by decide) h
    obtain ⟨⟨p, hp⟩, ht⟩ := scalarType_signed hk
    rw [hp] at htop
    obtain rfl := Except.ok.inj htop
    rw [ht]
    refine iff_of_true ?_ id
    norm_cast
  · -- `%u`
    rename_i cs
    obtain ⟨k, hk⟩ := parseScalar_eq_ok (by decide) h
    obtain ⟨⟨p, hp⟩, ht⟩ := scalarType_unsigned [] hk
    rw [hp] at htop
    obtain rfl := Except.ok.inj htop
    rw [ht]
    refine iff_of_true ?_ id
    rcases suffixBytes_cases cs with hs | hs | hs | hs | hs <;> simp [hs]
  · -- `%f`
    obtain rfl := Except.ok.inj htop
    obtain ⟨k, hk⟩ := parseScalar_eq_ok (by decide) h
    rw [scalarType_floating hk]
    exact iff_of_true rfl id
  -- the other specifiers have neither prefix nor suffix
  · obtain rfl := Except.ok.inj htop
    obtain ⟨k, hk⟩ := parseScalar_eq_ok (by decide) h
    obtain ⟨rfl, -⟩ := Prod.mk.inj (Except.ok.inj hk)
    exact iff_of_true rfl id
  · obtain rfl := Except.ok.inj htop
    obtain ⟨k, hk⟩ := parseScalar_eq_ok (by decide) h
    obtain ⟨rfl, -⟩ := Prod.mk.inj (Except.ok.inj hk)
    exact iff_of_true rfl id
  iterate 5
    · obtain rfl := Except.ok.inj htop
      obtain ⟨k, hk⟩ := parseScalar_eq_ok (by decide) h
      obtain ⟨rfl, -⟩ := Prod.mk.inj (Except.ok.inj hk)
      refine iff_of_true ?_ id
      cases ref <;> rfl
  · exact absurd (Except.ok.inj htop).symm hset

/-! ## Accepted typestrings -/

theorem skipSeparators_eq (l : List Char) (cur : Nat) :
    skipSeparators l cur = cur + (l.takeWhile isSeparator).length := by
  induction l generalizing cur with
  | nil => rfl
  | cons c l ih =>
    rw [skipSeparators, List.takeWhile_cons]
    split_ifs
    · rw [ih, List.length_cons]; omega
    · rfl

/-- The character behind a stretch of text, which may be the terminating NUL. -/
theorem charAt_append_headD (pre post : List Char) :
    charAt (pre ++ post) pre.length = .ok (post.headD nul) := by
  have h := charAt_add pre post 0
  rw [Nat.add_zero] at h
  rw [h]
  cases post <;> rfl

/-- What the parser accepts: separators and at most one `&`, then a branch of the source. -/
theorem parseTypestr_eq_ok {typestr : List Char} {ap ap' : List VArg} {t : AdiakDatatype}
    (h : parseTypestr typestr ap = .ok (t, ap')) :
    ∃ pre post ref new, cStr typestr = pre ++ post ∧ (∀ c ∈ pre, isFront c = true) ∧
      parseBranch (parseTypestrHelper (pre ++ post) (pre ++ post).length) (pre ++ post)
        (intLength (pre ++ post)) ref ap 0 pre.length (post.headD nul) = .ok (t, ap', new) := by
  unfold parseTypestr at h
  generalize cStr typestr = ts at h
  obtain ⟨⟨t', ap₁, new⟩, hparse, heq⟩ := bind_eq_ok.mp h
  obtain ⟨rfl, rfl⟩ : t' = t ∧ ap₁ = ap' := by simpa using heq
  rw [parseTypestrHelper] at hparse
  split_ifs at hparse
  rw [List.drop_zero, skipSeparators_eq, Nat.zero_add] at hparse
  obtain ⟨seps, hseps⟩ : ∃ seps, ts.takeWhile isSeparator = seps := ⟨_, rfl⟩
  obtain ⟨post, hpost⟩ : ∃ post, ts.dropWhile isSeparator = post := ⟨_, rfl⟩
  have hts : ts = seps ++ post := by rw [← hseps, ← hpost, List.takeWhile_append_dropWhile]
  have hfront : ∀ c ∈ seps, isFront c = true := fun c hc => by
    have hsep : isSeparator c = true := List.mem_takeWhile_imp (hseps ▸ hc)
    rw [isFront, hsep, Bool.true_or]
  rw [hseps, hts] at hparse
  obtain ⟨c, hc, hparse⟩ := bind_eq_ok.mp hparse
  obtain ⟨d, hd, hparse⟩ := bind_eq_ok.mp hparse
  replace hc := (charAtInt_eq_ok.mp hc).2
  replace hd := (charAtInt_eq_ok.mp hd).2
  obtain rfl := Except.ok.inj ((charAt_append_headD seps post).symm.trans hc)
  by_cases hamp : post.headD nul = '&'
  · obtain ⟨post, rfl⟩ : ∃ l, post = '&' :: l := by
      cases post with
      | nil => exact absurd hamp (by decide)
      | cons c l => exact ⟨l, by rw [← hamp]; rfl⟩
    have hassoc : seps ++ '&' :: post = (seps ++ ['&']) ++ post := by simp
    have hlen : seps.length + 1 = (seps ++ ['&']).length := by simp
    have hfront' : ∀ c ∈ seps ++ ['&'], isFront c = true := by
      intro c hc
      rcases List.mem_append.mp hc with hc | hc
      · exact hfront c hc
      · rw [List.mem_singleton.mp hc]; decide
    rw [hassoc] at hparse hd hts
    simp only [List.headD_cons, if_true, decide_true, hlen, charAt_append_headD] at hparse hd
    obtain rfl := Except.ok.inj hd
    exact ⟨seps ++ ['&'], post, _, new, hts, hfront', hparse⟩
  · simp only [hamp, decide_false, if_false, charAt_append_headD] at hparse hd
    obtain rfl := Except.ok.inj hd
    exact ⟨seps, post, _, new, hts, hfront, hparse⟩

/-- The character a type starts with decides its `dtype`, or leads to a specifier. -/
theorem parseBranch_eq_ok {self : SelfCall} {ts : CStr} {typestrEnd : Int} {ref : Bool}
    {ap ap' : List VArg} {new new' cur : Nat} {c : Char} {t : AdiakDatatype}
    (h : parseBranch self ts typestrEnd ref ap new cur c = .ok (t, ap', new')) :
    (c = '{' ∧ t.dtype = .list) ∨ (c = '[' ∧ t.dtype = .set) ∨ (c = '<' ∧ t.dtype = .range) ∨
      (c = '(' ∧ t.dtype = .tuple) ∨ (c = '%' ∧ ∃ n, parseScalar ts ref (cur + 1) = .ok (t, n)) ∨
      c = nul := by
  unfold parseBranch at h
  split_ifs at h with hcoll hrange htuple hscalar hnul
  · unfold parseListOrSet at h
    obtain ⟨brace, -, h⟩ := bind_eq_ok.mp h
    cases brace with
    | none => cases h
    | some endBrace =>
      obtain ⟨⟨n, ap₁⟩, -, h⟩ := bind_eq_ok.mp h
      obtain ⟨⟨sub, ap₂, _⟩, -, h⟩ := bind_eq_ok.mp h
      obtain ⟨rfl, -⟩ := Prod.mk.inj (Except.ok.inj h)
      rcases hcoll with rfl | rfl
      · exact .inl ⟨rfl, rfl⟩
      · exact .inr (.inl ⟨rfl, rfl⟩)
  · unfold parseRange at h
    obtain ⟨brace, -, h⟩ := bind_eq_ok.mp h
    cases brace with
    | none => cases h
    | some endBrace =>
      obtain ⟨⟨sub, ap₂, _⟩, -, h⟩ := bind_eq_ok.mp h
      obtain ⟨rfl, -⟩ := Prod.mk.inj (Except.ok.inj h)
      exact .inr (.inr (.inl ⟨hrange, rfl⟩))
  · unfold parseTuple at h
    obtain ⟨brace, -, h⟩ := bind_eq_ok.mp h
    cases brace with
    | none => cases h
    | some endBrace =>
      obtain ⟨⟨n, ap₁⟩, -, h⟩ := bind_eq_ok.mp h
      dsimp only at h
      split_ifs at h
      obtain ⟨⟨subs, ap₂⟩, -, h⟩ := bind_eq_ok.mp h
      obtain ⟨rfl, -⟩ := Prod.mk.inj (Except.ok.inj h)
      exact .inr (.inr (.inr (.inl ⟨htuple, rfl⟩)))
  · obtain ⟨⟨u, n⟩, hu, h⟩ := bind_eq_ok.mp h
    obtain ⟨rfl, -⟩ := Prod.mk.inj (Except.ok.inj h)
    exact .inr (.inr (.inr (.inr (.inl ⟨hscalar, n, hu⟩))))
  · exact .inr (.inr (.inr (.inr (.inr hnul))))

/-- A size suffix that the parser and `toplevel_type` read differently. -/
def TopLongSuffix (typestr : List Char) : Prop :=
  ∃ cs, (cStr typestr).dropWhile isFront = '%' :: cs ∧ LongSuffix cs

theorem nul_notMem_cStr (typestr : List Char) : nul ∉ cStr typestr := by
  intro h
  have hne := List.mem_takeWhile_imp h
  simp at hne

/-- The two readings of an accepted typestring agree, or it starts with a specifier. -/
theorem parseTypestr_reading {typestr : List Char} {ap ap' : List VArg} {t : AdiakDatatype}
    {top : AdiakType} (h : parseTypestr typestr ap = .ok (t, ap'))
    (htop : toplevelType typestr = .ok top) (hset : top ≠ .unset) :
    (top = t.dtype ∧ ¬ TopLongSuffix typestr) ∨ ∃ cs ref n,
      (cStr typestr).dropWhile isFront = '%' :: cs ∧ parseScalar cs ref 0 = .ok (t, n) := by
  obtain ⟨pre, post, ref, new, hts, hfront, hbranch⟩ := parseTypestr_eq_ok h
  have hdrop : (cStr typestr).dropWhile isFront = post.dropWhile isFront := by
    rw [hts]
    exact List.dropWhile_append_of_pos hfront
  unfold toplevelType at htop
  unfold TopLongSuffix
  rw [hdrop] at htop ⊢
  cases post with
  | nil => exact absurd (Except.ok.inj htop).symm hset
  | cons c cs =>
    -- a character that starts a type is not skipped
    have hstop : isFront c = false → (c :: cs).dropWhile isFront = c :: cs := fun hc =>
      List.dropWhile_cons_of_neg (by simp [hc])
    rcases parseBranch_eq_ok hbranch with ⟨hc, ht⟩ | ⟨hc, ht⟩ | ⟨hc, ht⟩ | ⟨hc, ht⟩ |
        ⟨hc, n, hscalar⟩ | hc
    · obtain rfl : c = '{' := hc
      rw [hstop rfl] at htop ⊢
      obtain rfl := Except.ok.inj htop
      exact .inl ⟨ht.symm, by simp⟩
    · obtain rfl : c = '[' := hc
      rw [hstop rfl] at htop ⊢
      obtain rfl := Except.ok.inj htop
      exact .inl ⟨ht.symm, by simp⟩
    · obtain rfl : c = '<' := hc
      rw [hstop rfl] at htop ⊢
      obtain rfl := Except.ok.inj htop
      exact .inl ⟨ht.symm, by simp⟩
    · obtain rfl : c = '(' := hc
      rw [hstop rfl] at htop ⊢
      obtain rfl := Except.ok.inj htop
      exact .inl ⟨ht.symm, by simp⟩
    · obtain rfl : c = '%' := hc
      rw [hstop rfl]
      have hassoc : pre ++ '%' :: cs = (pre ++ ['%']) ++ cs := by simp
      have hlen : pre.length + 1 = (pre ++ ['%']).length := by simp
      rw [hassoc, hlen] at hscalar
      obtain ⟨k, -, -, hk⟩ := parseScalar_shift (p := 0) hscalar
      exact .inr ⟨cs, ref, k, rfl, hk⟩
    · have hmem : nul ∈ cStr typestr := by
        rw [hts, ← hc]
        simp
      exact absurd hmem (nul_notMem_cStr typestr)

/-- They agree unless there is such a suffix. -/
theorem parseTypestr_toplevel {typestr : List Char} {ap ap' : List VArg} {t : AdiakDatatype}
    {top : AdiakType} (h : parseTypestr typestr ap = .ok (t, ap'))
    (htop : toplevelType typestr = .ok top) (hset : top ≠ .unset) :
    top = t.dtype ↔ ¬ TopLongSuffix typestr := by
  rcases parseTypestr_reading h htop hset with ⟨heq, hno⟩ | ⟨cs, ref, n, hdrop, hscalar⟩
  · exact iff_of_true heq hno
  · unfold toplevelType at htop
    unfold TopLongSuffix
    rw [hdrop] at htop ⊢
    rw [parseScalar_toplevel hscalar htop hset]
    simp

/-- Where they differ, a `long` or a `long long` is written and an unsigned type recorded. -/
theorem toplevel_of_ne {typestr : List Char} {ap ap' : List VArg} {t : AdiakDatatype}
    {top : AdiakType} (h : parseTypestr typestr ap = .ok (t, ap'))
    (htop : toplevelType typestr = .ok top) (hset : top ≠ .unset) (hne : top ≠ t.dtype) :
    (top = .ulong ∨ top = .ulonglong) ∧ (t.dtype = .uint ∨ t.dtype = .ulonglong) := by
  rcases parseTypestr_reading h htop hset with ⟨heq, -⟩ | ⟨cs, ref, n, hdrop, hscalar⟩
  · exact absurd heq hne
  · unfold toplevelType at htop
    rw [hdrop] at htop
    have hsuffix : LongSuffix cs := not_not.mp fun hno =>
      hne ((parseScalar_toplevel hscalar htop hset).mpr hno)
    refine ⟨?_, dtype_of_longSuffix hscalar hsuffix⟩
    unfold LongSuffix at hsuffix
    split at hsuffix
    · exact .inl (Except.ok.inj htop).symm
    · exact .inr (Except.ok.inj htop).symm
    · exact hsuffix.elim

/-! ## The member that is written -/

/-- A member of `adiak_value_t`. -/
inductive Member where
  | vLong
  | vInt
  | vDouble
  | vLonglong
  | vPtr
  | vSubval
  deriving DecidableEq

/-- The member that was written, if any. -/
def AdiakValue.member : AdiakValue → Option Member
  | .indeterminate => none
  | .vLong _ => some .vLong
  | .vInt _ => some .vInt
  | .vDouble _ => some .vDouble
  | .vLonglong _ => some .vLonglong
  | .vPtr _ => some .vPtr
  | .vSubval _ => some .vSubval

/-- The member that the table of `adiak_value_t` names for a type. -/
def AdiakType.member (isReference : Bool) : AdiakType → Option Member
  | .unset => none
  | .long | .ulong | .date => some .vLong
  | .int | .uint => some .vInt
  | .double => some .vDouble
  | .longlong | .ulonglong => some .vLonglong
  | .timeval | .version | .string | .catstring | .jsonstring | .path => some .vPtr
  | .range | .set | .list | .tuple => some (if isReference then .vPtr else .vSubval)

/-- A copy of a container that is no reference is an array. -/
theorem member_copyValue {m : Memory} {t : AdiakDatatype} {p : Addr} {v : AdiakValue} {n : Int}
    (hbase : isBasetype t.dtype = false) (href : t.isReference = false)
    (h : copyValue m t p = .ok (v, n)) : v.member = some .vSubval := by
  cases t with
  | null => cases h
  | node info subtype =>
    rw [copyValue_container m subtype p hbase href] at h
    cases hloop : copyLoop (copyValues m subtype) (info.dtype = .tuple) p info.numElements.toNat 0 0
      with
    | error e => rw [hloop] at h; cases h
    | ok r =>
      rw [hloop] at h
      obtain ⟨rfl, -⟩ := Prod.mk.inj (Except.ok.inj h)
      rfl

/-- What is fetched for a type: a scalar is written at once, of the others a pointer is kept. -/
theorem fetchArg_eq_ok {m : Memory} {top : AdiakType} {ap ap' : List VArg} {f : Fetched}
    (h : fetchArg m top ap = .ok (f, ap')) :
    (∃ v, f = .ofValue v ∧ ∀ ref, v.member = top.member ref) ∨
      (∃ p, f = ⟨.indeterminate, p, 0⟩ ∧ ∀ ref, top.member ref = some .vPtr) ∨
      (∃ p, f = ⟨.indeterminate, 0, p⟩ ∧ isBasetype top = false) := by
  cases ap with
  | nil => cases top <;> cases h
  | cons a ap =>
    cases top <;> cases a <;> first
      | cases h; done
      | (obtain ⟨rfl, -⟩ := Prod.mk.inj (Except.ok.inj h)
         first
          | exact .inl ⟨_, rfl, fun _ => rfl⟩
          | exact .inr (.inl ⟨_, rfl, fun _ => rfl⟩)
          | exact .inr (.inr ⟨_, rfl, rfl⟩))
      | skip
    rename_i p
    obtain ⟨tv, -, h⟩ := bind_eq_ok.mp h
    obtain ⟨rfl, -⟩ := Prod.mk.inj (Except.ok.inj h)
    exact .inl ⟨_, rfl, fun _ => rfl⟩

/-- What `adiak_namevalue` writes is the member for the type `toplevel_type` reports. -/
theorem member_storeFetched {m : Memory} {ap ap' : List VArg} {f : Fetched} {t : AdiakDatatype}
    {v : AdiakValue} (hfetch : fetchArg m t.dtype ap = .ok (f, ap'))
    (hstore : storeFetched m f t = .ok v) :
    v.member = none ∨ v.member = t.dtype.member t.isReference := by
  rcases fetchArg_eq_ok hfetch with ⟨v', rfl, hv'⟩ | ⟨p, rfl, htop⟩ | ⟨p, rfl, hbase⟩
  · obtain rfl : v' = v := by simpa [storeFetched, Fetched.ofValue] using hstore
    exact .inr (hv' _)
  · unfold storeFetched at hstore
    rw [htop]
    by_cases hp : p = 0
    · obtain rfl : AdiakValue.indeterminate = v := by simpa [hp] using hstore
      exact .inl rfl
    · simp only [ne_eq, hp, not_false_eq_true, if_true] at hstore
      split_ifs at hstore
      · obtain rfl := Except.ok.inj hstore
        exact .inr rfl
      · obtain ⟨s, -, hstore⟩ := bind_eq_ok.mp hstore
        obtain rfl := Except.ok.inj hstore
        exact .inr rfl
  · unfold storeFetched at hstore
    have hmember : t.dtype.member t.isReference =
        some (if t.isReference then .vPtr else .vSubval) := by
      cases hd : t.dtype <;> rw [hd] at hbase <;> first | exact absurd hbase (by decide) | rfl
    rw [hmember]
    by_cases hp : p = 0
    · obtain rfl : AdiakValue.indeterminate = v := by simpa [hp] using hstore
      exact .inl rfl
    · simp only [ne_eq, hp, not_true_eq_false, not_false_eq_true, if_true, if_false] at hstore
      split_ifs at hstore with href
      · obtain rfl := Except.ok.inj hstore
        rw [if_pos href]
        exact .inr rfl
      · rw [if_neg href]
        cases hcopy : copyValue m t p with
        | ok r =>
          rw [hcopy] at hstore
          obtain rfl := Except.ok.inj hstore
          exact .inr (member_copyValue hbase (by simpa using href) hcopy)
        | error e =>
          rw [hcopy] at hstore
          cases e with
          | null =>
            obtain rfl := Except.ok.inj hstore
            exact .inl rfl
          | undefined => cases hstore
          | fuel => cases hstore

/-- For a typestring that `adiak_namevalue` accepts, the type `toplevel_type` reports is the recorded
one, and what was written is the member for it, unless a size suffix stands behind `%lu` or
`%llu`. -/
theorem namevalue_toplevel_iff {m : Memory} {typestr : List Char} {ap : List VArg} {v : AdiakValue}
    {t : AdiakDatatype} (h : namevalueArgs m typestr ap = .ok (v, t)) :
    (toplevelType typestr = .ok t.dtype ∧
      (v.member = none ∨ v.member = t.dtype.member t.isReference)) ↔ ¬ TopLongSuffix typestr := by
  unfold namevalueArgs at h
  obtain ⟨top, htop, h⟩ := bind_eq_ok.mp h
  obtain ⟨⟨f, ap₁⟩, hfetch, h⟩ := bind_eq_ok.mp h
  obtain ⟨⟨t', ap₂⟩, hparse, h⟩ := bind_eq_ok.mp h
  obtain ⟨v', hstore, h⟩ := bind_eq_ok.mp h
  obtain ⟨rfl, rfl⟩ := Prod.mk.inj (Except.ok.inj h)
  have hset : top ≠ .unset := by
    rintro rfl
    cases hfetch
  rw [← parseTypestr_toplevel hparse htop hset, htop, Except.ok.injEq]
  constructor
  · exact And.left
  · rintro rfl
    exact ⟨rfl, member_storeFetched hfetch hstore⟩

/-- A size suffix without the prefix, and one with it. -/
theorem namevalue_toplevel_suffixes :
    (∃ v t, namevalueArgs Memory.empty ['%', 'u', '6', '4'] [.longlong 7] = .ok (v, t) ∧
      toplevelType ['%', 'u', '6', '4'] = .ok t.dtype ∧
        (v.member = none ∨ v.member = t.dtype.member t.isReference)) ∧
    ∃ v t, namevalueArgs Memory.empty ['%', 'l', 'u', '8'] [.long 7] = .ok (v, t) ∧
      ¬ (toplevelType ['%', 'l', 'u', '8'] = .ok t.dtype ∧
        (v.member = none ∨ v.member = t.dtype.member t.isReference)) := by
  obtain ⟨⟨v, t⟩, hu⟩ := exists_of_isOk
    (x := namevalueArgs Memory.empty ['%', 'u', '6', '4'] [.longlong 7]) (by decide +kernel)
  obtain ⟨⟨v', t'⟩, hlu⟩ := exists_of_isOk
    (x := namevalueArgs Memory.empty ['%', 'l', 'u', '8'] [.long 7]) (by decide +kernel)
  refine ⟨⟨v, t, hu, (namevalue_toplevel_iff hu).mpr ?_⟩, v', t', hlu, fun h => ?_⟩
  · rintro ⟨cs, hcs, hsuffix⟩
    obtain ⟨-, rfl⟩ := List.cons.inj hcs
    exact hsuffix
  · have hsuffix : suffixBytes ['8'] ≠ 0 := by decide
    exact (namevalue_toplevel_iff hlu).mp h ⟨['l', 'u', '8'], rfl, hsuffix⟩

/-- `%lu8`: `v_long` is written and `adiak_uint` recorded. -/
theorem namevalue_toplevel_not_always : ¬ ∀ (m : Memory) (typestr : List Char) (ap : List VArg)
    (v : AdiakValue) (t : AdiakDatatype), namevalueArgs m typestr ap = .ok (v, t) →
      toplevelType typestr = .ok t.dtype := by
  intro h
  have hparse : parseTypestr ['%', 'l', 'u', '8'] [] = .ok (baseU8, []) :=
    parseTypestr_of_lt (by decide) []
  have htop : toplevelType ['%', 'l', 'u', '8'] = .ok .ulong := rfl
  have hfetch : fetchArg Memory.empty .ulong [.long 7] = .ok (.ofValue (.vLong 7), []) := rfl
  have hargs : namevalueArgs Memory.empty ['%', 'l', 'u', '8'] [.long 7] =
      .ok (.vLong 7, baseU8) := by
    rw [namevalueArgs, htop, ok_bind, hfetch, ok_bind]
    dsimp only
    rw [hparse]
    rfl
  exact absurd (Except.ok.inj (h _ _ _ _ _ hargs)) (by decide)

end Adiak
