import Adiak.Collect.Strings

/-!
# The command line

`adiak_cmdline` of `adiak.c`: the buffer of `adksys_get_cmdline_buffer`, in which each argument ends with
a NUL, is cut into an array of pointers, which `adiak_namevalue` copies as `[%s]`.

1. `countNuls` and `fillSlots` are the two scans of the buffer.
2. `holdsStrings_cmdline`: the slots in front of the last one lead to the arguments. What follows the
   last NUL of a buffer is no argument.
3. `cmdline_iff`: what is recorded are the arguments, as long as `copy_value` can count the bytes of
   the array.
-/

namespace Adiak

/-! ## The code -/

/-- The first scan: `myargc`. -/
def countNuls : List Char → Int → Int
  | [], myargc => myargc
  | c :: cs, myargc => countNuls cs (if c = nul then wrapInt (myargc + 1) else myargc)

/-- The second scan from `arglist + i` on: the slots behind the ones that are filled. -/
def fillSlots : List Char → Addr → List Addr
  | [], _ => []
  | c :: cs, p => if c = nul then (p + 1) :: fillSlots cs (p + 1) else fillSlots cs (p + 1)

/-- All slots of `myargv` that are written. -/
def slots (text : List Char) (arglist : Addr) : List Addr := arglist :: fillSlots text arglist

/-- The slots of `malloc(sizeof(char *) * (myargc+1))`: none if it fails. -/
def allocatedSlots (text : List Char) : Nat := (wrapInt (countNuls text 0 + 1)).toNat

/-- The memory at the call of `adiak_namevalue`: `text` at `arglist` and the slots at `myargv`. -/
def cmdlineMemory (text : List Char) (arglist myargv : Addr) : Memory where
  byte := fun p =>
    if p < myargv then none
    else
      match (slots text arglist)[((p - myargv) / 8).toNat]? with
      | none => none
      | some slot => some (LittleEndian.byteAt slot ((p - myargv) % 8).toNat)
  cstr := fun p =>
    if p < arglist ∨ nul ∉ text.drop (p - arglist).toNat then none
    else some (cStr (text.drop (p - arglist).toNat))
  timeval := fun _ => none

/-- `adiak_cmdline`, given what `adksys_get_cmdline_buffer` yields. -/
def adiakCmdline (s : AdiakState) (query : Option (List Char)) (arglist myargv : Addr) :
    Except Stop (Int × AdiakState) :=
  match query with
  | none => .ok (-1, s)
  | some text =>
    if allocatedSlots text < (slots text arglist).length then .error .undefined
    else do
      let (result, s) ← adiakNamevalue s (cmdlineMemory text arglist myargv) "cmdline".toList
        adiakGeneral (some "runinfo".toList) "[%s]".toList [.ptr myargv, .int (countNuls text 0)]
      if result = -1 then .ok (-1, s) else .ok (0, s)

/-! ## The scans -/

section Scans

variable {text : List Char} {arglist : Int}

theorem countNuls_eq {n : Nat} (h : text.length + n < 2 ^ 31) :
    countNuls text n = (text.count nul + n : Nat) := by
  induction text generalizing n with
  | nil => rw [countNuls, List.count_nil, Nat.zero_add]
  | cons c cs ih =>
    rw [List.length_cons] at h
    rw [countNuls]
    by_cases hc : c = nul
    · rw [if_pos hc, hc, List.count_cons_self, wrapInt_of_lt (by omega) (by omega)]
      have hrec := @ih (n + 1) (by omega)
      rw [Nat.cast_succ] at hrec
      rw [hrec, Nat.add_right_comm, Nat.add_assoc]
    · rw [if_neg hc, List.count_cons_of_ne hc, ih (by omega)]

theorem length_fillSlots (text : List Char) (p : Addr) :
    (fillSlots text p).length = text.count nul := by
  induction text generalizing p with
  | nil => rfl
  | cons c cs ih =>
    rw [fillSlots]
    by_cases hc : c = nul
    · rw [if_pos hc, hc, List.count_cons_self, List.length_cons, ih]
    · rw [if_neg hc, List.count_cons_of_ne hc, ih]

theorem length_slots (text : List Char) (arglist : Addr) :
    (slots text arglist).length = text.count nul + 1 := by
  rw [slots, List.length_cons, length_fillSlots]

/-- A slot that the second scan fills lies behind a NUL, and unless it is the last one, in front of
another. -/
theorem fillSlots_lt {p q : Int} {i : Nat} (h : (fillSlots text p)[i]? = some q) :
    p < q ∧ (i + 1 < text.count nul → q < p + text.length) := by
  induction text generalizing p i with
  | nil => cases h
  | cons c cs ih =>
    rw [fillSlots] at h
    rw [List.length_cons]
    by_cases hc : c = nul
    · rw [if_pos hc] at h
      rw [hc, List.count_cons_self]
      cases i with
      | zero =>
        obtain rfl : p + 1 = q := Option.some.inj h
        have hle := List.count_le_length (a := nul) (l := cs)
        exact ⟨by omega, fun hcount => by push_cast; omega⟩
      | succ i =>
        obtain ⟨hlt, hend⟩ := ih h
        exact ⟨by omega, fun hcount => by have := hend (by omega); push_cast; omega⟩
    · rw [if_neg hc] at h
      rw [List.count_cons_of_ne hc]
      obtain ⟨hlt, hend⟩ := ih h
      exact ⟨by omega, fun hcount => by have := hend hcount; push_cast; omega⟩

/-- The pointers that are recorded start inside the buffer. -/
theorem slot_inside {q : Int} {i : Nat} (hi : i < text.count nul)
    (h : (slots text arglist)[i]? = some q) : arglist ≤ q ∧ q < arglist + text.length := by
  have hpos : text.count nul ≤ text.length := List.count_le_length
  cases i with
  | zero =>
    obtain rfl : arglist = q := Option.some.inj h
    omega
  | succ i =>
    obtain ⟨hlt, hend⟩ := fillSlots_lt h
    exact ⟨hlt.le, hend hi⟩

/-- The slots that are written fit, unless the number of the slots is no `int`. -/
theorem length_slots_le_iff (arglist : Int) (htext : text.length < 2 ^ 31) :
    (slots text arglist).length ≤ allocatedSlots text ↔ text.count nul ≠ 2 ^ 31 - 1 := by
  have hle : text.count nul ≤ text.length := List.count_le_length
  have hcount := @countNuls_eq text 0 (by omega)
  rw [Nat.add_zero, Int.ofNat_zero] at hcount
  rw [length_slots, allocatedSlots, hcount]
  by_cases hmax : text.count nul = 2 ^ 31 - 1
  · rw [hmax]
    exact iff_of_false (by decide) (fun h => h rfl)
  · rw [wrapInt_of_lt (by omega) (by omega)]
    exact iff_of_true (by omega) hmax

end Scans

/-! ## Buffers of arguments -/

/-- The arguments one behind another, each with its NUL. -/
def joined (args : List CStr) : List Char := args.flatMap fun a => a ++ [nul]

/-- The arguments of a buffer. -/
def splitArgs : List Char → List CStr
  | [] => []
  | c :: cs =>
    if c = nul then [] :: splitArgs cs
    else
      match splitArgs cs with
      | [] => []
      | a :: args => (c :: a) :: args

/-- What is recorded for the arguments. -/
def argsEvent (args : List CStr) : Event where
  name := "cmdline".toList
  category := adiakGeneral
  subcategory := some "runinfo".toList
  value := .vSubval (args.map fun a => .vPtr (.strdup a))
  dtype := .node (containerNode .set false args.length) [baseString]

section Arguments

variable {args : List CStr} {arglist myargv : Int}

theorem fillSlots_append {a : CStr} (ha : nul ∉ a) (cs : List Char) (p : Int) :
    fillSlots (a ++ nul :: cs) p = (p + a.length + 1) :: fillSlots cs (p + a.length + 1) := by
  induction a generalizing p with
  | nil => rw [List.nil_append, fillSlots, if_pos rfl, List.length_nil, Int.ofNat_zero, Int.add_zero]
  | cons c a ih =>
    have hc : c ≠ nul := fun hc => ha (hc ▸ List.mem_cons_self)
    have hsum : p + 1 + a.length + 1 = p + (c :: a).length + 1 := by
      rw [List.length_cons]
      push_cast
      omega
    rw [List.cons_append, fillSlots, if_neg hc, ih (fun h => ha (List.mem_cons_of_mem c h)), hsum]

theorem joined_cons (a : CStr) (args : List CStr) : joined (a :: args) = a ++ nul :: joined args := by
  unfold joined
  rw [List.flatMap_cons, List.append_assoc]
  rfl

/-- A buffer is its arguments, and what follows the last NUL. -/
theorem exists_joined (text : List Char) :
    ∃ rest, text = joined (splitArgs text) ++ rest ∧ nul ∉ rest ∧ ∀ a ∈ splitArgs text, nul ∉ a := by
  induction text with
  | nil => exact ⟨[], rfl, List.not_mem_nil, fun a ha => absurd ha List.not_mem_nil⟩
  | cons c cs ih =>
    obtain ⟨rest, hcs, hrest, hargs⟩ := ih
    rw [splitArgs]
    by_cases hc : c = nul
    · rw [if_pos hc, joined_cons, hc]
      refine ⟨rest, by rw [List.nil_append, List.cons_append, ← hcs], hrest, fun a ha => ?_⟩
      rcases List.mem_cons.mp ha with rfl | ha
      · exact List.not_mem_nil
      · exact hargs a ha
    · rw [if_neg hc]
      cases hsplit : splitArgs cs with
      | nil =>
        rw [hsplit] at hcs
        refine ⟨c :: rest, by rw [hcs]; rfl, ?_, fun a ha => absurd ha List.not_mem_nil⟩
        rw [List.mem_cons, not_or]
        exact ⟨fun h => hc h.symm, hrest⟩
      | cons a args =>
        rw [hsplit] at hcs hargs
        refine ⟨rest, ?_, hrest, fun b hb => ?_⟩
        · rw [joined_cons] at hcs ⊢
          rw [hcs]
          rfl
        · rcases List.mem_cons.mp hb with rfl | hb
          · rw [List.mem_cons, not_or]
            exact ⟨fun h => hc h.symm, hargs a List.mem_cons_self⟩
          · exact hargs b (List.mem_cons_of_mem a hb)

/-- A slot in front of the last one is the start of its argument. -/
theorem slot_joined (hargs : ∀ a ∈ args, nul ∉ a) (rest : List Char) (p : Int) {i : Nat}
    (hi : i < args.length) :
    ∃ pre post, joined args ++ rest = pre ++ (args[i] ++ nul :: post) ∧
      (slots (joined args ++ rest) p)[i]? = some (p + pre.length) := by
  induction args generalizing p i with
  | nil => exact absurd hi (Nat.not_lt_zero i)
  | cons a args ih =>
    have hjoined : joined (a :: args) ++ rest = a ++ nul :: (joined args ++ rest) := by
      rw [joined_cons, List.append_assoc, List.cons_append]
    have hslots : slots (joined (a :: args) ++ rest) p =
        p :: slots (joined args ++ rest) (p + a.length + 1) := by
      unfold slots
      rw [hjoined, fillSlots_append (hargs a List.mem_cons_self)]
    cases i with
    | zero =>
      refine ⟨[], joined args ++ rest, hjoined, ?_⟩
      rw [hslots, List.length_nil, Int.ofNat_zero, Int.add_zero]
      rfl
    | succ i =>
      obtain ⟨pre, post, hpre, hslot⟩ := ih (fun b hb => hargs b (List.mem_cons_of_mem a hb))
        (p + a.length + 1) (Nat.lt_of_succ_lt_succ hi)
      refine ⟨a ++ nul :: pre, post, ?_, ?_⟩
      · rw [hjoined, hpre, List.append_assoc, List.cons_append]
        rfl
      · rw [hslots, List.getElem?_cons_succ, hslot, List.length_append, List.length_cons]
        congr 1
        push_cast
        omega

theorem count_joined (hargs : ∀ a ∈ args, nul ∉ a) {rest : List Char} (hrest : nul ∉ rest) :
    (joined args ++ rest).count nul = args.length := by
  induction args with
  | nil => exact List.count_eq_zero.mpr hrest
  | cons a args ih =>
    have ha := List.count_eq_zero.mpr (hargs a List.mem_cons_self)
    have hrec := ih fun b hb => hargs b (List.mem_cons_of_mem a hb)
    rw [joined_cons, List.append_assoc, List.cons_append, List.count_append, ha,
      List.count_cons_self, hrec, Nat.zero_add, List.length_cons]

/-- The slots lead to the arguments. -/
theorem holdsStrings_cmdline (myargv : Int) (hargs : ∀ a ∈ args, nul ∉ a) {rest : List Char}
    (hlist : 0 < arglist) (hspace : arglist + (joined args ++ rest).length < 2 ^ 64) :
    (cmdlineMemory (joined args ++ rest) arglist myargv).HoldsStrings myargv args := by
  intro i hi
  set m := cmdlineMemory (joined args ++ rest) arglist myargv with hm
  obtain ⟨pre, post, hjoined, hslot⟩ := slot_joined hargs rest arglist hi
  have hpre : (pre.length : Int) ≤ (joined args ++ rest).length := by
    rw [hjoined, List.length_append]
    omega
  have haddr : m.loadAddr (myargv + 8 * i) = .ok (arglist + pre.length) :=
    loadAddr_slot (fun _ => rfl) hslot (by omega) (by omega)
  -- the string that starts there
  have hdrop : (joined args ++ rest).drop (arglist + (pre.length : Int) - arglist).toNat =
      args[i] ++ nul :: post := by
    rw [add_sub_cancel_left, Int.toNat_natCast, hjoined, List.drop_left]
  have hstring : m.cstr (arglist + pre.length) = some args[i] := by
    rw [hm]
    unfold cmdlineMemory
    dsimp only
    rw [hdrop, if_neg, cStr_append_nul (hargs _ (List.getElem_mem hi))]
    simp only [not_or, not_lt, not_not]
    exact ⟨Int.le_add_of_nonneg_right (Int.natCast_nonneg _),
      List.mem_append_right _ List.mem_cons_self⟩
  refine ⟨arglist + pre.length, haddr, ?_⟩
  unfold Memory.loadCstr
  rw [hstring]

/-! ## The result -/

/-- From every state, `adiak_cmdline` returns `0` and records the arguments with their count. -/
def RecordsArgs (args : List CStr) (arglist myargv : Addr) : Prop :=
  ∀ s, adiakCmdline s (some (joined args)) arglist myargv = (do
    let s ← adiakRawNamevalue s (argsEvent args)
    .ok (0, s))

/-- The second scan stays inside `myargv`, and the pointers that are recorded start in the buffer. -/
def SlotsInBounds (text : List Char) (arglist : Int) : Prop :=
  (slots text arglist).length ≤ allocatedSlots text ∧
    ∀ (i : Nat) (q : Int), (i : Int) < countNuls text 0 → (slots text arglist)[i]? = some q →
      arglist ≤ q ∧ q < arglist + text.length

theorem countNuls_zero {text : List Char} (htext : text.length < 2 ^ 31) :
    countNuls text 0 = text.count nul := @countNuls_eq text 0 (by omega)

theorem slotsInBounds_iff {text : List Char} (htext : text.length < 2 ^ 31) :
    SlotsInBounds text arglist ↔ text.count nul ≠ 2 ^ 31 - 1 := by
  rw [← length_slots_le_iff arglist htext]
  refine ⟨And.left, fun h => ⟨h, fun i q hi hq => slot_inside ?_ hq⟩⟩
  rw [countNuls_zero htext] at hi
  omega

/-- What `adiak_cmdline` does when the slots fit. -/
theorem adiakCmdline_eq (s : AdiakState) (hargs : ∀ a ∈ args, nul ∉ a) {rest : List Char}
    (hrest : nul ∉ rest) (htext : (joined args ++ rest).length < 2 ^ 31)
    (hfit : args.length ≠ 2 ^ 31 - 1) :
    adiakCmdline s (some (joined args ++ rest)) arglist myargv = (do
      let (result, s) ← adiakNamevalue s (cmdlineMemory (joined args ++ rest) arglist myargv)
        "cmdline".toList adiakGeneral (some "runinfo".toList) "[%s]".toList
        [.ptr myargv, .int args.length]
      if result = -1 then .ok (-1, s) else .ok (0, s)) := by
  have hslots := (length_slots_le_iff arglist htext).mpr (by rwa [count_joined hargs hrest])
  unfold adiakCmdline
  dsimp only
  rw [if_neg (by omega), countNuls_zero htext, count_joined hargs hrest]

theorem adiakCmdline_records (s : AdiakState) (hargs : ∀ a ∈ args, nul ∉ a) {rest : List Char}
    (hrest : nul ∉ rest) (hlist : 0 < arglist) (hargv : myargv ≠ 0)
    (hspace : arglist + (joined args ++ rest).length < 2 ^ 64)
    (htext : (joined args ++ rest).length < 2 ^ 31) (hlen : args.length ≤ 2 ^ 28) :
    adiakCmdline s (some (joined args ++ rest)) arglist myargv = (do
      let s ← adiakRawNamevalue s (argsEvent args)
      .ok (0, s)) := by
  have hholds := holdsStrings_cmdline myargv hargs hlist hspace
  have hnamevalue := adiakNamevalue_strings s "cmdline".toList (some "runinfo".toList)
    "[%s]".toList hholds (.inl rfl) hargv rfl (parse_strings _) hlen
  rw [adiakCmdline_eq s hargs hrest htext (by omega), hnamevalue]
  show ((adiakRawNamevalue s (argsEvent args) >>= fun s => Except.ok (0, s)) >>= _) = _
  cases adiakRawNamevalue s (argsEvent args) <;> rfl

theorem adiakCmdline_error (s : AdiakState) (hargs : ∀ a ∈ args, nul ∉ a) {rest : List Char}
    (hrest : nul ∉ rest) (hlist : 0 < arglist) (hargv : myargv ≠ 0)
    (hspace : arglist + (joined args ++ rest).length < 2 ^ 64)
    (htext : (joined args ++ rest).length < 2 ^ 31) (hlen : 2 ^ 28 < args.length) :
    adiakCmdline s (some (joined args ++ rest)) arglist myargv = .error .undefined := by
  by_cases hfit : args.length = 2 ^ 31 - 1
  · have hslots : ¬ (slots (joined args ++ rest) arglist).length ≤
        allocatedSlots (joined args ++ rest) := fun hle =>
      (length_slots_le_iff arglist htext).mp hle (by rw [count_joined hargs hrest, hfit])
    exact if_pos (by omega)
  · have hholds := holdsStrings_cmdline myargv hargs hlist hspace
    have hfront : myargv + -2 ^ 31 < myargv := by omega
    have hnamevalue := adiakNamevalue_strings_error s "cmdline".toList adiakGeneral
      (some "runinfo".toList) "[%s]".toList hholds (.inl rfl) hargv (if_pos hfront) rfl (parse_strings _) hlen
    rw [adiakCmdline_eq s hargs hrest htext hfit, hnamevalue]
    rfl

theorem recordsArgs_of_le (hargs : ∀ a ∈ args, nul ∉ a) (hlist : 0 < arglist) (hargv : myargv ≠ 0)
    (hspace : arglist + (joined args).length < 2 ^ 64) (htext : (joined args).length < 2 ^ 31)
    (hlen : args.length ≤ 2 ^ 28) : RecordsArgs args arglist myargv := by
  intro s
  rw [← List.append_nil (joined args)] at hspace htext ⊢
  exact adiakCmdline_records s hargs List.not_mem_nil hlist hargv hspace htext hlen

theorem not_recordsArgs (hargs : ∀ a ∈ args, nul ∉ a) (hlist : 0 < arglist) (hargv : myargv ≠ 0)
    (hspace : arglist + (joined args).length < 2 ^ 64) (htext : (joined args).length < 2 ^ 31)
    (hlen : 2 ^ 28 < args.length) : ¬ RecordsArgs args arglist myargv := by
  intro h
  -- the first record of a process is made whatever the value
  obtain ⟨s', hraw⟩ : ∃ s', adiakRawNamevalue (initialState 0 true) (argsEvent args) = .ok s' :=
    ⟨_, rfl⟩
  have hrun := h (initialState 0 true)
  rw [hraw, ok_bind] at hrun
  rw [← List.append_nil (joined args)] at hspace htext hrun
  rw [adiakCmdline_error _ hargs List.not_mem_nil hlist hargv hspace htext hlen] at hrun
  cases hrun

/-- `adiak_cmdline` records the arguments exactly if the array is no longer than `copy_value` can
count, and stays inside its array exactly if the number of its slots is an `int`. -/
theorem cmdline_iff (hlist : 0 < arglist) (hargv : myargv ≠ 0) {text : List Char}
    (htext : text.length < 2 ^ 31) (hspace : arglist + text.length < 2 ^ 64) :
    (∀ args, (∀ a ∈ args, nul ∉ a) → text = joined args →
      (RecordsArgs args arglist myargv ↔ args.length ≤ 2 ^ 28)) ∧
    (SlotsInBounds text arglist ↔ text.count nul ≠ 2 ^ 31 - 1) := by
  refine ⟨?_, slotsInBounds_iff htext⟩
  rintro args hargs rfl
  refine ⟨fun h => ?_, recordsArgs_of_le hargs hlist hargv hspace htext⟩
  by_contra hlen
  exact not_recordsArgs hargs hlist hargv hspace htext (by omega) h

/-- A command with an empty argument, and no command at all. -/
theorem cmdline_iff_empty :
    RecordsArgs [['l', 's'], [], ['.']] 8 64 ∧ RecordsArgs [] 8 64 ∧
      SlotsInBounds [nul, nul, 'a'] 8 :=
  ⟨((cmdline_iff (by decide) (by decide) (by decide) (by decide)).1 _ (by simp [nul]) rfl).mpr
      (by decide),
    ((cmdline_iff (by decide) (by decide) (by decide) (by decide)).1 _ (by simp) rfl).mpr (by decide),
    (@cmdline_iff 8 64 (by decide) (by decide) [nul, nul, 'a'] (by decide) (by decide)).2.mpr
      (by decide)⟩

theorem joined_replicate (n : Nat) : joined (List.replicate n []) = List.replicate n nul := by
  induction n with
  | zero => rfl
  | succ n ih =>
    unfold joined at ih ⊢
    rw [List.replicate_succ, List.flatMap_cons, ih, List.replicate_succ]
    rfl

/-- `2 ^ 28 + 1` empty arguments. -/
theorem cmdline_not_always :
    ¬ ∀ (args : List CStr) (arglist myargv : Int), (∀ a ∈ args, nul ∉ a) → 0 < arglist → myargv ≠ 0 →
      (joined args).length < 2 ^ 31 → arglist + (joined args).length < 2 ^ 64 →
        RecordsArgs args arglist myargv := by
  intro h
  have hargs : ∀ a ∈ List.replicate (2 ^ 28 + 1) ([] : CStr), nul ∉ a := fun a ha => by
    rw [List.eq_of_mem_replicate ha]
    exact List.not_mem_nil
  have hlen : (joined (List.replicate (2 ^ 28 + 1) [])).length = 2 ^ 28 + 1 := by
    rw [joined_replicate, List.length_replicate]
  have htext : (joined (List.replicate (2 ^ 28 + 1) [])).length < 2 ^ 31 := by rw [hlen]; decide
  have hspace : (8 : Int) + (joined (List.replicate (2 ^ 28 + 1) [])).length < 2 ^ 64 := by
    rw [hlen]
    decide
  exact not_recordsArgs hargs (by decide) (by decide) hspace htext
    (by rw [List.length_replicate]; decide) (h _ 8 64 hargs (by decide) (by decide) htext hspace)

end Arguments

end Adiak
