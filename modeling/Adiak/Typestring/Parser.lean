import Adiak.Memory

/-!
# The typestring parser

`parse_typestr`, `toplevel_type` and their helpers of `adiak.c`.

The parser walks the typestring with three cursors: the position `cur`, the end bound of the
region it may look at, and the variable arguments, from which it takes list and set lengths and
tuple arities. A position is an `int` that has only been counted up: a natural number, which overflows
at `2^31` (`advance`). An end bound is an `int` that may be negative, since `parse_typestr` narrows
`strlen` to `int`. The recursive call of the source is the parameter `self` of the container branches,
and `parseTypestrHelper` closes the recursion over an explicit depth.
-/

namespace Adiak

/-- The terminating NUL. -/
def nul : Char := Char.ofNat 0

/-- The C string at the start of a character array. -/
def cStr (s : List Char) : CStr := s.takeWhile (· ≠ nul)

theorem cStr_append_nul {cs rest : List Char} (h : nul ∉ cs) : cStr (cs ++ nul :: rest) = cs := by
  unfold cStr
  rw [List.takeWhile_append_of_pos fun c hc => ?_, List.takeWhile_cons_of_neg (by simp),
    List.append_nil]
  refine decide_eq_true fun hnul => h ?_
  rwa [← hnul]

/-- `typestr[i]`, for an index up to the terminating NUL. -/
def charAt (ts : CStr) (i : Nat) : Except Stop Char :=
  match ts[i]? with
  | some c => .ok c
  | none => if i = ts.length then .ok nul else .error .undefined

/-- A cursor that has been counted up. Signed overflow is undefined. -/
def advance (cur : Nat) : Except Stop Nat := if cur < 2 ^ 31 then .ok cur else .error .undefined

/-- `typestr[cur]`, for a cursor that has been counted up. -/
def charAtInt (ts : CStr) (cur : Nat) : Except Stop Char := do
  let cur ← advance cur
  charAt ts cur

theorem advance_of_lt {cur : Nat} (h : cur < 2 ^ 31) : advance cur = .ok cur := if_pos h

theorem advance_of_ge {cur : Nat} (h : 2 ^ 31 ≤ cur) : advance cur = .error .undefined :=
  if_neg (not_lt.mpr h)

theorem advance_eq_ok {cur cur' : Nat} : advance cur = .ok cur' ↔ cur < 2 ^ 31 ∧ cur = cur' := by
  unfold advance
  split_ifs with h
  · rw [Except.ok.injEq]
    exact (and_iff_right h).symm
  · exact iff_of_false (by rintro ⟨⟩) fun heq => h heq.1

theorem charAtInt_of_lt (ts : CStr) {cur : Nat} (h : cur < 2 ^ 31) :
    charAtInt ts cur = charAt ts cur := by
  rw [charAtInt, advance_of_lt h, ok_bind]

theorem charAtInt_of_ge (ts : CStr) {cur : Nat} (h : 2 ^ 31 ≤ cur) :
    charAtInt ts cur = .error .undefined := by
  rw [charAtInt, advance_of_ge h, error_bind]

theorem charAtInt_eq_ok {ts : CStr} {cur : Nat} {c : Char} :
    charAtInt ts cur = .ok c ↔ cur < 2 ^ 31 ∧ charAt ts cur = .ok c := by
  rcases Nat.lt_or_ge cur (2 ^ 31) with h | h
  · rw [charAtInt_of_lt ts h]
    exact (and_iff_right h).symm
  · rw [charAtInt_of_ge ts h]
    exact iff_of_false (by rintro ⟨⟩) fun heq => absurd heq.1 (not_lt.mpr h)

/-- `isspace` in the C locale. -/
def isSpace (c : Char) : Bool := c = ' ' || (9 ≤ c.toNat && c.toNat ≤ 13)

/-- The characters skipped in front of a type. -/
def isSeparator (c : Char) : Bool := isSpace c || c = ','

def isOpenBrace (c : Char) : Bool := c = '[' || c = '{' || c = '(' || c = '<'

def isCloseBrace (c : Char) : Bool := c = ']' || c = '}' || c = ')' || c = '>'

/-- The skipping loop: the position of the first character that is no separator. -/
def skipSeparators : List Char → Nat → Nat
  | [], cur => cur
  | c :: cs, cur => if isSeparator c then skipSeparators cs (cur + 1) else cur

/-! ## Braces and size suffixes -/

/-- The loop of `find_end_brace` over the next `n` characters. -/
def findEndBraceLoop (ts : CStr) (endchar : Char) : Nat → Nat → Int → Except Stop (Option Nat)
  | 0, _, _ => .ok none
  | n + 1, cur, depth => do
    let c ← charAt ts cur
    let depth := if isOpenBrace c then depth + 1 else depth
    let depth := if isCloseBrace c then depth - 1 else depth
    if depth = 0 ∧ c = endchar then .ok (some cur)
    else findEndBraceLoop ts endchar n (cur + 1) depth

/-- `find_end_brace`; `none` is `-1`. Its cursor stays in front of `typestr_end`, an `int`. -/
def findEndBrace (ts : CStr) (endchar : Char) (typestrStart : Nat) (typestrEnd : Int) :
    Except Stop (Option Nat) :=
  findEndBraceLoop ts endchar (typestrEnd - typestrStart).toNat typestrStart 0

/-- `parse_scalar_len_spec`: the size in bytes and the position of the last character of the
suffix; size `0` is no suffix, `-1` an unknown one. -/
def parseScalarLenSpec (ts : CStr) (pos : Nat) : Except Stop (Int × Nat) := do
  let c ← charAtInt ts (pos + 1)
  if c = '8' then .ok (1, pos + 1)
  else
    -- the second digit is read only behind a first one, so inside the string
    let d ← if c = '1' ∨ c = '3' ∨ c = '6' then charAtInt ts (pos + 2) else .ok nul
    if c = '1' ∧ d = '6' then .ok (2, pos + 2)
    else if c = '3' ∧ d = '2' then .ok (4, pos + 2)
    else if c = '6' ∧ d = '4' then .ok (8, pos + 2)
    else if '0' ≤ c ∧ c ≤ '9' then .ok (-1, pos)
    else .ok (0, pos)

/-! ## Scalars -/

/-- The `switch` on the specifier at `cur`: its base type and the position of its last
character. -/
def scalarType (ts : CStr) (isLong isLonglong isReference : Bool) (cur : Nat) (c : Char) :
    Except Stop (AdiakDatatype × Nat) :=
  match c with
  | 'd' => .ok (if isLong then (if isLonglong then baseLonglong else baseLong) else baseInt, cur)
  | 'u' => do
    let (len, cur) ← parseScalarLenSpec ts cur
    match len with
    | 0 => .ok (if isLong then (if isLonglong then baseUlonglong else baseUlong) else baseUint, cur)
    | 1 => .ok (baseU8, cur)
    | 2 => .ok (baseU16, cur)
    | 4 => .ok (baseUint, cur)
    | 8 => .ok (baseUlonglong, cur)
    | _ => .error .null
  | 'i' => do
    let (len, cur) ← parseScalarLenSpec ts cur
    match len with
    | 0 | 4 => .ok (baseInt, cur)
    | 1 => .ok (baseI8, cur)
    | 2 => .ok (baseI16, cur)
    | 8 => .ok (baseLonglong, cur)
    | _ => .error .null
  | 'f' => do
    let (len, cur) ← parseScalarLenSpec ts cur
    match len with
    | 0 | 8 => .ok (baseDouble, cur)
    | 4 => .ok (baseFloat, cur)
    | _ => .error .null
  | 'D' => .ok (baseDate, cur)
  | 't' => .ok (baseTimeval, cur)
  | 'v' => .ok (if isReference then baseVersionRef else baseVersion, cur)
  | 's' => .ok (if isReference then baseStringRef else baseString, cur)
  | 'r' => .ok (if isReference then baseCatstringRef else baseCatstring, cur)
  | 'j' => .ok (if isReference then baseJsonstringRef else baseJsonstring, cur)
  | 'p' => .ok (if isReference then basePathRef else basePath, cur)
  | _ => .error .null

/-- The branch for `%`, with `cur` behind it: the base type and the position behind the
specifier. -/
def parseScalar (ts : CStr) (isReference : Bool) (cur : Nat) :
    Except Stop (AdiakDatatype × Nat) := do
  let isLong := (← charAtInt ts cur) = 'l'
  let cur := if isLong then cur + 1 else cur
  let isLonglong := isLong && (← charAtInt ts cur) = 'l'
  let cur := if isLonglong then cur + 1 else cur
  let (t, cur) ← scalarType ts isLong isLonglong isReference cur (← charAtInt ts cur)
  let cur ← advance (cur + 1)
  .ok (t, cur)

/-! ## Containers -/

/-- What `parse_typestr_helper` hands back: the datatype, the remaining arguments and the value of
`*new_typestr_start`. -/
abbrev Parsed := AdiakDatatype × List VArg × Nat

/-- `parse_typestr_helper` as its own recursive calls see it: start, end, `is_reference`,
arguments and the old value of `*new_typestr_start`. -/
abbrev SelfCall := Nat → Int → Bool → List VArg → Nat → Except Stop Parsed

/-- The branch for `{` and `[`. -/
def parseListOrSet (self : SelfCall) (ts : CStr) (isList : Bool) (cur : Nat) (typestrEnd : Int)
    (isReference : Bool) (ap : List VArg) : Except Stop Parsed := do
  match ← findEndBrace ts (if isList then '}' else ']') cur typestrEnd with
  | none => .error .null
  | some endBrace =>
    let (numElements, ap) ← vaArgInt ap
    let (sub, ap, _) ← self (cur + 1) endBrace isReference ap cur
    .ok (.node (containerNode (if isList then .list else .set) isReference numElements) [sub],
      ap, endBrace + 1)

/-- The branch for `<`. -/
def parseRange (self : SelfCall) (ts : CStr) (cur : Nat) (typestrEnd : Int) (isReference : Bool)
    (ap : List VArg) : Except Stop Parsed := do
  match ← findEndBrace ts '>' cur typestrEnd with
  | none => .error .null
  | some endBrace =>
    let (sub, ap, _) ← self (cur + 1) endBrace isReference ap cur
    .ok (.node (containerNode .range isReference 2) [sub], ap, endBrace + 1)

/-- The loop over the `n` components of a tuple. Each call is handed `&cur`, so a component that
does not set `*new_typestr_start` leaves `cur` where it was. -/
def parseComponents (self : SelfCall) (endBrace : Nat) (isReference : Bool) :
    Nat → Nat → List VArg → Except Stop (List AdiakDatatype × List VArg)
  | 0, _, ap => .ok ([], ap)
  | n + 1, cur, ap => do
    let (sub, ap, cur) ← self cur endBrace isReference ap cur
    let (subs, ap) ← parseComponents self endBrace isReference n cur ap
    .ok (sub :: subs, ap)

/-- The branch for `(`. It leaves `*new_typestr_start` as it was. A negative arity makes `malloc`
fail and `memset` write through the null pointer. -/
def parseTuple (self : SelfCall) (ts : CStr) (cur : Nat) (typestrEnd : Int) (isReference : Bool)
    (ap : List VArg) (newTypestrStart : Nat) : Except Stop Parsed := do
  match ← findEndBrace ts ')' cur typestrEnd with
  | none => .error .null
  | some endBrace =>
    let (numElements, ap) ← vaArgInt ap
    if numElements < 0 then .error .undefined
    else
      let (subs, ap) ← parseComponents self endBrace isReference numElements.toNat (cur + 1) ap
      .ok (.node (containerNode .tuple isReference numElements) subs, ap, newTypestrStart)

/-- The branches of `parse_typestr_helper` on the character `c` at `cur`. -/
def parseBranch (self : SelfCall) (ts : CStr) (typestrEnd : Int) (isReference : Bool)
    (ap : List VArg) (newTypestrStart : Nat) (cur : Nat) (c : Char) : Except Stop Parsed :=
  if c = '{' ∨ c = '[' then parseListOrSet self ts (c = '{') cur typestrEnd isReference ap
  else if c = '<' then parseRange self ts cur typestrEnd isReference ap
  else if c = '(' then parseTuple self ts cur typestrEnd isReference ap newTypestrStart
  else if c = '%' then do
    let (t, cur) ← parseScalar ts isReference (cur + 1)
    .ok (t, ap, cur)
  -- `strchr` also finds the terminating NUL, so a node is allocated and no branch fills it
  else if c = nul then .ok (.node zeroNode [], ap, newTypestrStart)
  else .error .null

/-- `parse_typestr_helper`, to a given recursion depth. -/
def parseTypestrHelper (ts : CStr) : Nat → SelfCall
  | 0, _, _, _, _, _ => .error .fuel
  | depth + 1, typestrStart, typestrEnd, isReference, ap, newTypestrStart =>
    if typestrStart = typestrEnd then .error .null
    else do
      let cur := skipSeparators (ts.drop typestrStart) typestrStart
      let amp := (← charAtInt ts cur) = '&'
      let cur := if amp then cur + 1 else cur
      let c ← charAtInt ts cur
      parseBranch (parseTypestrHelper ts depth) ts typestrEnd (isReference || amp) ap
        newTypestrStart cur c

/-- `len` in `parse_typestr`: the length of the string, narrowed to `int`. -/
def intLength (ts : CStr) : Int := wrapInt ts.length

/-- `parse_typestr`: the datatype and the arguments left over. -/
def parseTypestr (typestr : List Char) (ap : List VArg) :
    Except Stop (AdiakDatatype × List VArg) := do
  let ts := cStr typestr
  let (t, ap, _) ← parseTypestrHelper ts (ts.length + 1) 0 (intLength ts) false ap 0
  .ok (t, ap)

theorem intLength_of_lt {ts : CStr} (h : ts.length < 2 ^ 31) : intLength ts = ts.length :=
  wrapInt_of_lt (by omega) (by omega)

/-- In a string shorter than `2^31`, the end bound is the length. -/
theorem parseTypestr_of_lt {typestr : List Char} (h : (cStr typestr).length < 2 ^ 31)
    (ap : List VArg) :
    parseTypestr typestr ap =
      (do
        let (t, ap, _) ← parseTypestrHelper (cStr typestr) ((cStr typestr).length + 1) 0
          (cStr typestr).length false ap 0
        .ok (t, ap)) := by
  unfold parseTypestr
  dsimp only
  rw [intLength_of_lt h]

/-- `adiak_new_datatype`. -/
def adiakNewDatatype (typestr : List Char) (ap : List VArg) : Except Stop AdiakDatatype := do
  let (t, _) ← parseTypestr typestr ap
  .ok t

/-! ## The top-level scanner -/

/-- The `switch` of `toplevel_type` behind the `%`. -/
def toplevelScalar (cur : CStr) : Except Stop AdiakType :=
  match cur with
  | 'l' :: 'd' :: _ => .ok .long
  | 'l' :: 'u' :: _ => .ok .ulong
  | 'l' :: 'l' :: 'd' :: _ => .ok .longlong
  | 'l' :: 'l' :: 'u' :: _ => .ok .ulonglong
  | 'd' :: _ => .ok .int
  | 'i' :: _ => do
    let (len, _) ← parseScalarLenSpec cur 0
    .ok (if len = 8 then .longlong else .int)
  | 'u' :: _ => do
    let (len, _) ← parseScalarLenSpec cur 0
    .ok (if len = 8 then .ulonglong else .uint)
  | 'f' :: _ => .ok .double
  | 'D' :: _ => .ok .date
  | 't' :: _ => .ok .timeval
  | 'v' :: _ => .ok .version
  | 's' :: _ => .ok .string
  | 'r' :: _ => .ok .catstring
  | 'j' :: _ => .ok .jsonstring
  | 'p' :: _ => .ok .path
  | _ => .ok .unset

/-- The characters `toplevel_type` skips. -/
def isFront (c : Char) : Bool := isSeparator c || c = '&'

/-- `toplevel_type`. -/
def toplevelType (typestr : List Char) : Except Stop AdiakType :=
  match (cStr typestr).dropWhile isFront with
  | '%' :: cur => toplevelScalar cur
  | '<' :: _ => .ok .range
  | '[' :: _ => .ok .set
  | '{' :: _ => .ok .list
  | '(' :: _ => .ok .tuple
  | _ => .ok .unset

end Adiak
