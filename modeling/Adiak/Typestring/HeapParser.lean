import Adiak.Library.Traced
import Adiak.Typestring.Toplevel

/-!
# The parser on the heap

`parse_typestr`, `toplevel_type` and their helpers of `adiak.c` once more, with what they do to memory:
the characters that they read, the recursive calls, and the blocks that they allocate and release.

1. `Access` is an event. A block is numbered by the allocations in front of it.
2. `TypePtr` is a pointer to a datatype, with the blocks of the node and of its `subtype` array.
3. The parser follows the source also where it fails: what it has allocated goes through
   `free_adiak_type` (`abandon`).
4. `parseTypestr_follows`: without the log and the blocks it is the parser that returns datatypes.
-/

namespace Adiak

namespace Heap

/-! ## Memory -/

/-- What the parser does to memory. `freeStatic` is a call of `free` on a static base type. -/
inductive Access where
  | read (i : Nat)
  | call (typestrStart : Nat) (typestrEnd : Int)
  | malloc (block : Nat)
  | free (block : Nat)
  | freeStatic
  deriving DecidableEq

/-- An `adiak_datatype_t *`: `NULL`, a static base type, or a node of the heap. `array` is the block
behind `subtype`, `none` if that is `NULL`. -/
inductive TypePtr where
  | null
  | static (t : AdiakDatatype)
  | node (block : Nat) (info : TypeNode) (array : Option Nat) (subtype : List TypePtr)

abbrev Run := Traced Access Stop

open Traced (tell lift fail attempt)

def Access.isMalloc : Access → Bool
  | .malloc _ => true
  | _ => false

/-- `typestr[i]`. -/
def readChar (ts : CStr) (i : Nat) : Run Char := do
  tell (.read i)
  lift (charAt ts i)

/-- `typestr[cur]`, for a cursor that has been counted up. -/
def readCharInt (ts : CStr) (cur : Nat) : Run Char := do
  let cur ← lift (advance cur)
  readChar ts cur

/-- `malloc` of a node. -/
def mallocNode : Run Nat := fun log =>
  (log ++ [.malloc (log.countP Access.isMalloc)], .ok (log.countP Access.isMalloc))

/-- `malloc` of an array of `n` pointers. With `zeroBlock`, `malloc(0)` returns a block. -/
def mallocArray (zeroBlock : Bool) (n : Nat) : Run (Option Nat) :=
  if n = 0 ∧ zeroBlock = false then pure none
  else do
    let block ← mallocNode
    pure (some block)

mutual

/-- `free_adiak_type`. -/
def freeAdiakType : TypePtr → Run Unit
  | .null => pure ()
  | .static t => if isBasetype t.dtype then pure () else tell .freeStatic
  | .node block info array subtype =>
    if isBasetype info.dtype then pure ()
    else do
      freeAdiakTypes subtype
      match subtype, array with
      | _ :: _, some array => tell (.free array)
      | _, _ => pure ()
      tell (.free block)

/-- The loop over the subtypes. -/
def freeAdiakTypes : List TypePtr → Run Unit
  | [] => pure ()
  | t :: ts => do
    freeAdiakType t
    freeAdiakTypes ts

end

/-- The label `error`, with the node as it is at that point. -/
def abandon {α : Type} (t : TypePtr) : Run α := do
  freeAdiakType t
  fail .null

/-! ## Characters -/

/-- The skipping loop, of at most `n` rounds. -/
def skipLoop (ts : CStr) : Nat → Nat → Run Nat
  | 0, _ => fail .fuel
  | n + 1, cur => do
    let c ← readCharInt ts cur
    if isSeparator c then skipLoop ts n (cur + 1) else pure cur

/-- The loop of `find_end_brace`. -/
def findEndBraceLoop (ts : CStr) (endchar : Char) : Nat → Nat → Int → Run (Option Nat)
  | 0, _, _ => pure none
  | n + 1, cur, depth => do
    let c ← readChar ts cur
    let depth := if isOpenBrace c then depth + 1 else depth
    let depth := if isCloseBrace c then depth - 1 else depth
    if depth = 0 ∧ c = endchar then pure (some cur)
    else findEndBraceLoop ts endchar n (cur + 1) depth

/-- `find_end_brace`. -/
def findEndBrace (ts : CStr) (endchar : Char) (typestrStart : Nat) (typestrEnd : Int) :
    Run (Option Nat) :=
  findEndBraceLoop ts endchar (typestrEnd - typestrStart).toNat typestrStart 0

/-- `typestr[pos]` in `parse_scalar_len_spec`, which is handed a pointer to the character `base`. -/
def readBehind (ts : CStr) (base pos : Nat) : Run Char := do
  let pos ← lift (advance pos)
  readChar ts (base + pos)

/-- `parse_scalar_len_spec`. -/
def parseScalarLenSpec (ts : CStr) (base pos : Nat) : Run (Int × Nat) := do
  let c ← readBehind ts base (pos + 1)
  if c = '8' then pure (1, pos + 1)
  else
    let d ← if c = '1' ∨ c = '3' ∨ c = '6' then readBehind ts base (pos + 2) else pure nul
    if c = '1' ∧ d = '6' then pure (2, pos + 2)
    else if c = '3' ∧ d = '2' then pure (4, pos + 2)
    else if c = '6' ∧ d = '4' then pure (8, pos + 2)
    else if '0' ≤ c ∧ c ≤ '9' then pure (-1, pos)
    else pure (0, pos)

/-! ## Scalars -/

/-- The `switch` on the specifier at `cur`. -/
def scalarType (ts : CStr) (isLong isLonglong isReference : Bool) (cur : Nat) (c : Char) :
    Run (AdiakDatatype × Nat) :=
  match c with
  | 'd' => pure (if isLong then (if isLonglong then baseLonglong else baseLong) else baseInt, cur)
  | 'u' => do
    let (len, cur) ← parseScalarLenSpec ts 0 cur
    match len with
    | 0 => pure (if isLong then (if isLonglong then baseUlonglong else baseUlong) else baseUint, cur)
    | 1 => pure (baseU8, cur)
    | 2 => pure (baseU16, cur)
    | 4 => pure (baseUint, cur)
    | 8 => pure (baseUlonglong, cur)
    | _ => fail .null
  | 'i' => do
    let (len, cur) ← parseScalarLenSpec ts 0 cur
    match len with
    | 0 | 4 => pure (baseInt, cur)
    | 1 => pure (baseI8, cur)
    | 2 => pure (baseI16, cur)
    | 8 => pure (baseLonglong, cur)
    | _ => fail .null
  | 'f' => do
    let (len, cur) ← parseScalarLenSpec ts 0 cur
    match len with
    | 0 | 8 => pure (baseDouble, cur)
    | 4 => pure (baseFloat, cur)
    | _ => fail .null
  | 'D' => pure (baseDate, cur)
  | 't' => pure (baseTimeval, cur)
  | 'v' => pure (if isReference then baseVersionRef else baseVersion, cur)
  | 's' => pure (if isReference then baseStringRef else baseString, cur)
  | 'r' => pure (if isReference then baseCatstringRef else baseCatstring, cur)
  | 'j' => pure (if isReference then baseJsonstringRef else baseJsonstring, cur)
  | 'p' => pure (if isReference then basePathRef else basePath, cur)
  | _ => fail .null

/-- The branch for `%`, with `cur` behind it. -/
def parseScalar (ts : CStr) (isReference : Bool) (cur : Nat) : Run (AdiakDatatype × Nat) := do
  let isLong := (← readCharInt ts cur) = 'l'
  let cur := if isLong then cur + 1 else cur
  let isLonglong := isLong && (← readCharInt ts cur) = 'l'
  let cur := if isLonglong then cur + 1 else cur
  let (t, cur) ← scalarType ts isLong isLonglong isReference cur (← readCharInt ts cur)
  let cur ← lift (advance (cur + 1))
  pure (t, cur)

/-! ## Containers -/

/-- What `parse_typestr_helper` hands back. -/
abbrev ParsedPtr := TypePtr × List VArg × Nat

abbrev SelfRun := Nat → Int → Bool → List VArg → Nat → Run ParsedPtr

section Branches

variable (zeroBlock : Bool) (self : SelfRun) (ts : CStr)

/-- The branch for `{` and `[`, with its node. -/
def parseListOrSet (node : Nat) (isList : Bool) (cur : Nat) (typestrEnd : Int) (isReference : Bool)
    (ap : List VArg) : Run ParsedPtr := do
  match ← findEndBrace ts (if isList then '}' else ']') cur typestrEnd with
  | none => abandon (.node node zeroNode none [])
  | some endBrace =>
    let (numElements, ap) ← lift (vaArgInt ap)
    let info := containerNode (if isList then .list else .set) isReference numElements
    let array ← mallocArray zeroBlock 1
    match ← attempt Stop.null (self (cur + 1) endBrace isReference ap cur) with
    | none => abandon (.node node info array [.null])
    | some (sub, ap, _) => pure (.node node info array [sub], ap, endBrace + 1)

/-- The branch for `<`. -/
def parseRange (node cur : Nat) (typestrEnd : Int) (isReference : Bool) (ap : List VArg) :
    Run ParsedPtr := do
  match ← findEndBrace ts '>' cur typestrEnd with
  | none => abandon (.node node zeroNode none [])
  | some endBrace =>
    let info := containerNode .range isReference 2
    let array ← mallocArray zeroBlock 1
    match ← attempt Stop.null (self (cur + 1) endBrace isReference ap cur) with
    | none => abandon (.node node info array [.null])
    | some (sub, ap, _) => pure (.node node info array [sub], ap, endBrace + 1)

/-- The loop over the `n` components left of a tuple. Behind the components that are there, its
array has been zeroed. -/
def parseComponents (node : List TypePtr → TypePtr) (endBrace : Nat) (isReference : Bool) :
    Nat → List TypePtr → Nat → List VArg → Run (List TypePtr × List VArg)
  | 0, subs, _, ap => pure (subs, ap)
  | n + 1, subs, cur, ap => do
    match ← attempt Stop.null (self cur endBrace isReference ap cur) with
    | none => abandon (node (subs ++ List.replicate (n + 1) .null))
    | some (sub, ap, cur) => parseComponents node endBrace isReference n (subs ++ [sub]) cur ap

/-- The branch for `(`. -/
def parseTuple (node cur : Nat) (typestrEnd : Int) (isReference : Bool) (ap : List VArg)
    (newTypestrStart : Nat) : Run ParsedPtr := do
  match ← findEndBrace ts ')' cur typestrEnd with
  | none => abandon (.node node zeroNode none [])
  | some endBrace =>
    let (numElements, ap) ← lift (vaArgInt ap)
    if numElements < 0 then fail .undefined
    else
      let info := containerNode .tuple isReference numElements
      let array ← mallocArray zeroBlock numElements.toNat
      let (subs, ap) ← parseComponents self (.node node info array) endBrace isReference
        numElements.toNat [] (cur + 1) ap
      pure (.node node info array subs, ap, newTypestrStart)

/-- The branches of `parse_typestr_helper` on the character `c` at `cur`. -/
def parseBranch (typestrEnd : Int) (isReference : Bool) (ap : List VArg) (newTypestrStart cur : Nat)
    (c : Char) : Run ParsedPtr :=
  if c = '{' ∨ c = '[' then do
    let node ← mallocNode
    parseListOrSet zeroBlock self ts node (c = '{') cur typestrEnd isReference ap
  else if c = '<' then do
    let node ← mallocNode
    parseRange zeroBlock self ts node cur typestrEnd isReference ap
  else if c = '(' then do
    let node ← mallocNode
    parseTuple zeroBlock self ts node cur typestrEnd isReference ap newTypestrStart
  else if c = '%' then do
    let (t, cur) ← parseScalar ts isReference (cur + 1)
    pure (.static t, ap, cur)
  else if c = nul then do
    let node ← mallocNode
    pure (.node node zeroNode none [], ap, newTypestrStart)
  else fail .null

end Branches

/-- `parse_typestr_helper`, to a given recursion depth. -/
def parseTypestrHelper (zeroBlock : Bool) (ts : CStr) : Nat → SelfRun
  | 0, _, _, _, _, _ => fail .fuel
  | depth + 1, typestrStart, typestrEnd, isReference, ap, newTypestrStart => do
    tell (.call typestrStart typestrEnd)
    if typestrStart = typestrEnd then fail .null
    else
      let cur ← skipLoop ts (ts.length + 1) typestrStart
      let amp := (← readCharInt ts cur) = '&'
      let cur := if amp then cur + 1 else cur
      let c ← readCharInt ts cur
      parseBranch zeroBlock (parseTypestrHelper zeroBlock ts depth) ts typestrEnd (isReference || amp)
        ap newTypestrStart cur c

/-- `parse_typestr`. -/
def parseTypestr (zeroBlock : Bool) (typestr : List Char) (ap : List VArg) :
    Run (TypePtr × List VArg) := do
  let ts := cStr typestr
  let (t, ap, _) ← parseTypestrHelper zeroBlock ts (ts.length + 1) 0 (intLength ts) false ap 0
  pure (t, ap)

/-- In a string shorter than `2^31`, the end bound is the length. -/
theorem parseTypestr_of_lt (zeroBlock : Bool) {typestr : List Char} (h : (cStr typestr).length < 2 ^ 31)
    (ap : List VArg) :
    parseTypestr zeroBlock typestr ap =
      (do
        let (t, ap, _) ← parseTypestrHelper zeroBlock (cStr typestr) ((cStr typestr).length + 1) 0
          (cStr typestr).length false ap 0
        pure (t, ap)) := by
  rw [parseTypestr, intLength_of_lt h]

/-! ## The top-level scanner -/

/-- The first loop of `toplevel_type`, of at most `n` rounds. -/
def frontLoop (ts : CStr) : Nat → Nat → Run Nat
  | 0, _ => fail .fuel
  | n + 1, cur => do
    let c ← readChar ts cur
    if isFront c then frontLoop ts n (cur + 1) else pure cur

/-- The `switch` of `toplevel_type` behind the `%`. -/
def toplevelScalar (ts : CStr) (cur : Nat) : Run AdiakType := do
  match ← readChar ts cur with
  | 'l' =>
    match ← readChar ts (cur + 1) with
    | 'd' => pure .long
    | 'u' => pure .ulong
    | 'l' =>
      match ← readChar ts (cur + 2) with
      | 'd' => pure .longlong
      | 'u' => pure .ulonglong
      | _ => pure .unset
    | _ => pure .unset
  | 'd' => pure .int
  | 'i' =>
    let (len, _) ← parseScalarLenSpec ts cur 0
    pure (if len = 8 then .longlong else .int)
  | 'u' =>
    let (len, _) ← parseScalarLenSpec ts cur 0
    pure (if len = 8 then .ulonglong else .uint)
  | 'f' => pure .double
  | 'D' => pure .date
  | 't' => pure .timeval
  | 'v' => pure .version
  | 's' => pure .string
  | 'r' => pure .catstring
  | 'j' => pure .jsonstring
  | 'p' => pure .path
  | _ => pure .unset

/-- `toplevel_type`. -/
def toplevelType (typestr : List Char) : Run AdiakType := do
  let ts := cStr typestr
  let cur ← frontLoop ts (ts.length + 1) 0
  match ← readChar ts cur with
  | '%' => toplevelScalar ts (cur + 1)
  | '<' => pure .range
  | '[' => pure .set
  | '{' => pure .list
  | '(' => pure .tuple
  | _ => pure .unset

/-! ## Without blocks -/

mutual

/-- The datatype behind a pointer. -/
def TypePtr.erase : TypePtr → AdiakDatatype
  | .null => .null
  | .static t => t
  | .node _ info _ subtype => .node info (eraseAll subtype)

def eraseAll : List TypePtr → List AdiakDatatype
  | [] => []
  | t :: ts => t.erase :: eraseAll ts

end

theorem eraseAll_eq_map (ts : List TypePtr) : eraseAll ts = ts.map TypePtr.erase := by
  induction ts with
  | nil => rfl
  | cons t ts ih => rw [eraseAll, ih, List.map_cons]

@[elab_as_elim, induction_eliminator]
theorem TypePtr.induction {P : TypePtr → Prop} (null : P .null) (static : ∀ t, P (.static t))
    (node : ∀ block info array subtype, (∀ t ∈ subtype, P t) → P (.node block info array subtype)) :
    ∀ t, P t :=
  @TypePtr.rec P (fun l => ∀ t ∈ l, P t) null static node (fun _ h => absurd h List.not_mem_nil)
    (fun _ _ ht hl => List.forall_mem_cons.mpr ⟨ht, hl⟩)

mutual

/-- The calls of `free` in `free_adiak_type`. -/
def TypePtr.released : TypePtr → List Access
  | .null => []
  | .static t => if isBasetype t.dtype then [] else [.freeStatic]
  | .node block info array subtype =>
    if isBasetype info.dtype then []
    else releasedAll subtype ++ ((match subtype, array with
      | _ :: _, some array => [.free array]
      | _, _ => []) ++ [.free block])

def releasedAll : List TypePtr → List Access
  | [] => []
  | t :: ts => t.released ++ releasedAll ts

end

theorem releasedAll_eq_flatMap (ts : List TypePtr) :
    releasedAll ts = ts.flatMap TypePtr.released := by
  induction ts with
  | nil => rfl
  | cons t ts ih => rw [releasedAll, ih, List.flatMap_cons]

/-- `free_adiak_type` only releases. -/
theorem released_cases {t : TypePtr} {a : Access} (ha : a ∈ t.released) :
    a = .freeStatic ∨ ∃ block, a = .free block := by
  induction t with
  | null => exact absurd ha List.not_mem_nil
  | static t =>
    unfold TypePtr.released at ha
    split_ifs at ha
    · exact absurd ha List.not_mem_nil
    · exact .inl (List.mem_singleton.mp ha)
  | node block info array subtype ih =>
    unfold TypePtr.released at ha
    split_ifs at ha
    · exact absurd ha List.not_mem_nil
    · rw [releasedAll_eq_flatMap, List.mem_append, List.mem_append, List.mem_singleton] at ha
      rcases ha with ha | ha | rfl
      · obtain ⟨t, ht, ha⟩ := List.mem_flatMap.mp ha
        exact ih t ht ha
      · split at ha
        · exact .inr ⟨_, List.mem_singleton.mp ha⟩
        · cases ha
      · exact .inr ⟨block, rfl⟩

theorem freeAdiakType_eq (t : TypePtr) (log : List Access) :
    freeAdiakType t log = (log ++ t.released, .ok ()) := by
  induction t generalizing log with
  | null => rw [TypePtr.released, List.append_nil]; rfl
  | static t =>
    unfold freeAdiakType TypePtr.released
    split_ifs
    · rw [List.append_nil]; rfl
    · rfl
  | node block info array subtype ih =>
    have hloop : ∀ log, freeAdiakTypes subtype log = (log ++ releasedAll subtype, .ok ()) := by
      induction subtype with
      | nil => intro log; rw [releasedAll, List.append_nil]; rfl
      | cons t ts ihts =>
        intro log
        rw [freeAdiakTypes, Traced.bind_apply, ih t List.mem_cons_self, releasedAll]
        dsimp only
        rw [ihts fun u hu => ih u (List.mem_cons_of_mem t hu), List.append_assoc]
    unfold freeAdiakType TypePtr.released
    split_ifs
    · rw [List.append_nil]; rfl
    · rw [Traced.bind_apply, hloop, ← List.append_assoc]
      cases subtype with
      | nil => rfl
      | cons t ts =>
        cases array with
        | none => rfl
        | some array =>
          rw [← List.append_assoc]
          rfl

section Follows

open Traced (follows_pure follows_lift follows_fail)

variable {ts : CStr}

theorem abandon_follows {α β : Type} (g : α → β) (t : TypePtr) :
    Traced.Follows g (abandon t : Run α) (.error .null) :=
  Traced.Follows.bind_left (fun log => ⟨_, _, freeAdiakType_eq t log⟩) fun _ => follows_fail g _

theorem readChar_follows (ts : CStr) (i : Nat) : Traced.Follows id (readChar ts i) (charAt ts i) :=
  Traced.Follows.bind_left (fun _ => ⟨_, _, rfl⟩) fun _ => follows_lift _

theorem readCharInt_follows (ts : CStr) (cur : Nat) :
    Traced.Follows id (readCharInt ts cur) (charAtInt ts cur) :=
  (follows_lift _).bind fun cur => readChar_follows ts cur

theorem readBehind_follows (pre w : List Char) (pos : Nat) :
    Traced.Follows id (readBehind (pre ++ w) pre.length pos) (charAtInt w pos) := by
  refine (follows_lift _).bind fun pos => ?_
  have h := readChar_follows (pre ++ w) (pre.length + pos)
  rwa [charAt_add] at h

theorem mallocArray_returns (zeroBlock : Bool) (n : Nat) (log : List Access) :
    ∃ log' array, mallocArray zeroBlock n log = (log', .ok array) := by
  unfold mallocArray
  split_ifs
  · exact ⟨_, _, rfl⟩
  · exact ⟨_, _, rfl⟩

theorem findEndBraceLoop_follows (endchar : Char) (n cur : Nat) (depth : Int) :
    Traced.Follows id (findEndBraceLoop ts endchar n cur depth)
      (Adiak.findEndBraceLoop ts endchar n cur depth) := by
  induction n generalizing cur depth with
  | zero => exact follows_pure id none
  | succ n ih =>
    refine (readChar_follows ts cur).bind fun c => ?_
    dsimp only [id]
    by_cases hstop : (if isCloseBrace c = true then (if isOpenBrace c = true then depth + 1 else depth) - 1
        else if isOpenBrace c = true then depth + 1 else depth) = 0 ∧ c = endchar
    · rw [if_pos hstop, if_pos hstop]
      exact follows_pure id _
    · rw [if_neg hstop, if_neg hstop]
      exact ih _ _

theorem parseScalarLenSpec_follows (pre w : List Char) (pos : Nat) :
    Traced.Follows id (parseScalarLenSpec (pre ++ w) pre.length pos)
      (Adiak.parseScalarLenSpec w pos) := by
  refine (readBehind_follows pre w _).bind fun c => ?_
  dsimp only [id]
  by_cases h8 : c = '8'
  · rw [if_pos h8, if_pos h8]
    exact follows_pure id _
  rw [if_neg h8, if_neg h8]
  by_cases hfirst : c = '1' ∨ c = '3' ∨ c = '6'
  · rw [if_pos hfirst, if_pos hfirst]
    refine (readBehind_follows pre w _).bind fun d => ?_
    dsimp only [id]
    split_ifs <;> exact follows_pure id _
  · rw [if_neg hfirst, if_neg hfirst]
    refine (follows_pure id nul).bind fun d => ?_
    dsimp only [id]
    split_ifs <;> exact follows_pure id _

/-- A function to follow, kept apart from its value. -/
theorem follows_of_eq {α : Type} {x : Run α} {y : Except Stop α}
    (h : ∀ z, z = y → Traced.Follows id x z) : Traced.Follows id x y := h y rfl

theorem scalarType_follows (isLong isLonglong isReference : Bool) (cur : Nat) (c : Char) :
    Traced.Follows id (scalarType ts isLong isLonglong isReference cur c)
      (Adiak.scalarType ts isLong isLonglong isReference cur c) := by
  unfold scalarType
  split
  iterate 1
    · exact follows_pure id _
  iterate 3
    · refine (parseScalarLenSpec_follows [] ts _).bind fun r => follows_of_eq fun z hz => ?_
      obtain ⟨len, pos⟩ := r
      dsimp only [id] at hz ⊢
      split
      all_goals
        subst hz
        first
        | exact follows_pure id _
        | (split <;> first | contradiction | exact follows_fail id _)
  iterate 7
    · exact follows_pure id _
  · unfold Adiak.scalarType
    split <;> first | contradiction | exact follows_fail id _

theorem parseScalar_follows (isReference : Bool) (cur : Nat) :
    Traced.Follows id (parseScalar ts isReference cur) (Adiak.parseScalar ts isReference cur) := by
  refine (readCharInt_follows ts _).bind fun c₁ => ?_
  refine (readCharInt_follows ts _).bind fun c₂ => ?_
  refine (readCharInt_follows ts _).bind fun c₃ => ?_
  refine (scalarType_follows _ _ _ _ _).bind fun r => ?_
  exact (follows_lift _).bind fun cur => follows_pure id _

/-- What `parse_typestr_helper` hands back, without blocks. -/
def eraseParsed (r : ParsedPtr) : Parsed := (r.1.erase, r.2.1, r.2.2)

/-- The recursive calls, without their logs. -/
def SelfFollows (run : SelfRun) (self : SelfCall) : Prop :=
  ∀ start typestrEnd ref ap new,
    Traced.Follows eraseParsed (run start typestrEnd ref ap new) (self start typestrEnd ref ap new)

variable {zeroBlock : Bool} {run : SelfRun} {self : SelfCall}

/-- The only component of a list, set or range. -/
theorem element_follows {node : Nat} {info : TypeNode} (hself : SelfFollows run self)
    (start endBrace : Nat) (ref : Bool) (ap : List VArg) (cur : Nat) :
    Traced.Follows eraseParsed
      (do
        let array ← mallocArray zeroBlock 1
        match ← attempt Stop.null (run start endBrace ref ap cur) with
        | none => abandon (.node node info array [.null])
        | some (sub, ap, _) => pure (.node node info array [sub], ap, endBrace + 1))
      (do
        let (sub, ap, _) ← self start endBrace ref ap cur
        .ok (.node info [sub], ap, endBrace + 1)) := by
  refine Traced.Follows.bind_left (mallocArray_returns zeroBlock 1) fun array => ?_
  refine (hself start endBrace ref ap cur).attempt_bind (fun r => ?_) (abandon_follows _ _)
  exact follows_pure eraseParsed _

theorem parseListOrSet_follows (hself : SelfFollows run self) (node : Nat) (isList : Bool)
    (cur : Nat) (typestrEnd : Int) (ref : Bool) (ap : List VArg) :
    Traced.Follows eraseParsed (parseListOrSet zeroBlock run ts node isList cur typestrEnd ref ap)
      (Adiak.parseListOrSet self ts isList cur typestrEnd ref ap) := by
  refine (findEndBraceLoop_follows _ _ _ _).bind fun brace => ?_
  cases brace with
  | none => exact abandon_follows _ _
  | some endBrace =>
    refine (follows_lift _).bind fun n => ?_
    exact element_follows hself _ _ _ _ _

theorem parseRange_follows (hself : SelfFollows run self) (node cur : Nat) (typestrEnd : Int)
    (ref : Bool) (ap : List VArg) :
    Traced.Follows eraseParsed (parseRange zeroBlock run ts node cur typestrEnd ref ap)
      (Adiak.parseRange self ts cur typestrEnd ref ap) := by
  refine (findEndBraceLoop_follows _ _ _ _).bind fun brace => ?_
  cases brace with
  | none => exact abandon_follows _ _
  | some endBrace => exact element_follows hself _ _ _ _ _

theorem parseComponents_follows (hself : SelfFollows run self) (node : List TypePtr → TypePtr)
    (endBrace : Nat) (ref : Bool) (n : Nat) (subs : List TypePtr) (cur : Nat) (ap : List VArg) :
    Traced.Follows (fun r => (eraseAll r.1, r.2)) (parseComponents run node endBrace ref n subs cur ap)
      (do
        let (rest, ap) ← Adiak.parseComponents self endBrace ref n cur ap
        .ok (eraseAll subs ++ rest, ap)) := by
  induction n generalizing subs cur ap with
  | zero =>
    show Traced.Follows _ (pure (subs, ap)) (Except.ok (eraseAll subs ++ [], ap))
    rw [List.append_nil]
    exact follows_pure (fun r : List TypePtr × List VArg => (eraseAll r.1, r.2)) _
  | succ n ih =>
    rw [Adiak.parseComponents, bind_assoc]
    refine (hself cur endBrace ref ap cur).attempt_bind (fun r => ?_) (abandon_follows _ _)
    obtain ⟨sub, ap₁, cur₁⟩ := r
    have hrec := ih (subs ++ [sub]) cur₁ ap₁
    intro log
    rw [hrec log]
    simp only [eraseParsed, bind_assoc, eraseAll_eq_map, List.map_append, List.map_singleton,
      List.append_assoc, List.singleton_append, ok_bind]

theorem parseTuple_follows (hself : SelfFollows run self) (node cur : Nat) (typestrEnd : Int)
    (ref : Bool) (ap : List VArg) (new : Nat) :
    Traced.Follows eraseParsed (parseTuple zeroBlock run ts node cur typestrEnd ref ap new)
      (Adiak.parseTuple self ts cur typestrEnd ref ap new) := by
  refine (findEndBraceLoop_follows _ _ _ _).bind fun brace => ?_
  cases brace with
  | none => exact abandon_follows _ _
  | some endBrace =>
    refine (follows_lift _).bind fun r => ?_
    obtain ⟨n, ap₁⟩ := r
    dsimp only [id]
    split_ifs with hneg
    · exact follows_fail _ _
    · refine Traced.Follows.bind_left (mallocArray_returns zeroBlock n.toNat) fun array => ?_
      have hcomps := parseComponents_follows hself
        (TypePtr.node node (containerNode .tuple ref n) array) endBrace ref n.toNat [] (cur + 1) ap₁
      have hnil : (do
          let (rest, ap) ← Adiak.parseComponents self endBrace ref n.toNat (cur + 1) ap₁
          Except.ok (eraseAll [] ++ rest, ap)) =
            Adiak.parseComponents self endBrace ref n.toNat (cur + 1) ap₁ := by
        cases Adiak.parseComponents self endBrace ref n.toNat (cur + 1) ap₁ <;> rfl
      rw [hnil] at hcomps
      exact hcomps.bind fun r => follows_pure eraseParsed _

theorem mallocNode_returns (log : List Access) :
    ∃ log' node, mallocNode log = (log', .ok node) := ⟨_, _, rfl⟩

theorem parseBranch_follows (hself : SelfFollows run self) (typestrEnd : Int) (ref : Bool)
    (ap : List VArg) (new cur : Nat) (c : Char) :
    Traced.Follows eraseParsed (parseBranch zeroBlock run ts typestrEnd ref ap new cur c)
      (Adiak.parseBranch self ts typestrEnd ref ap new cur c) := by
  unfold parseBranch Adiak.parseBranch
  split_ifs
  · exact Traced.Follows.bind_left mallocNode_returns fun _ => parseListOrSet_follows hself _ _ _ _ _ _
  · exact Traced.Follows.bind_left mallocNode_returns fun _ => parseRange_follows hself _ _ _ _ _
  · exact Traced.Follows.bind_left mallocNode_returns fun _ => parseTuple_follows hself _ _ _ _ _ _
  · exact (parseScalar_follows _ _).bind fun r => follows_pure eraseParsed _
  · exact Traced.Follows.bind_left mallocNode_returns fun _ => follows_pure eraseParsed _
  · exact follows_fail _ _

/-! ## Skipping -/

theorem charAt_of_lt {i : Nat} (h : i < ts.length) : charAt ts i = .ok ts[i] := by
  rw [charAt, List.getElem?_eq_getElem h]

theorem charAt_of_gt {i : Nat} (h : ts.length < i) : charAt ts i = .error .undefined := by
  rw [charAt, List.getElem?_eq_none h.le]
  exact if_neg h.ne'

/-- The loop stops at the NUL, if not in front of it, or its cursor overflows. -/
theorem skipLoop_follows {n cur : Nat} (hcur : cur ≤ ts.length) (hn : ts.length < n + cur) :
    Traced.Follows id (skipLoop ts n cur) (advance (skipSeparators (ts.drop cur) cur)) := by
  induction n generalizing cur with
  | zero => omega
  | succ n ih =>
    have hread := readCharInt_follows ts cur
    rcases Nat.lt_or_ge cur (2 ^ 31) with hfits | hlong
    · rw [charAtInt_of_lt ts hfits] at hread
      rcases Nat.lt_or_eq_of_le hcur with hlt | rfl
      · rw [charAt_of_lt hlt] at hread
        rw [List.drop_eq_getElem_cons hlt, skipSeparators]
        refine hread.bind_ok fun c hc => ?_
        obtain rfl : c = ts[cur] := hc
        split_ifs
        · exact ih hlt (by omega)
        · rw [advance_of_lt hfits]
          exact follows_pure id cur
      · rw [charAt_length] at hread
        rw [List.drop_length, skipSeparators, advance_of_lt hfits]
        refine hread.bind_ok fun c hc => ?_
        obtain rfl : c = nul := hc
        rw [if_neg (by decide)]
        exact follows_pure id _
    · rw [charAtInt_of_ge ts hlong] at hread
      have hskip : 2 ^ 31 ≤ skipSeparators (ts.drop cur) cur := by
        rw [skipSeparators_eq]
        omega
      rw [advance_of_ge hskip]
      exact hread.bind_error id _

theorem parseTypestrHelper_follows (zeroBlock : Bool) (ts : CStr) (depth : Nat) :
    SelfFollows (parseTypestrHelper zeroBlock ts depth) (Adiak.parseTypestrHelper ts depth) := by
  induction depth with
  | zero => exact fun _ _ _ _ _ => follows_fail _ _
  | succ depth ih =>
    intro start typestrEnd ref ap new
    refine Traced.Follows.bind_left (fun _ => ⟨_, _, rfl⟩) fun _ => ?_
    unfold Adiak.parseTypestrHelper
    split_ifs with heq
    · exact follows_fail _ _
    dsimp only
    rcases Nat.lt_or_ge ts.length start with hgt | hle
    · -- the first character that is skipped lies behind the string
      have hskip : skipSeparators (ts.drop start) start = start := by
        rw [List.drop_eq_nil_of_le hgt.le, skipSeparators]
      have hundefined : charAtInt ts start = .error .undefined := by
        unfold charAtInt advance
        split_ifs
        · exact charAt_of_gt hgt
        · rfl
      have hread := readCharInt_follows ts start
      rw [hundefined] at hread
      rw [hskip, hundefined]
      exact (hread.bind_error id _).bind_error _ _
    · have hloop := skipLoop_follows (n := ts.length + 1) hle (by omega)
      rcases Nat.lt_or_ge (skipSeparators (ts.drop start) start) (2 ^ 31) with hfits | hlong
      · rw [advance_of_lt hfits] at hloop
        refine hloop.bind_ok fun cur hcur => ?_
        obtain rfl : cur = skipSeparators (ts.drop start) start := hcur
        refine (readCharInt_follows ts _).bind fun c => ?_
        refine (readCharInt_follows ts _).bind fun d => ?_
        exact parseBranch_follows ih _ _ _ _ _ _
      · rw [advance_of_ge hlong] at hloop
        rw [charAtInt_of_ge ts hlong]
        exact hloop.bind_error _ _

/-- Without blocks and accesses, the parser is the one that returns datatypes. -/
theorem parseTypestr_follows (zeroBlock : Bool) (typestr : List Char) (ap : List VArg) :
    Traced.Follows (fun r => (r.1.erase, r.2)) (parseTypestr zeroBlock typestr ap)
      (Adiak.parseTypestr typestr ap) :=
  (parseTypestrHelper_follows zeroBlock (cStr typestr) _ _ _ _ _ _).bind fun _ => follows_pure _ _

theorem frontLoop_follows (pre : List Char) {l : List Char} {n : Nat} (hn : l.length < n) :
    Traced.Follows id (frontLoop (pre ++ l) n pre.length)
      (.ok (pre.length + (l.takeWhile isFront).length)) := by
  induction n generalizing pre l with
  | zero => omega
  | succ n ih =>
    have hread := readChar_follows (pre ++ l) (pre.length + 0)
    rw [charAt_add] at hread
    cases l with
    | nil =>
      refine hread.bind_ok fun c hc => ?_
      obtain rfl : c = nul := hc
      rw [if_neg (by decide)]
      exact follows_pure id _
    | cons d l =>
      refine hread.bind_ok fun c hc => ?_
      obtain rfl : c = d := hc
      by_cases hfront : isFront c = true
      · have hrec := ih (pre ++ [c]) (Nat.lt_of_succ_lt_succ hn)
        rw [List.append_assoc, List.singleton_append, List.length_append, List.length_singleton]
          at hrec
        rw [if_pos hfront, List.takeWhile_cons_of_pos hfront, List.length_cons, Nat.add_zero,
          ← Nat.add_assoc, Nat.add_right_comm]
        exact hrec
      · rw [if_neg hfront, List.takeWhile_cons_of_neg hfront]
        exact follows_pure id _

theorem charAt_nil_zero : charAt [] 0 = .ok nul := rfl

theorem toplevelScalar_follows (pre cs : List Char) :
    Traced.Follows id (toplevelScalar (pre ++ cs) pre.length) (Adiak.toplevelScalar cs) := by
  have hread : ∀ {l : List Char} {c : Char} {k : Nat}, charAt l k = .ok c →
      Traced.Follows id (readChar (pre ++ l) (pre.length + k)) (.ok c) := fun {l} {c} {k} h => by
    have hchar := readChar_follows (pre ++ l) (pre.length + k)
    rwa [charAt_add, h] at hchar
  cases cs with
  | nil =>
    refine (hread (k := 0) charAt_nil_zero).bind_ok fun c hc => ?_
    obtain rfl : c = nul := hc
    exact follows_pure id _
  | cons c cs =>
    have hlen : ∀ (f : Int → AdiakType), Traced.Follows id
        (do
          let (len, _) ← parseScalarLenSpec (pre ++ c :: cs) pre.length 0
          pure (f len))
        (do
          let (len, _) ← Adiak.parseScalarLenSpec (c :: cs) 0
          .ok (f len)) := fun f => by
      exact (parseScalarLenSpec_follows pre (c :: cs) 0).bind fun r => follows_pure id (f r.1)
    unfold toplevelScalar
    refine (hread (k := 0) rfl).bind_ok fun c' hc' => ?_
    obtain rfl : c' = c := hc'
    split
    · -- `l`
      cases cs with
      | nil =>
        refine (hread (k := 1) rfl).bind_ok fun d hd => ?_
        obtain rfl : d = nul := hd
        exact follows_pure id _
      | cons d cs =>
        refine (hread (k := 1) rfl).bind_ok fun d' hd' => ?_
        obtain rfl : d' = d := hd'
        split
        · exact follows_pure id _
        · exact follows_pure id _
        · -- `ll`
          cases cs with
          | nil =>
            refine (hread (k := 2) rfl).bind_ok fun e he => ?_
            obtain rfl : e = nul := he
            exact follows_pure id _
          | cons e cs =>
            refine (hread (k := 2) rfl).bind_ok fun e' he' => ?_
            obtain rfl : e' = e := he'
            unfold Adiak.toplevelScalar
            split
            · exact follows_pure id _
            · exact follows_pure id _
            · split <;> first | exact follows_pure id _ | simp_all
        · unfold Adiak.toplevelScalar
          split <;> first | exact follows_pure id _ | simp_all
    · exact follows_pure id _
    · exact hlen fun len => if len = 8 then .longlong else .int
    · exact hlen fun len => if len = 8 then .ulonglong else .uint
    all_goals first
      | exact follows_pure id _
      | (unfold Adiak.toplevelScalar
         split <;> first | exact follows_pure id _ | simp_all)

/-- Without its reads, `toplevel_type` is the scanner of lists. -/
theorem toplevelType_follows (typestr : List Char) :
    Traced.Follows id (toplevelType typestr) (Adiak.toplevelType typestr) := by
  unfold toplevelType Adiak.toplevelType
  set ts := cStr typestr
  have hloop := frontLoop_follows [] (l := ts) (Nat.lt_succ_self _)
  refine hloop.bind_ok fun cur hcur => ?_
  obtain rfl : cur = [].length + (ts.takeWhile isFront).length := hcur
  have hsplit : ts.takeWhile isFront ++ ts.dropWhile isFront = ts := List.takeWhile_append_dropWhile
  generalize ts.takeWhile isFront = pre at hsplit ⊢
  generalize ts.dropWhile isFront = cs at hsplit ⊢
  rw [← hsplit, List.length_nil, Nat.zero_add]
  have hread := readChar_follows (pre ++ cs) (pre.length + 0)
  rw [charAt_add] at hread
  cases cs with
  | nil =>
    refine hread.bind_ok fun c hc => ?_
    obtain rfl : c = nul := hc
    exact follows_pure id _
  | cons d cs =>
    refine hread.bind_ok fun c hc => ?_
    obtain rfl : c = d := hc
    split
    · have h := toplevelScalar_follows (pre ++ ['%']) cs
      rwa [List.append_assoc, List.length_append] at h
    · exact follows_pure id _
    · exact follows_pure id _
    · exact follows_pure id _
    · exact follows_pure id _
    · split <;> first | exact follows_pure id _ | simp_all

end Follows

end Heap

end Adiak
