import Adiak.Library.Chain
import Adiak.Namevalue

/-!
# The record store

The state of the library and the functions of `adiak.c` on it.

1. `AdiakState` holds the `adiak_t`, the local hash list, the heap of records and the calls made to
   the tools. Records are linked by addresses of the heap, as in the code.
2. `recordNameval`, `findRecordByName` and the lookups work on the two linked structures.
3. `adiakRawNamevalue` records a value and notifies the tools, `adiakClean` releases everything.

Loops over linked records are bounded by the number of records ever allocated. The timestamp of a
record is the number of the clock reading it holds.
-/

namespace Adiak

/-! ## Categories -/

def adiakCategoryAll : Int := 1
def adiakGeneral : Int := 2
def adiakPerformance : Int := 3
def adiakControl : Int := 4

/-! ## Data -/

/-- `adiak_record_info_t`. -/
structure RecordInfo where
  category : Int
  subcategory : Option CStr
  timestamp : Nat

/-- `record_list_t`. -/
structure Record where
  name : CStr
  category : Int
  subcategory : Option CStr
  value : AdiakValue
  dtype : AdiakDatatype
  listNext : Option Nat
  hashNext : Option Nat
  info : RecordInfo

/-- `adiak_tool_t`, with the identity of its block in place of the links: the list of tools is a
list. A callback is there or `NULL`. -/
structure Tool where
  id : Nat
  version : Int
  opaqueVal : Addr
  nameValCb : Bool
  reportOnAllRanks : Bool
  category : Int
  namevalInfoCb : Bool

/-- The arguments of `adiak_raw_namevalue`. -/
structure Event where
  name : CStr
  category : Int
  subcategory : Option CStr
  value : AdiakValue
  dtype : AdiakDatatype

/-- What the `info_ptr` of `adiak_raw_namevalue` leads to. -/
inductive InfoPtr where
  /-- The info of the record. -/
  | stored (info : RecordInfo)
  /-- The local `info` of the current iteration. -/
  | slot (info : RecordInfo)
  /-- The local `info` of an earlier iteration. -/
  | dangling

/-- What a callback learns besides name, value and type. -/
inductive NoticeMeta where
  | direct (category : Int) (subcategory : Option CStr)
  | info (ptr : InfoPtr)

/-- A call to a tool. -/
structure Notice where
  tool : Nat
  name : CStr
  value : AdiakValue
  dtype : AdiakDatatype
  info : NoticeMeta

/-- An index of the hash list: `RECORD_HASH_SIZE` is 128. -/
abbrev Bucket := Fin 128

/-- `adiak_t`. `toolList` is `NULL` or leads to the list of tools, newest first. -/
structure AdiakT where
  minimumVersion : Int
  version : Int
  reportOnAllRanks : Bool
  reportableRank : Bool
  toolList : Option (List Tool)
  useMpi : Bool
  sharedRecordList : Option Nat
  recordHash : Bucket → Option Nat

/-- The state of the library. `brk` and `toolBrk` number the blocks allocated so far, `ticks` the
readings of the clock, and `log` lists the calls to the tools. -/
structure AdiakState where
  config : AdiakT
  localRecordHash : Bucket → Option Nat
  records : Nat → Option Record
  brk : Nat
  toolBrk : Nat
  ticks : Nat
  measureWalltime : Bool
  measureSystime : Bool
  measureCputime : Bool
  log : List Notice

/-! ## Hashing -/

/-- `strhash_djb2`: the characters are signed and the hash is a `size_t`. -/
def strhashDjb2 (str : CStr) : BitVec 64 :=
  str.foldl (fun hash c => ((hash <<< 5) + hash) + BitVec.ofInt 64 (signed 1 c.toNat)) 5381#64

/-- The hash modulo `RECORD_HASH_SIZE`. -/
def bucket (name : CStr) : Bucket := Fin.ofNat 128 (strhashDjb2 name).toNat

namespace AdiakState

/-- `get_record_hash_list`. -/
def recordHash (s : AdiakState) : Bucket → Option Nat :=
  if s.config.minimumVersion ≥ 1 then s.config.recordHash else s.localRecordHash

/-- A write to an entry of the hash list. -/
def setRecordHash (s : AdiakState) (b : Bucket) (p : Option Nat) : AdiakState :=
  if s.config.minimumVersion ≥ 1 then
    { s with config := { s.config with recordHash := Function.update s.config.recordHash b p } }
  else { s with localRecordHash := Function.update s.localRecordHash b p }

/-- `find_record_by_name`; the loop of `record_nameval` is the same. -/
def findRecordByName (s : AdiakState) (name : CStr) : Except Stop (Option Nat) :=
  Chain.search .undefined .fuel Record.hashNext s.records (fun r => r.name = name) s.brk
    (s.recordHash (bucket name))

/-- Following a pointer to a record. -/
def deref (s : AdiakState) (p : Nat) : Except Stop Record :=
  match s.records p with
  | some r => .ok r
  | none => .error .undefined

end AdiakState

/-! ## Releasing values -/

/-- `free` on a pointer of a value: only `NULL` and copies may be released. -/
def freePtr : AdiakValue → Bool
  | .vPtr (.caller p) => p = 0
  | .vPtr _ => true
  | _ => false

/-- The loops of `free_adiak_value_worker` over the next `n` elements. Behind the array nothing has been
written, which only matters where the worker reads the element. -/
def freeLoop (frees : List (AdiakValue → Bool)) (isTuple : Bool) (values : List AdiakValue) :
    Nat → Nat → Bool
  | 0, _ => true
  | n + 1, i =>
    match frees[if isTuple then i else 0]? with
    | some free => free (values[i]?.getD .indeterminate) && freeLoop frees isTuple values n (i + 1)
    | none => false

mutual

/-- `free_adiak_value_worker`, as the test whether all that it releases may be released. -/
def freeAdiakValueWorker : AdiakDatatype → AdiakValue → Bool
  | .null, _ => false
  | .node info subtype, v =>
    if info.isReference then true
    else
      match info.dtype with
      | .unset | .long | .ulong | .longlong | .ulonglong | .int | .uint | .double | .date => true
      | .timeval | .version | .string | .catstring | .jsonstring | .path => freePtr v
      | .range | .set | .list | .tuple =>
        match v with
        | .vSubval values =>
          freeLoop (freeWorkers subtype) (info.dtype = .tuple) values info.numElements.toNat 0
        | _ =>
          freeLoop (freeWorkers subtype) (info.dtype = .tuple) [] info.numElements.toNat 0 && freePtr v

def freeWorkers : List AdiakDatatype → List (AdiakValue → Bool)
  | [] => []
  | t :: ts => (fun v => freeAdiakValueWorker t v) :: freeWorkers ts

end

/-- `free_adiak_value`: an invalid `free` is undefined. -/
def freeAdiakValue (t : AdiakDatatype) (v : AdiakValue) : Except Stop Unit :=
  if freeAdiakValueWorker t v then .ok () else .error .undefined

/-! ## Recording -/

/-- The info that `record_nameval` makes. -/
def newInfo (e : Event) (timestamp : Nat) : RecordInfo where
  category := e.category
  subcategory := e.subcategory
  timestamp := timestamp

/-- The record of a new name, linked in front of both lists. -/
def newRecord (s : AdiakState) (e : Event) : Record where
  name := e.name
  category := e.category
  subcategory := e.subcategory
  value := e.value
  dtype := e.dtype
  listNext := s.config.sharedRecordList
  hashNext := s.recordHash (bucket e.name)
  info := newInfo e s.ticks

/-- A record set to a new value: its name and links stay. -/
def Record.overwrite (r : Record) (e : Event) (timestamp : Nat) : Record :=
  { r with
    category := e.category
    subcategory := e.subcategory
    value := e.value
    dtype := e.dtype
    info := newInfo e timestamp }

/-- A new name at the fresh address `brk`. -/
def addRecord (s : AdiakState) (e : Event) : AdiakState :=
  let s' := { s with
    records := Function.update s.records s.brk (some (newRecord s e))
    brk := s.brk + 1
    ticks := s.ticks + 1
    config := { s.config with sharedRecordList := some s.brk } }
  s'.setRecordHash (bucket e.name) (some s.brk)

/-- A known name, in place. -/
def overwriteRecord (s : AdiakState) (p : Nat) (r : Record) (e : Event) : AdiakState :=
  { s with
    records := Function.update s.records p (some (r.overwrite e s.ticks))
    ticks := s.ticks + 1 }

/-- `record_nameval`: the state and the info of the record. -/
def recordNameval (s : AdiakState) (e : Event) : Except Stop (AdiakState × RecordInfo) := do
  match ← s.findRecordByName e.name with
  | none => .ok (addRecord s e, newInfo e s.ticks)
  | some p =>
    let r ← s.deref p
    freeAdiakValue r.dtype r.value
    .ok (overwriteRecord s p r e, newInfo e s.ticks)

/-! ## Notifying the tools -/

/-- Whether the loop of `adiak_raw_namevalue` reaches the callback of a tool. -/
def Tool.wants (tool : Tool) (reportableRank : Bool) (category : Int) : Bool :=
  (tool.reportOnAllRanks || reportableRank) &&
    (tool.category = adiakCategoryAll || tool.category = category)

/-- The call of an event to a tool. -/
def Event.notice (e : Event) (tool : Tool) (info : NoticeMeta) : Notice where
  tool := tool.id
  name := e.name
  value := e.value
  dtype := e.dtype
  info := info

/-- The loop of `adiak_raw_namevalue` over the tools: the calls made and the clock readings. -/
def notifyTools (e : Event) (reportableRank : Bool) :
    List Tool → Option InfoPtr → Nat → List Notice × Nat
  | [], _, ticks => ([], ticks)
  | tool :: tools, infoPtr, ticks =>
    if tool.wants reportableRank e.category then
      if tool.nameValCb then
        let (notices, ticks) := notifyTools e reportableRank tools infoPtr ticks
        (e.notice tool (.direct e.category e.subcategory) :: notices, ticks)
      else if tool.namevalInfoCb then
        match infoPtr with
        | some ptr =>
          let (notices, ticks) := notifyTools e reportableRank tools (some ptr) ticks
          (e.notice tool (.info ptr) :: notices, ticks)
        | none =>
          -- `info_ptr` keeps the address of a block-local `info` for the iterations to come
          let (notices, ticks') := notifyTools e reportableRank tools (some .dangling) (ticks + 1)
          (e.notice tool (.info (.slot (newInfo e ticks))) :: notices, ticks')
      else notifyTools e reportableRank tools infoPtr ticks
    else notifyTools e reportableRank tools infoPtr ticks

/-- The first half of `adiak_raw_namevalue`: control events bypass the store. -/
def recordEvent (s : AdiakState) (e : Event) : Except Stop (AdiakState × Option InfoPtr) :=
  if e.category ≠ adiakControl then do
    let (s, info) ← recordNameval s e
    .ok (s, some (.stored info))
  else .ok (s, none)

/-- `adiak_raw_namevalue`, which always returns `0`. -/
def adiakRawNamevalue (s : AdiakState) (e : Event) : Except Stop AdiakState := do
  let (s, infoPtr) ← recordEvent s e
  match s.config.toolList with
  | none => .error .undefined
  | some tools =>
    let (notices, ticks) := notifyTools e s.config.reportableRank tools infoPtr s.ticks
    .ok { s with ticks := ticks, log := s.log ++ notices }

/-- `adiak_namevalue`: the result and the state. -/
def adiakNamevalue (s : AdiakState) (m : Memory) (name : CStr) (category : Int)
    (subcategory : Option CStr) (typestr : List Char) (ap : List VArg) :
    Except Stop (Int × AdiakState) :=
  match namevalueArgs m typestr ap with
  | .error .null => .ok (-1, s)
  | .error e => .error e
  | .ok (value, dtype) => do
    let s ← adiakRawNamevalue s { name, category, subcategory, value, dtype }
    .ok (0, s)

/-! ## Lookup and listing -/

/-- What `adiak_get_nameval` writes through its pointers. -/
structure Registration where
  category : Int
  subcategory : Option CStr
  value : AdiakValue
  dtype : AdiakDatatype

def Record.registration (r : Record) : Registration where
  category := r.category
  subcategory := r.subcategory
  value := r.value
  dtype := r.dtype

/-- `adiak_get_nameval`; `none` is its return of `-1`. -/
def adiakGetNameval (s : AdiakState) (name : CStr) : Except Stop (Option Registration) := do
  match ← s.findRecordByName name with
  | none => .ok none
  | some p =>
    let r ← s.deref p
    .ok (some r.registration)

/-- `adiak_get_nameval_with_info`; `none` is its return of `-1`. -/
def adiakGetNamevalWithInfo (s : AdiakState) (name : CStr) :
    Except Stop (Option (AdiakDatatype × AdiakValue × RecordInfo)) := do
  match ← s.findRecordByName name with
  | none => .ok none
  | some p =>
    let r ← s.deref p
    .ok (some (r.dtype, r.value, r.info))

/-- The arguments `adiak_list_namevals` calls back with. -/
def Record.event (r : Record) : Event where
  name := r.name
  category := r.category
  subcategory := r.subcategory
  value := r.value
  dtype := r.dtype

/-- The records on the shared list, with their addresses. -/
def AdiakState.sharedRecords (s : AdiakState) : Except Stop (List (Nat × Record)) :=
  Chain.traverse .undefined .fuel Record.listNext s.records s.brk s.config.sharedRecordList

/-- `adiak_list_namevals`. -/
def adiakListNamevals (s : AdiakState) (category : Int) : Except Stop (List Event) := do
  let rs ← s.sharedRecords
  .ok ((rs.filter fun r => category = adiakCategoryAll || r.2.category = category).map
    fun r => r.2.event)

/-! ## Registration, flush and clean -/

/-- `adiak_register`. -/
def adiakRegister (s : AdiakState) (version category : Int) (nv nvi reportOnAllRanks : Bool)
    (opaqueVal : Addr) : Except Stop AdiakState :=
  match s.config.toolList with
  | none => .error .undefined
  | some tools =>
    let newtool : Tool := {
      id := s.toolBrk
      version := version
      opaqueVal := opaqueVal
      nameValCb := nv
      reportOnAllRanks := reportOnAllRanks
      category := category
      namevalInfoCb := nvi }
    .ok { s with
      toolBrk := s.toolBrk + 1
      config := { s.config with
        toolList := some (newtool :: tools)
        reportOnAllRanks := s.config.reportOnAllRanks || reportOnAllRanks } }

/-- The event of `adiak_flush`. -/
def flushEvent (location : Addr) : Event where
  name := ['f', 'l', 'u', 's', 'h']
  category := adiakControl
  subcategory := none
  value := .vPtr (.caller location)
  dtype := basePath

/-- The event of `adiak_fini`. -/
def finiEvent : Event where
  name := ['f', 'i', 'n', 'i']
  category := adiakControl
  subcategory := none
  value := .vInt 0
  dtype := baseInt

/-- The event of `adiak_clean`. -/
def cleanEvent : Event where
  name := ['c', 'l', 'e', 'a', 'n']
  category := adiakControl
  subcategory := none
  value := .vInt 0
  dtype := baseInt

/-- The memory of a `struct timeval` on the stack, at address 1. -/
def stackTimeval (tv : Timeval) : Memory :=
  { Memory.empty with timeval := fun p => if p = 1 then some tv else none }

/-- `measure_walltime`, `measure_systime` and `measure_cputime`, behind the test of their flag: a
failed query records nothing. -/
def measure (s : AdiakState) (measured : Bool) (name : CStr) (reading : Option Timeval) :
    Except Stop AdiakState :=
  match measured, reading with
  | true, some tv => do
    let (_, s) ← adiakNamevalue s (stackTimeval tv) name adiakPerformance
      (some ['t', 'i', 'm', 'i', 'n', 'g']) ['%', 't'] [.ptr 1]
    .ok s
  | _, _ => .ok s

/-- What the system reports to `adiak_fini`; `none` is a failed query. The wall time is measured
from the start time to the current time. -/
structure FiniReadings where
  cputime : Option Timeval
  systime : Option Timeval
  starttime : Option Timeval
  curtime : Option Timeval

/-- The time elapsed between two `struct timeval`s. -/
def diffTimeval (stime etime : Timeval) : Timeval :=
  if etime.tvUsec < stime.tvUsec then
    { tvSec := etime.tvSec - stime.tvSec - 1, tvUsec := 1000000 + etime.tvUsec - stime.tvUsec }
  else { tvSec := etime.tvSec - stime.tvSec, tvUsec := etime.tvUsec - stime.tvUsec }

/-- The reading of `measure_walltime`. -/
def FiniReadings.walltime (r : FiniReadings) : Option Timeval := do
  let stime ← r.starttime
  let etime ← r.curtime
  some (diffTimeval stime etime)

/-- `adiak_fini`. -/
def adiakFini (s : AdiakState) (r : FiniReadings) : Except Stop AdiakState := do
  let s ← measure s s.measureCputime ['c', 'p', 'u', 't', 'i', 'm', 'e'] r.cputime
  let s ← measure s s.measureSystime ['s', 'y', 's', 't', 'i', 'm', 'e'] r.systime
  let s ← measure s s.measureWalltime ['w', 'a', 'l', 'l', 't', 'i', 'm', 'e'] r.walltime
  adiakRawNamevalue s finiEvent

/-- The loop of `adiak_clean` over the records. -/
def freeRecords : List (Nat × Record) → Except Stop Unit
  | [] => .ok ()
  | (_, r) :: rs => do
    freeAdiakValue r.dtype r.value
    freeRecords rs

/-- The end of `adiak_clean`: the records are released, the hash list is cleared. -/
def wipe (s : AdiakState) (freed : List Nat) : AdiakState :=
  { s with
    records := fun p => if p ∈ freed then none else s.records p
    localRecordHash := if s.config.minimumVersion ≥ 1 then s.localRecordHash else fun _ => none
    config := { s.config with
      recordHash := if s.config.minimumVersion ≥ 1 then fun _ => none else s.config.recordHash
      sharedRecordList := none
      toolList := none } }

/-- `adiak_clean`. -/
def adiakClean (s : AdiakState) : Except Stop AdiakState := do
  let s ← adiakRawNamevalue s cleanEvent
  let rs ← s.sharedRecords
  freeRecords rs
  .ok (wipe s (rs.map Prod.fst))

end Adiak
