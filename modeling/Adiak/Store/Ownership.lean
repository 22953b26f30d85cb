import Adiak.Cpp.Blocks
import Adiak.Store.Released
import Adiak.Typestring.Abandoned

/-!
# The blocks of the store

The store together with every block that `adiak.c` allocates for a record or a tool.

1. `namevalueRequests` is `adiak_namevalue` up to its call of `adiak_raw_namevalue`, with its requests to
   the allocator, and `valueRequests` is `adiak::value`.
2. `OwnedState` adds to the state of the library what the pointers of its records lead to, and the log of
   all requests. `recordOwned` and `cleanOwned` are `record_nameval` and `adiak_clean` on it.
3. `runOwned` is a run of the C and the C++ interface with blocks.

`malloc(0)` returns a block.
-/

namespace Adiak

open Allocator (Request)

/-- A block, named after the registration that it was allocated for. -/
inductive StoreBlock where
  /-- The `adiak_value_t`. -/
  | cell (call : Nat)
  /-- What the value leads to. -/
  | value (call block : Nat)
  | dtype (call block : Nat)
  | record (call : Nat)
  | name (call : Nat)
  | subcategory (call : Nat)
  | info (call : Nat)
  | tool (id : Nat)
  deriving DecidableEq

/-- A value and its datatype as `adiak_raw_namevalue` takes them over. The blocks of the value are those
numbered below `taken`. -/
structure Offer where
  value : BlockValue
  taken : Nat
  dtype : Heap.TypePtr

def Offer.event (offer : Offer) (name : CStr) (category : Int) (subcategory : Option CStr) : Event where
  name := name
  category := category
  subcategory := subcategory
  value := offer.value.erase
  dtype := offer.dtype.erase

/-- The blocks of an offer. -/
def Offer.blocks (offer : Offer) (call : Nat) : List StoreBlock :=
  .cell call :: ((List.range offer.taken).map (.value call) ++ offer.dtype.blocks.map (.dtype call))

/-! ## Building a value -/

/-- `adiak_namevalue` before it records: its requests and what it hands over, if it does not return
`-1`. -/
def namevalueRequests (call : Nat) (m : Memory) (typestr : List Char) (ap : List VArg) :
    Except Stop (List (Request StoreBlock) × Option Offer) := do
  let toptype ← toplevelType typestr
  if toptype = .unset then .ok ([], none)
  else
    match fetchBlocks m toptype ap 0 with
    | (.error e, _) => .error e
    | (.ok (f, ap), fetched) =>
      let parsed := Heap.parseTypestr true typestr ap []
      let requests : List (Request StoreBlock) :=
        .malloc (.cell call) :: (((List.range fetched).map (.value call)).map .malloc ++
          (Heap.requests parsed.1).map (Request.map (.dtype call)))
      match parsed.2 with
      | .error .null => .ok (requests ++ [.free (.cell call)], none)
      | .error e => .error e
      | .ok (t, _) =>
        match storeBlocks m f t.erase fetched with
        | (.error e, _) => .error e
        | (.ok value, taken) =>
          .ok (requests ++ ((List.range' fetched (taken - fetched)).map (.value call)).map .malloc,
            some { value := value, taken := taken, dtype := t })

/-- The blocks of the value in the order of `adiak::value`: the cell of a range comes last. -/
def valueMallocs (call taken : Nat) : CppArg → List StoreBlock
  | .one _ => .cell call :: (List.range taken).map (.value call)
  | .range _ _ => (List.range taken).map (.value call) ++ [.cell call]

/-- `adiak::value` before it records: its requests and what it hands over, unless it has no type. -/
def valueRequests (call : Nat) (t : CppType) (arg : CppArg) :
    Except Stop (List (Request StoreBlock) × Option Offer) :=
  let made := makeArgPtr t arg []
  let types := (Heap.requests made.1).map (Request.map (.dtype call))
  match made.2 with
  | .error e => .error e
  | .ok .null => .ok (types, none)
  | .ok dtype =>
    match makeArgBlocks t arg dtype 0 with
    | (.error e, _) => .error e
    | (.ok (value, dtype), taken) =>
      .ok (types ++ (valueMallocs call taken arg).map .malloc, some { value, taken, dtype })

/-! ## Records -/

/-- What the pointers of a record lead to: the record and its name are those of the first registration,
the rest that of the last. -/
structure Holding where
  created : Nat
  written : Nat
  subcategory : Bool
  offer : Offer

/-- `adiak_t` and the heap of the library: `holding` by the address of a record, and the number of
registrations so far. -/
structure OwnedState where
  state : AdiakState
  holding : Nat → Option Holding
  calls : Nat
  log : List (Request StoreBlock)

/-- `free_adiak_type`, by the blocks that it releases: a static type may not be released. -/
def releaseType (t : Heap.TypePtr) : Except Stop (List Nat) :=
  if .freeStatic ∈ t.released then .error .undefined else .ok (Heap.frees t.released)

/-- `free_adiak_value` and `free_adiak_type` on a record. -/
def Holding.releaseValue (h : Holding) : Except Stop (List StoreBlock) := do
  let bs ← releaseBlocks h.offer.dtype.erase h.offer.value
  let ts ← releaseType h.offer.dtype
  .ok (bs.map (.value h.written) ++ .cell h.written :: ts.map (.dtype h.written))

/-- The copy of the subcategory, if it is not `NULL`. -/
def subcategoryBlocks (call : Nat) (subcategory : Bool) : List StoreBlock :=
  if subcategory then [.subcategory call] else []

/-- The subcategory and the info of a record. -/
def infoBlocks (call : Nat) (subcategory : Bool) : List StoreBlock :=
  subcategoryBlocks call subcategory ++ [.info call]

/-- `record_nameval`: the requests, and what the pointers of the records lead to. -/
def recordOwned (o : OwnedState) (e : Event) (offer : Offer) :
    Except Stop ((Nat → Option Holding) × List (Request StoreBlock)) := do
  let info := (infoBlocks o.calls e.subcategory.isSome).map Request.malloc
  let written : Holding := {
    created := o.calls
    written := o.calls
    subcategory := e.subcategory.isSome
    offer := offer }
  match ← o.state.findRecordByName e.name with
  | none =>
    .ok (Function.update o.holding o.state.brk (some written),
      .malloc (.record o.calls) :: (info ++ [.malloc (.name o.calls)]))
  | some p =>
    match o.holding p with
    | none => .error .undefined
    | some h =>
      let bs ← h.releaseValue
      .ok (Function.update o.holding p (some { written with created := h.created }),
        (bs ++ infoBlocks h.written h.subcategory).map .free ++ info)

/-- `adiak_raw_namevalue` on what was allocated by the requests `handed`: a control event is not
recorded, and its value is nobody's. -/
def rawNamevalueOwned (o : OwnedState) (name : CStr) (category : Int) (subcategory : Option CStr)
    (offer : Offer) (handed : List (Request StoreBlock)) : Except Stop OwnedState := do
  let e := offer.event name category subcategory
  let s ← adiakRawNamevalue o.state e
  if category = adiakControl then
    .ok { o with state := s, calls := o.calls + 1, log := o.log ++ handed }
  else do
    let (holding, requests) ← recordOwned o e offer
    .ok { state := s, holding, calls := o.calls + 1, log := o.log ++ (handed ++ requests) }

/-- `adiak_namevalue`. -/
def namevalueOwned (o : OwnedState) (m : Memory) (name : CStr) (category : Int)
    (subcategory : Option CStr) (typestr : List Char) (ap : List VArg) : Except Stop OwnedState := do
  match ← namevalueRequests o.calls m typestr ap with
  | (handed, none) => .ok { o with calls := o.calls + 1, log := o.log ++ handed }
  | (handed, some offer) => rawNamevalueOwned o name category subcategory offer handed

/-- `adiak::value`. -/
def valueOwned (o : OwnedState) (name : List Char) (t : CppType) (arg : CppArg) (category : Int)
    (subcategory : List Char) : Except Stop OwnedState := do
  match ← valueRequests o.calls t arg with
  | (handed, none) => .ok { o with calls := o.calls + 1, log := o.log ++ handed }
  | (handed, some offer) =>
    rawNamevalueOwned o (cStr name) category (some (cStr subcategory)) offer handed

/-- `measure_walltime`, `measure_systime` and `measure_cputime`. -/
def measureOwned (o : OwnedState) (measured : Bool) (name : CStr) (reading : Option Timeval) :
    Except Stop OwnedState :=
  match measured, reading with
  | true, some tv => namevalueOwned o (stackTimeval tv) name adiakPerformance
      (some ['t', 'i', 'm', 'i', 'n', 'g']) ['%', 't'] [.ptr 1]
  | _, _ => .ok o

/-- An event of the library itself, whose value lies on the stack. -/
def controlOwned (o : OwnedState) (e : Event) : Except Stop OwnedState := do
  let s ← adiakRawNamevalue o.state e
  .ok { o with state := s }

/-- `adiak_fini`. -/
def finiOwned (o : OwnedState) (r : FiniReadings) : Except Stop OwnedState := do
  let o ← measureOwned o o.state.measureCputime ['c', 'p', 'u', 't', 'i', 'm', 'e'] r.cputime
  let o ← measureOwned o o.state.measureSystime ['s', 'y', 's', 't', 'i', 'm', 'e'] r.systime
  let o ← measureOwned o o.state.measureWalltime ['w', 'a', 'l', 'l', 't', 'i', 'm', 'e'] r.walltime
  controlOwned o finiEvent

/-- `adiak_register`. -/
def registerOwned (o : OwnedState) (version category : Int) (nv nvi reportOnAllRanks : Bool)
    (opaqueVal : Addr) : Except Stop OwnedState := do
  let s ← adiakRegister o.state version category nv nvi reportOnAllRanks opaqueVal
  .ok { o with state := s, log := o.log ++ [.malloc (.tool o.state.toolBrk)] }

/-- The loop of `adiak_clean` over the records at these addresses. -/
def releaseRecords (holding : Nat → Option Holding) : List Nat → Except Stop (List StoreBlock)
  | [] => .ok []
  | p :: ps =>
    match holding p with
    | none => .error .undefined
    | some h => do
      let bs ← h.releaseValue
      let rest ← releaseRecords holding ps
      .ok (bs ++ (.name h.created :: .info h.written ::
        (subcategoryBlocks h.written h.subcategory ++ [.record h.created])) ++ rest)

/-- The blocks of the tools. -/
def AdiakState.toolBlocks (s : AdiakState) : List StoreBlock :=
  (s.config.toolList.getD []).map fun tool => .tool tool.id

/-- `adiak_clean`. -/
def cleanOwned (o : OwnedState) : Except Stop OwnedState := do
  let s ← adiakRawNamevalue o.state cleanEvent
  let rs ← s.sharedRecords
  let bs ← releaseRecords o.holding (rs.map Prod.fst)
  .ok { o with
    state := wipe s (rs.map Prod.fst)
    log := o.log ++ (bs ++ s.toolBlocks).map .free }

/-! ## Runs -/

/-- A call of the C or of the C++ interface. -/
inductive ApiCall where
  | c (call : Call)
  | value (name : List Char) (t : CppType) (arg : CppArg) (category : Int) (subcategory : List Char)

def stepApi (s : AdiakState) : ApiCall → Except Stop AdiakState
  | .c call => step s call
  | .value name t arg category subcategory => do
    let (_, s) ← value s name t arg category subcategory
    .ok s

def runApi (s : AdiakState) : List ApiCall → Except Stop AdiakState
  | [] => .ok s
  | c :: cs => do
    let s ← stepApi s c
    runApi s cs

/-- A call with the blocks it hands over. What `adiak_raw_namevalue` is to record has been allocated by its
caller. -/
inductive OwnedCall where
  | namevalue (m : Memory) (name : CStr) (category : Int) (subcategory : Option CStr)
    (typestr : List Char) (ap : List VArg)
  | value (name : List Char) (t : CppType) (arg : CppArg) (category : Int) (subcategory : List Char)
  | rawNamevalue (name : CStr) (category : Int) (subcategory : Option CStr) (offer : Offer)
  | registerCb (version category : Int) (reportOnAllRanks : Bool) (opaqueVal : Addr)
  | registerCbWithInfo (version category : Int) (reportOnAllRanks : Bool) (opaqueVal : Addr)
  | walltime
  | systime
  | cputime
  | flush (location : Addr)
  | fini (r : FiniReadings)
  | clean

/-- The call without blocks. -/
def OwnedCall.erase : OwnedCall → ApiCall
  | .namevalue m name category subcategory typestr ap =>
    .c (.namevalue m name category subcategory typestr ap)
  | .value name t arg category subcategory => .value name t arg category subcategory
  | .rawNamevalue name category subcategory offer =>
    .c (.rawNamevalue (offer.event name category subcategory))
  | .registerCb version category reportOnAllRanks opaqueVal =>
    .c (.registerCb version category reportOnAllRanks opaqueVal)
  | .registerCbWithInfo version category reportOnAllRanks opaqueVal =>
    .c (.registerCbWithInfo version category reportOnAllRanks opaqueVal)
  | .walltime => .c .walltime
  | .systime => .c .systime
  | .cputime => .c .cputime
  | .flush location => .c (.flush location)
  | .fini r => .c (.fini r)
  | .clean => .c .clean

/-- `stepApi` with blocks. The caller of `adiak_raw_namevalue` keeps the value of a control event. -/
def stepOwned (o : OwnedState) : OwnedCall → Except Stop OwnedState
  | .namevalue m name category subcategory typestr ap =>
    namevalueOwned o m name category subcategory typestr ap
  | .value name t arg category subcategory => valueOwned o name t arg category subcategory
  | .rawNamevalue name category subcategory offer =>
    rawNamevalueOwned o name category subcategory offer
      (if category = adiakControl then [] else (offer.blocks o.calls).map .malloc)
  | .registerCb version category reportOnAllRanks opaqueVal =>
    registerOwned o version category true false reportOnAllRanks opaqueVal
  | .registerCbWithInfo version category reportOnAllRanks opaqueVal =>
    registerOwned o version category false true reportOnAllRanks opaqueVal
  | .walltime => .ok { o with state := { o.state with measureWalltime := true } }
  | .systime => .ok { o with state := { o.state with measureSystime := true } }
  | .cputime => .ok { o with state := { o.state with measureCputime := true } }
  | .flush location => controlOwned o (flushEvent location)
  | .fini r => finiOwned o r
  | .clean => cleanOwned o

/-- `runApi` with blocks. -/
def runOwned (o : OwnedState) : List OwnedCall → Except Stop OwnedState
  | [] => .ok o
  | c :: cs => do
    let o ← stepOwned o c
    runOwned o cs

/-- The state before the first call. -/
def initialOwned (minimumVersion : Int) (reportableRank : Bool) : OwnedState where
  state := initialState minimumVersion reportableRank
  holding := fun _ => none
  calls := 0
  log := []

end Adiak
