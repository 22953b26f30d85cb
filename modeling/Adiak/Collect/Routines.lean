import Adiak.Collect.Cmdline
import Mathlib.Data.List.DropRight

/-!
# The routines of `adiak_collect_all`

`adiak_adiakversion` to `adiak_mpi_library_version` of `adiak.c`, given what their queries of
`adksys.h` report, and `adiak_collect_all`. A build without MPI behaves as `use_mpi = 0`.
-/

namespace Adiak

/-! ## Queries -/

/-- An array of strings that a query yields. -/
structure StringArray where
  base : Int
  slots : List Int
  text : Addr → Option CStr
  base_ne : base ≠ 0
  length_lt : slots.length < 2 ^ 31
  filled : ∀ q ∈ slots, 0 < q ∧ q < 2 ^ 64 ∧ (text q).isSome

def StringArray.strings (a : StringArray) : List CStr := a.slots.map fun q => (a.text q).getD []

def StringArray.memory (a : StringArray) : Memory where
  byte := slotBytes a.slots a.base
  cstr := a.text
  timeval := fun _ => none

/-- The buffer of `adksys_get_cmdline_buffer` at `arglist`, and the block that `adiak_cmdline`
allocates for the pointers into it. -/
structure CmdlineBuffer where
  text : List Char
  arglist : Int
  myargv : Int
  arglist_pos : 0 < arglist
  myargv_ne : myargv ≠ 0
  length_lt : text.length < 2 ^ 31
  end_lt : arglist + text.length < 2 ^ 64

/-- What the query of each routine yields: `none` is its `-1`. A query that is made twice has two
outcomes. -/
structure Outcomes where
  user : Option CStr
  uid : Option CStr
  launchdate : Option Timeval
  launchday : Option Timeval
  executable : Option CStr
  executablepath : Option CStr
  workdir : Option CStr
  libraries : Option StringArray
  cmdline : Option CmdlineBuffer
  hostname : Option CStr
  clustername : Option CStr
  jobSize : Option Int
  numHosts : Option StringArray
  hostlist : Option StringArray
  mpiVersion : Option CStr
  mpiLibraryVersion : Option (CStr × CStr)

/-- The `result` of a query. -/
def reported {α : Type} (query : Option α) : Int :=
  match query with
  | none => -1
  | some _ => 0

/-- The memory of a string buffer on the stack, at address 1. -/
def stackString (buffer : Option CStr) : Memory :=
  { Memory.empty with cstr := fun p => if p = 1 then buffer else none }

/-- A query that reports `-1` leaves the buffer as it was. -/
def fillBuffer (query before : Option CStr) : Option CStr := query.or before

/-! ## The routines -/

/-- The routines that record a buffer: they return `-1` if the query reports `failure`. -/
def recordBuffer (s : AdiakState) (failure : Int) (query before : Option CStr) (name : CStr)
    (subcategory : CStr) (typestr : List Char) : Except Stop (Int × AdiakState) :=
  if reported query = failure then .ok (-1, s)
  else adiakNamevalue s (stackString (fillBuffer query before)) name adiakGeneral (some subcategory)
    typestr [.ptr 1]

/-- The routines that return `0` whatever `adiak_namevalue` returns. -/
def ignoreResult (x : Except Stop (Int × AdiakState)) : Except Stop (Int × AdiakState) := do
  let (_, s) ← x
  .ok (0, s)

/-- `ADIAK_VERSION`, `ADIAK_MINOR_VERSION` and `ADIAK_POINT_VERSION`. -/
def versionText : CStr := "0.5.0".toList

def adiakAdiakversion (s : AdiakState) : Except Stop (Int × AdiakState) :=
  if versionText.length ≥ 16 then .ok (-1, s)
  else ignoreResult (adiakNamevalue s (stackString (some versionText)) "adiakversion".toList
    adiakGeneral (some "runinfo".toList) "%v".toList [.ptr 1])

def adiakUser (s : AdiakState) (query before : Option CStr) : Except Stop (Int × AdiakState) :=
  recordBuffer s (-1) query before "user".toList "runinfo".toList "%s".toList

def adiakUid (s : AdiakState) (query before : Option CStr) : Except Stop (Int × AdiakState) :=
  recordBuffer s (-1) query before "uid".toList "runinfo".toList "%s".toList

/-- The routines on the start time, which is zero if it is not known. -/
def recordStarttime (s : AdiakState) (query : Option Timeval) (name : CStr) (seconds : Int → Int) :
    Except Stop (Int × AdiakState) :=
  match query with
  | none => .ok (-1, s)
  | some stime =>
    if stime.tvSec = 0 ∧ stime.tvUsec = 0 then .ok (-1, s)
    else ignoreResult (adiakNamevalue s Memory.empty name adiakGeneral (some "runinfo".toList)
      "%D".toList [.long (seconds stime.tvSec)])

def adiakLaunchdate (s : AdiakState) (query : Option Timeval) : Except Stop (Int × AdiakState) :=
  recordStarttime s query "launchdate".toList id

def secondsInDay : Int := 24 * 60 * 60

def adiakLaunchday (s : AdiakState) (query : Option Timeval) : Except Stop (Int × AdiakState) :=
  recordStarttime s query "launchday".toList fun sec => sec - sec.tmod secondsInDay

/-- What follows the last `/`. -/
def filepart (path : CStr) : CStr := path.rtakeWhile (· ≠ '/')

def adiakExecutable (s : AdiakState) (query before : Option CStr) :
    Except Stop (Int × AdiakState) :=
  if reported query = -1 then .ok (-1, s)
  else ignoreResult (adiakNamevalue s (stackString ((fillBuffer query before).map filepart))
    "executable".toList adiakGeneral (some "binary".toList) "%s".toList [.ptr 1])

def adiakExecutablepath (s : AdiakState) (query before : Option CStr) :
    Except Stop (Int × AdiakState) :=
  if reported query = -1 then .ok (-1, s)
  else ignoreResult (adiakNamevalue s (stackString (fillBuffer query before))
    "executablepath".toList adiakGeneral (some "binary".toList) "%p".toList [.ptr 1])

/-- The result is compared with `1`, which `adksys_get_cwd` never reports. -/
def adiakWorkdir (s : AdiakState) (query before : Option CStr) : Except Stop (Int × AdiakState) :=
  recordBuffer s 1 query before "working_directory".toList "runinfo".toList "%p".toList

def adiakLibraries (s : AdiakState) (query : Option StringArray) :
    Except Stop (Int × AdiakState) :=
  match query with
  | none => .ok (-1, s)
  | some libraries => do
    let (result, s) ← adiakNamevalue s libraries.memory "libraries".toList adiakGeneral
      (some "binary".toList) "[%p]".toList [.ptr libraries.base, .int libraries.slots.length]
    if result = -1 then .ok (-1, s) else .ok (0, s)

def adiakHostname (s : AdiakState) (query before : Option CStr) : Except Stop (Int × AdiakState) :=
  recordBuffer s (-1) query before "hostname".toList "host".toList "%s".toList

/-- The loop of `adiak_clustername`: digits are skipped, a dot ends it. -/
def clusterLetters : List Char → List Char
  | [] => []
  | c :: cs =>
    if '0' ≤ c ∧ c ≤ '9' then clusterLetters cs
    else if c = '.' then []
    else c :: clusterLetters cs

/-- The buffer is zeroed before the query. -/
def adiakClustername (s : AdiakState) (query : Option CStr) : Except Stop (Int × AdiakState) :=
  if reported query = -1 then .ok (-1, s)
  else adiakNamevalue s (stackString ((fillBuffer query (some [])).map clusterLetters))
    "cluster".toList adiakGeneral (some "host".toList) "%s".toList [.ptr 1]

def adiakJobSize (s : AdiakState) (query : Option Int) : Except Stop (Int × AdiakState) :=
  if s.config.useMpi ∧ reported query = -1 then .ok (-1, s)
  else adiakNamevalue s Memory.empty "jobsize".toList adiakGeneral (some "mpi".toList) "%u".toList
    [.int (if s.config.useMpi then query.getD 1 else 1)]

/-- A query that is made with MPI only: `result` starts as `-1`. -/
def mpiQuery {α : Type} (s : AdiakState) (query : Option α) : Option α :=
  if s.config.useMpi then query else none

/-- `hostlist_array` after the query. -/
def hostlistArray (query : Option StringArray) : Addr :=
  match query with
  | none => 0
  | some hosts => hosts.base

def adiakNumHosts (s : AdiakState) (query : Option StringArray) : Except Stop (Int × AdiakState) :=
  let query := mpiQuery s query
  let numHosts : Int := if hostlistArray query ≠ 0 ∧ reported query ≠ -1 then
      (query.elim 0 fun hosts => hosts.slots.length)
    else 1
  adiakNamevalue s Memory.empty "numhosts".toList adiakGeneral (some "mpi".toList) "%u".toList
    [.int numHosts]

def adiakHostlist (s : AdiakState) (query : Option StringArray) : Except Stop (Int × AdiakState) :=
  match mpiQuery s query with
  | none => .ok (-1, s)
  | some hosts =>
    if hosts.base ≠ 0 then
      adiakNamevalue s hosts.memory "hostlist".toList adiakGeneral (some "host".toList)
        "[%s]".toList [.ptr hosts.base, .int hosts.slots.length]
    else .ok (0, s)

def adiakMpiVersion (s : AdiakState) (query before : Option CStr) :
    Except Stop (Int × AdiakState) :=
  recordBuffer s (-1) (mpiQuery s query) before "mpi_version".toList "mpi".toList "%v".toList

def adiakMpiLibraryVersion (s : AdiakState) (query : Option (CStr × CStr)) :
    Except Stop (Int × AdiakState) :=
  match mpiQuery s query with
  | none => .ok (-1, s)
  | some (vendor, version) => do
    let (result, s) ← adiakNamevalue s (stackString (some vendor)) "mpi_library_vendor".toList
      adiakGeneral (some "mpi".toList) "%s".toList [.ptr 1]
    if result = -1 then .ok (result, s)
    else
      adiakNamevalue s (stackString (some version)) "mpi_library_version".toList adiakGeneral
        (some "mpi".toList) "%v".toList [.ptr 1]

/-! ## `adiak_collect_all` -/

/-- The routines that `adiak_collect_all` calls. -/
inductive Routine where
  | adiakversion
  | user
  | uid
  | launchdate
  | launchday
  | executable
  | executablepath
  | workdir
  | libraries
  | cmdline
  | hostname
  | clustername
  | jobSize
  | numHosts
  | hostlist
  | mpiVersion
  | mpiLibraryVersion
  deriving DecidableEq

/-- A call of a routine; `before r` is what its buffer leads to before the query. -/
def Routine.call (r : Routine) (o : Outcomes) (before : Routine → Option CStr) (s : AdiakState) :
    Except Stop (Int × AdiakState) :=
  match r with
  | adiakversion => adiakAdiakversion s
  | user => adiakUser s o.user (before r)
  | uid => adiakUid s o.uid (before r)
  | launchdate => adiakLaunchdate s o.launchdate
  | launchday => adiakLaunchday s o.launchday
  | executable => adiakExecutable s o.executable (before r)
  | executablepath => adiakExecutablepath s o.executablepath (before r)
  | workdir => adiakWorkdir s o.workdir (before r)
  | libraries => adiakLibraries s o.libraries
  | cmdline =>
    match o.cmdline with
    | none => adiakCmdline s none 0 0
    | some buffer => adiakCmdline s (some buffer.text) buffer.arglist buffer.myargv
  | hostname => adiakHostname s o.hostname (before r)
  | clustername => adiakClustername s o.clustername
  | jobSize => adiakJobSize s o.jobSize
  | numHosts => adiakNumHosts s o.numHosts
  | hostlist => adiakHostlist s o.hostlist
  | mpiVersion => adiakMpiVersion s o.mpiVersion (before r)
  | mpiLibraryVersion => adiakMpiLibraryVersion s o.mpiLibraryVersion

/-- The routines in the order of the calls. -/
def routines : List Routine :=
  [.adiakversion, .user, .uid, .launchdate, .launchday, .executable, .executablepath, .workdir,
    .libraries, .cmdline, .hostname, .clustername, .jobSize, .numHosts, .hostlist, .mpiVersion,
    .mpiLibraryVersion]

/-- `adiak_collect_all` from a call on, with the count so far. -/
def collect (o : Outcomes) (before : Routine → Option CStr) :
    List Routine → AdiakState → Int → Except Stop (Int × AdiakState)
  | [], s, count => .ok (if count > 0 then 0 else -1, s)
  | r :: rs, s, count => do
    let (ret, s) ← r.call o before s
    collect o before rs s (if ret = 0 then count + 1 else count)

def adiakCollectAll (o : Outcomes) (before : Routine → Option CStr) (s : AdiakState) :
    Except Stop (Int × AdiakState) := collect o before routines s 0

end Adiak
