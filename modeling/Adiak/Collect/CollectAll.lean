import Adiak.Collect.Routines

/-!
# What `adiak_collect_all` records

1. `Routine.events`: what a routine is to record. There is nothing to record where its query failed.
2. `call_of_filled`: each routine records its events or returns `-1`.
3. `collectsSucceeded_iff`: this is what `adiak_collect_all` does exactly if the query of
   `adiak_workdir` does not fail and no array is longer than `copy_value` can count.
-/

namespace Adiak

/-! ## Events -/

/-- A scalar that is recorded. -/
def scalarEvent (name subcategory : CStr) (t : AdiakDatatype) (value : AdiakValue) : Event where
  name := name
  category := adiakGeneral
  subcategory := some subcategory
  value := value
  dtype := t

/-- A string that is recorded. -/
def textEvent (name subcategory : CStr) (t : AdiakDatatype) (str : CStr) : Event :=
  scalarEvent name subcategory t (.vPtr (.strdup str))

/-- A start time that is known. -/
def knownStart (query : Option Timeval) : Option Timeval :=
  query.filter fun stime => ¬ (stime.tvSec = 0 ∧ stime.tvUsec = 0)

/-- A query that is made with MPI only. -/
def withMpi {α : Type} (useMpi : Bool) (query : Option α) : Option α := if useMpi then query else none

/-- What a routine records: nothing if its query failed. -/
def Routine.events (r : Routine) (o : Outcomes) (useMpi : Bool) : Option (List Event) :=
  match r with
  | adiakversion =>
    some [textEvent "adiakversion".toList "runinfo".toList baseVersion versionText]
  | user => o.user.map fun name => [textEvent "user".toList "runinfo".toList baseString name]
  | uid => o.uid.map fun name => [textEvent "uid".toList "runinfo".toList baseString name]
  | launchdate => (knownStart o.launchdate).map fun stime =>
      [scalarEvent "launchdate".toList "runinfo".toList baseDate (.vLong stime.tvSec)]
  | launchday => (knownStart o.launchday).map fun stime =>
      [scalarEvent "launchday".toList "runinfo".toList baseDate
        (.vLong (stime.tvSec - stime.tvSec.tmod secondsInDay))]
  | executable => o.executable.map fun path =>
      [textEvent "executable".toList "binary".toList baseString (filepart path)]
  | executablepath => o.executablepath.map fun path =>
      [textEvent "executablepath".toList "binary".toList basePath path]
  | workdir => o.workdir.map fun cwd =>
      [textEvent "working_directory".toList "runinfo".toList basePath cwd]
  | libraries => o.libraries.map fun libraries =>
      [stringsEvent "libraries".toList (some "binary".toList) basePath libraries.strings]
  | cmdline => o.cmdline.map fun buffer => [argsEvent (splitArgs buffer.text)]
  | hostname => o.hostname.map fun host =>
      [textEvent "hostname".toList "host".toList baseString host]
  | clustername => o.clustername.map fun host =>
      [textEvent "cluster".toList "host".toList baseString (clusterLetters host)]
  | jobSize => (if useMpi then o.jobSize else some 1).map fun size =>
      [scalarEvent "jobsize".toList "mpi".toList baseUint (.vInt size)]
  | numHosts =>
    -- the number of hosts is 1 if the query failed
    some [scalarEvent "numhosts".toList "mpi".toList baseUint
      (.vInt ((withMpi useMpi o.numHosts).elim 1 fun hosts => hosts.slots.length))]
  | hostlist => (withMpi useMpi o.hostlist).map fun hosts =>
      [stringsEvent "hostlist".toList (some "host".toList) baseString hosts.strings]
  | mpiVersion => (withMpi useMpi o.mpiVersion).map fun text =>
      [textEvent "mpi_version".toList "mpi".toList baseVersion text]
  | mpiLibraryVersion => (withMpi useMpi o.mpiLibraryVersion).map fun library =>
      [textEvent "mpi_library_vendor".toList "mpi".toList baseString library.1,
        textEvent "mpi_library_version".toList "mpi".toList baseVersion library.2]

/-- The names under which a routine records. -/
def Routine.names : Routine → List CStr
  | adiakversion => ["adiakversion".toList]
  | user => ["user".toList]
  | uid => ["uid".toList]
  | launchdate => ["launchdate".toList]
  | launchday => ["launchday".toList]
  | executable => ["executable".toList]
  | executablepath => ["executablepath".toList]
  | workdir => ["working_directory".toList]
  | libraries => ["libraries".toList]
  | cmdline => ["cmdline".toList]
  | hostname => ["hostname".toList]
  | clustername => ["cluster".toList]
  | jobSize => ["jobsize".toList]
  | numHosts => ["numhosts".toList]
  | hostlist => ["hostlist".toList]
  | mpiVersion => ["mpi_version".toList]
  | mpiLibraryVersion => ["mpi_library_vendor".toList, "mpi_library_version".toList]

/-- A routine records all its names or nothing. -/
theorem events_names {r : Routine} {o : Outcomes} {useMpi : Bool} {es : List Event}
    (h : r.events o useMpi = some es) : es.map Event.name = r.names := by
  cases r <;> simp only [Routine.events, Option.map_eq_some_iff, Option.some.injEq] at h
  all_goals first
    | (subst h; rfl)
    | (obtain ⟨_, -, rfl⟩ := h; rfl)

/-- None of the events is a control event. -/
theorem events_category {r : Routine} {o : Outcomes} {useMpi : Bool} {es : List Event}
    (h : r.events o useMpi = some es) : ∀ e ∈ es, e.category = adiakGeneral := by
  have hall : es.map Event.category = es.map fun _ => adiakGeneral := by
    cases r <;> simp only [Routine.events, Option.map_eq_some_iff, Option.some.injEq] at h
    all_goals first
      | (subst h; rfl)
      | (obtain ⟨_, -, rfl⟩ := h; rfl)
  exact List.map_inj_left.mp hall

/-- What a routine does: it returns `-1` and leaves the state, or records its events. -/
def outcome (s : AdiakState) : Option (List Event) → Except Stop (Int × AdiakState)
  | none => .ok (-1, s)
  | some es => do
    let s ← recordAll s es
    .ok (0, s)

theorem outcome_some (s : AdiakState) (es : List Event) :
    outcome s (some es) = (recordAll s es >>= fun s => .ok (0, s)) := rfl

/-! ## Recording a scalar -/

section Scalars

variable (s : AdiakState) (name subcategory : CStr)

theorem outcome_singleton (e : Event) :
    outcome s (some [e]) = (do
      let s ← adiakRawNamevalue s e
      .ok (0, s)) := by
  rw [outcome_some, recordAll_singleton]

/-- `adiak_namevalue` on arguments that it can read. -/
theorem adiakNamevalue_outcome {m : Memory} {typestr : List Char} {ap : List VArg}
    {t : AdiakDatatype} {value : AdiakValue} (h : namevalueArgs m typestr ap = .ok (value, t)) :
    adiakNamevalue s m name adiakGeneral (some subcategory) typestr ap =
      outcome s (some [scalarEvent name subcategory t value]) := by
  rw [outcome_singleton]
  unfold adiakNamevalue
  rw [h]
  rfl

theorem ignoreResult_outcome (es : List Event) :
    ignoreResult (outcome s (some es)) = outcome s (some es) := by
  rw [outcome_some]
  unfold ignoreResult
  cases recordAll s es <;> rfl

/-- The check of the result behind `adiak_namevalue`. -/
theorem checkResult_outcome (es : List Event) :
    (outcome s (some es) >>= fun r =>
      if r.1 = -1 then (.ok (-1, r.2) : Except Stop (Int × AdiakState)) else .ok (0, r.2)) =
      outcome s (some es) := by
  rw [outcome_some]
  cases recordAll s es <;> rfl

theorem reported_some {α : Type} (a : α) : reported (some a) ≠ -1 := show (0 : Int) ≠ -1 by decide

/-- The buffer of a string that the query filled. -/
theorem namevalueArgs_text {t : Spec} {k : StringKind} (ht : t.tree false = .str k false) (str : CStr) :
    namevalueArgs (stackString (some str)) (TypeExpr.spec .none false t).text [.ptr 1] =
      .ok (.vPtr (.strdup str), k.datatype false) := by
  rw [namevalueArgs_spec (f := ⟨.indeterminate, 1, 0⟩) (v := .vPtr (.strdup str))] <;> rw [ht]
  · rfl
  · cases k <;> rfl
  · cases k <;> rfl

theorem namevalueArgs_uint (size : Int) :
    namevalueArgs Memory.empty "%u".toList [.int size] = .ok (.vInt size, baseUint) :=
  namevalueArgs_spec (s := .u) rfl rfl

theorem namevalueArgs_date (seconds : Int) :
    namevalueArgs Memory.empty "%D".toList [.long seconds] = .ok (.vLong seconds, baseDate) :=
  namevalueArgs_spec (s := .date) rfl rfl

theorem recordBuffer_outcome (query before : Option CStr) {typestr : List Char} {t : AdiakDatatype}
    (hargs : ∀ str, namevalueArgs (stackString (some str)) typestr [.ptr 1] =
      .ok (.vPtr (.strdup str), t)) :
    recordBuffer s (-1) query before name subcategory typestr =
      outcome s (query.map fun str => [textEvent name subcategory t str]) := by
  cases query with
  | none => rfl
  | some str => exact adiakNamevalue_outcome s name subcategory (hargs str)

theorem recordStarttime_outcome (query : Option Timeval) (seconds : Int → Int) :
    recordStarttime s query name seconds =
      outcome s ((knownStart query).map fun stime =>
        [scalarEvent name "runinfo".toList baseDate (.vLong (seconds stime.tvSec))]) := by
  cases query with
  | none => rfl
  | some stime =>
    unfold recordStarttime knownStart
    dsimp only
    by_cases hzero : stime.tvSec = 0 ∧ stime.tvUsec = 0
    · rw [if_pos hzero, Option.filter_some_neg (by simpa using hzero)]
      rfl
    · have hknown : Option.filter (fun stime : Timeval => ¬ (stime.tvSec = 0 ∧ stime.tvUsec = 0))
          (some stime) = some stime := Option.filter_some_pos (decide_eq_true hzero)
      rw [if_neg hzero, hknown, adiakNamevalue_outcome s name _
        (namevalueArgs_date _), ignoreResult_outcome]
      rfl

end Scalars

/-! ## Recording an array -/

theorem StringArray.length_strings (a : StringArray) : a.strings.length = a.slots.length :=
  List.length_map _

theorem StringArray.holdsStrings (a : StringArray) : a.memory.HoldsStrings a.base a.strings := by
  intro i hi
  have hlt : i < a.slots.length := by rwa [← a.length_strings]
  obtain ⟨hpos, hend, htext⟩ := a.filled a.slots[i] (List.getElem_mem hlt)
  obtain ⟨str, hstr⟩ := Option.isSome_iff_exists.mp htext
  have hslot : a.slots[i]? = some a.slots[i] := List.getElem?_eq_getElem hlt
  have hmap : a.strings[i] = (a.text a.slots[i]).getD [] := List.getElem_map _
  have hget : a.strings[i] = str := by
    rw [hmap, hstr]
    rfl
  refine ⟨a.slots[i], loadAddr_slot (fun _ => rfl) hslot hpos.le hend, ?_⟩
  unfold Memory.loadCstr StringArray.memory
  dsimp only
  rw [hstr, hget]

/-- `adiak_namevalue` on an array of a query. -/
theorem adiakNamevalue_array (s : AdiakState) (name subcategory : CStr) (a : StringArray)
    (typestr : List Char) {t : AdiakDatatype} (ht : IsText t) (htop : toplevelType typestr = .ok .set)
    (hparse : parseTypestr typestr [.int a.slots.length] =
      .ok (.node (containerNode .set false a.slots.length) [t], [])) :
    adiakNamevalue s a.memory name adiakGeneral (some subcategory) typestr
        [.ptr a.base, .int a.slots.length] =
      if a.slots.length ≤ 2 ^ 28 then
        outcome s (some [stringsEvent name (some subcategory) t a.strings])
      else .error .undefined := by
  rw [← a.length_strings] at hparse ⊢
  by_cases hlen : a.strings.length ≤ 2 ^ 28
  · rw [if_pos hlen, outcome_singleton]
    exact adiakNamevalue_strings s name (some subcategory) typestr a.holdsStrings ht a.base_ne htop
      hparse hlen
  · have hfront : a.base + -2 ^ 31 < a.base := by omega
    rw [if_neg hlen]
    exact adiakNamevalue_strings_error s name adiakGeneral (some subcategory) typestr a.holdsStrings
      ht a.base_ne (if_pos hfront) htop hparse (by omega)

/-- `adiak_cmdline` on the buffer of its query. -/
theorem adiakCmdline_buffer (s : AdiakState) (buffer : CmdlineBuffer) :
    adiakCmdline s (some buffer.text) buffer.arglist buffer.myargv =
      if buffer.text.count nul ≤ 2 ^ 28 then
        outcome s (some [argsEvent (splitArgs buffer.text)])
      else .error .undefined := by
  obtain ⟨rest, htext, hrest, hargs⟩ := exists_joined buffer.text
  have hcount : buffer.text.count nul = (splitArgs buffer.text).length := by
    conv_lhs => rw [htext]
    exact count_joined hargs hrest
  have hlt := buffer.length_lt
  have hend := buffer.end_lt
  rw [htext] at hlt hend
  rw [hcount]
  by_cases hlen : (splitArgs buffer.text).length ≤ 2 ^ 28
  · rw [if_pos hlen, outcome_singleton]
    conv_lhs => rw [htext]
    exact adiakCmdline_records s hargs hrest buffer.arglist_pos buffer.myargv_ne hend hlt hlen
  · rw [if_neg hlen]
    conv_lhs => rw [htext]
    exact adiakCmdline_error s hargs hrest buffer.arglist_pos buffer.myargv_ne hend hlt (by omega)

/-! ## Each routine -/

section Routines

variable (s : AdiakState)

theorem adiakAdiakversion_outcome :
    adiakAdiakversion s =
      outcome s (some [textEvent "adiakversion".toList "runinfo".toList baseVersion versionText]) := by
  have hfit : ¬ versionText.length ≥ 16 := by decide
  have hargs : namevalueArgs (stackString (some versionText)) "%v".toList [.ptr 1] =
      .ok (.vPtr (.strdup versionText), baseVersion) := namevalueArgs_text (t := .version) rfl _
  unfold adiakAdiakversion
  rw [if_neg hfit, adiakNamevalue_outcome s _ _ hargs, ignoreResult_outcome]
  rfl

theorem adiakLaunchdate_outcome (query : Option Timeval) :
    adiakLaunchdate s query = outcome s ((knownStart query).map fun stime =>
      [scalarEvent "launchdate".toList "runinfo".toList baseDate (.vLong stime.tvSec)]) := by
  unfold adiakLaunchdate
  rw [recordStarttime_outcome]
  rfl

theorem adiakLaunchday_outcome (query : Option Timeval) :
    adiakLaunchday s query = outcome s ((knownStart query).map fun stime =>
      [scalarEvent "launchday".toList "runinfo".toList baseDate
        (.vLong (stime.tvSec - stime.tvSec.tmod secondsInDay))]) := by
  unfold adiakLaunchday
  rw [recordStarttime_outcome]

theorem adiakWorkdir_outcome {query : Option CStr} (before : Option CStr) (h : query ≠ none) :
    adiakWorkdir s query before = outcome s (query.map fun cwd =>
      [textEvent "working_directory".toList "runinfo".toList basePath cwd]) := by
  cases query with
  | none => exact absurd rfl h
  | some cwd =>
    have hargs : namevalueArgs (stackString (some cwd)) "%p".toList [.ptr 1] =
        .ok (.vPtr (.strdup cwd), basePath) := namevalueArgs_text (t := .path) rfl _
    have hfailure : ¬ reported (some cwd) = 1 := show ¬ (0 : Int) = 1 by decide
    unfold adiakWorkdir recordBuffer
    rw [if_neg hfailure, fillBuffer, Option.some_or, adiakNamevalue_outcome s _ _ hargs]
    rfl

theorem adiakLibraries_outcome {query : Option StringArray}
    (h : ∀ a ∈ query, a.slots.length ≤ 2 ^ 28) :
    adiakLibraries s query = outcome s (query.map fun libraries =>
      [stringsEvent "libraries".toList (some "binary".toList) basePath libraries.strings]) := by
  cases query with
  | none => rfl
  | some a =>
    have harray := adiakNamevalue_array s "libraries".toList "binary".toList a "[%p]".toList
      (.inr rfl) rfl (parse_paths _)
    rw [if_pos (h a rfl)] at harray
    unfold adiakLibraries
    dsimp only
    rw [harray]
    exact checkResult_outcome s _

theorem adiakJobSize_outcome (query : Option Int) :
    adiakJobSize s query = outcome s ((if s.config.useMpi then query else some 1).map fun size =>
      [scalarEvent "jobsize".toList "mpi".toList baseUint (.vInt size)]) := by
  have hargs : ∀ size, namevalueArgs Memory.empty "%u".toList [.int size] =
      .ok (.vInt size, baseUint) := namevalueArgs_uint
  unfold adiakJobSize
  rw [adiakNamevalue_outcome s _ _ (hargs _)]
  by_cases hmpi : s.config.useMpi
  · rw [if_pos hmpi, if_pos hmpi]
    cases query with
    | none => exact if_pos ⟨hmpi, rfl⟩
    | some size => exact if_neg fun h => reported_some size h.2
  · rw [if_neg hmpi, if_neg hmpi]
    exact if_neg fun h => hmpi h.1

theorem mpiQuery_eq {α : Type} (query : Option α) :
    mpiQuery s query = withMpi s.config.useMpi query := rfl

/-- Without an array of hosts, the number of hosts is 1. -/
theorem adiakNumHosts_outcome (query : Option StringArray) :
    adiakNumHosts s query = outcome s (some [scalarEvent "numhosts".toList "mpi".toList baseUint
      (.vInt ((withMpi s.config.useMpi query).elim 1 fun hosts => hosts.slots.length))]) := by
  have hargs : ∀ size, namevalueArgs Memory.empty "%u".toList [.int size] =
      .ok (.vInt size, baseUint) := namevalueArgs_uint
  unfold adiakNumHosts
  dsimp only
  rw [adiakNamevalue_outcome s _ _ (hargs _), mpiQuery_eq]
  cases withMpi s.config.useMpi query with
  | none => rw [if_neg fun h => h.1 rfl]; rfl
  | some hosts =>
    have hfound : hostlistArray (some hosts) ≠ 0 ∧ reported (some hosts) ≠ -1 :=
      ⟨hosts.base_ne, reported_some hosts⟩
    rw [if_pos hfound]
    rfl

theorem adiakHostlist_outcome {query : Option StringArray}
    (h : ∀ a ∈ query, a.slots.length ≤ 2 ^ 28) :
    adiakHostlist s query = outcome s ((withMpi s.config.useMpi query).map fun hosts =>
      [stringsEvent "hostlist".toList (some "host".toList) baseString hosts.strings]) := by
  unfold adiakHostlist
  rw [mpiQuery_eq]
  cases hquery : withMpi s.config.useMpi query with
  | none => rfl
  | some hosts =>
    have hmem : hosts ∈ query := by
      unfold withMpi at hquery
      split_ifs at hquery
      exact hquery
    have harray := adiakNamevalue_array s "hostlist".toList "host".toList hosts "[%s]".toList
      (.inl rfl) rfl (parse_strings _)
    rw [if_pos (h hosts hmem)] at harray
    dsimp only
    rw [if_pos hosts.base_ne, harray]
    rfl

/-- The two names of the MPI library. -/
theorem adiakMpiLibraryVersion_outcome (query : Option (CStr × CStr)) :
    adiakMpiLibraryVersion s query =
      outcome s ((withMpi s.config.useMpi query).map fun library =>
        [textEvent "mpi_library_vendor".toList "mpi".toList baseString library.1,
          textEvent "mpi_library_version".toList "mpi".toList baseVersion library.2]) := by
  unfold adiakMpiLibraryVersion
  rw [mpiQuery_eq]
  rcases withMpi s.config.useMpi query with _ | ⟨vendor, version⟩
  · rfl
  have hvendor : namevalueArgs (stackString (some vendor)) "%s".toList [.ptr 1] =
      .ok (.vPtr (.strdup vendor), baseString) := namevalueArgs_text (t := .string) rfl _
  have hversion : namevalueArgs (stackString (some version)) "%v".toList [.ptr 1] =
      .ok (.vPtr (.strdup version), baseVersion) := namevalueArgs_text (t := .version) rfl _
  dsimp only
  rw [adiakNamevalue_outcome s _ _ hvendor, outcome_singleton, Option.map_some, outcome_some]
  unfold recordAll textEvent
  cases adiakRawNamevalue s _ with
  | error e => rfl
  | ok s' =>
    rw [ok_bind, ok_bind, ok_bind]
    dsimp only
    rw [if_neg (by decide), adiakNamevalue_outcome s' _ _ hversion, outcome_some]

theorem adiakExecutable_outcome (query before : Option CStr) :
    adiakExecutable s query before = outcome s (query.map fun path =>
      [textEvent "executable".toList "binary".toList baseString (filepart path)]) := by
  cases query with
  | none => rfl
  | some path =>
    have hargs : namevalueArgs (stackString (some (filepart path))) "%s".toList [.ptr 1] =
        .ok (.vPtr (.strdup (filepart path)), baseString) := namevalueArgs_text (t := .string) rfl _
    unfold adiakExecutable
    rw [if_neg (reported_some _), fillBuffer, Option.some_or, Option.map_some,
      adiakNamevalue_outcome s _ _ hargs, ignoreResult_outcome]
    rfl

theorem adiakExecutablepath_outcome (query before : Option CStr) :
    adiakExecutablepath s query before = outcome s (query.map fun path =>
      [textEvent "executablepath".toList "binary".toList basePath path]) := by
  cases query with
  | none => rfl
  | some path =>
    have hargs : namevalueArgs (stackString (some path)) "%p".toList [.ptr 1] =
        .ok (.vPtr (.strdup path), basePath) := namevalueArgs_text (t := .path) rfl _
    unfold adiakExecutablepath
    rw [if_neg (reported_some _), fillBuffer, Option.some_or, adiakNamevalue_outcome s _ _ hargs,
      ignoreResult_outcome]
    rfl

theorem adiakClustername_outcome (query : Option CStr) :
    adiakClustername s query = outcome s (query.map fun host =>
      [textEvent "cluster".toList "host".toList baseString (clusterLetters host)]) := by
  cases query with
  | none => rfl
  | some host =>
    have hargs : namevalueArgs (stackString (some (clusterLetters host))) "%s".toList [.ptr 1] =
        .ok (.vPtr (.strdup (clusterLetters host)), baseString) := namevalueArgs_text (t := .string) rfl _
    unfold adiakClustername
    rw [if_neg (reported_some _), fillBuffer, Option.some_or, Option.map_some,
      adiakNamevalue_outcome s _ _ hargs]
    rfl

end Routines

/-- No query leads its routine astray: `adksys_get_cwd` does not fail, and `copy_value` can count the
bytes of the arrays. -/
structure Recordable (o : Outcomes) : Prop where
  workdir : o.workdir ≠ none
  libraries : ∀ a ∈ o.libraries, a.slots.length ≤ 2 ^ 28
  cmdline : ∀ buffer ∈ o.cmdline, buffer.text.count nul ≤ 2 ^ 28
  hostlist : ∀ a ∈ o.hostlist, a.slots.length ≤ 2 ^ 28

/-- Each routine records its events, or leaves the state. -/
theorem call_of_recordable {o : Outcomes} (h : Recordable o) (r : Routine)
    (before : Routine → Option CStr) (s : AdiakState) :
    r.call o before s = outcome s (r.events o s.config.useMpi) := by
  cases r with
  | adiakversion => exact adiakAdiakversion_outcome s
  | user => exact recordBuffer_outcome s _ _ o.user _ (namevalueArgs_text (t := .string) rfl)
  | uid => exact recordBuffer_outcome s _ _ o.uid _ (namevalueArgs_text (t := .string) rfl)
  | launchdate => exact adiakLaunchdate_outcome s o.launchdate
  | launchday => exact adiakLaunchday_outcome s o.launchday
  | executable => exact adiakExecutable_outcome s o.executable _
  | executablepath => exact adiakExecutablepath_outcome s o.executablepath _
  | workdir => exact adiakWorkdir_outcome s _ h.workdir
  | libraries => exact adiakLibraries_outcome s h.libraries
  | cmdline =>
    unfold Routine.call Routine.events
    dsimp only
    cases hquery : o.cmdline with
    | none => rfl
    | some buffer =>
      dsimp only
      rw [adiakCmdline_buffer, if_pos (h.cmdline buffer hquery)]
      rfl
  | hostname =>
    exact recordBuffer_outcome s _ _ o.hostname _ (namevalueArgs_text (t := .string) rfl)
  | clustername => exact adiakClustername_outcome s o.clustername
  | jobSize => exact adiakJobSize_outcome s o.jobSize
  | numHosts => exact adiakNumHosts_outcome s o.numHosts
  | hostlist => exact adiakHostlist_outcome s h.hostlist
  | mpiVersion =>
    exact recordBuffer_outcome s _ _ (mpiQuery s o.mpiVersion) _ (namevalueArgs_text (t := .version) rfl)
  | mpiLibraryVersion => exact adiakMpiLibraryVersion_outcome s o.mpiLibraryVersion

/-! ## All routines -/

theorem useMpi_recordNameval {s s' : AdiakState} {e : Event} {info : RecordInfo}
    (h : recordNameval s e = .ok (s', info)) : s'.config.useMpi = s.config.useMpi := by
  unfold recordNameval at h
  obtain ⟨found, -, h⟩ := bind_eq_ok.mp h
  cases found with
  | none =>
    obtain rfl := congrArg Prod.fst (Except.ok.inj h)
    unfold addRecord AdiakState.setRecordHash
    dsimp only
    split_ifs <;> rfl
  | some p =>
    obtain ⟨r, -, h⟩ := bind_eq_ok.mp h
    obtain ⟨_, -, h⟩ := bind_eq_ok.mp h
    obtain rfl := congrArg Prod.fst (Except.ok.inj h)
    rfl

/-- Recording leaves the configuration of MPI alone. -/
theorem useMpi_adiakRawNamevalue {s s' : AdiakState} {e : Event}
    (h : adiakRawNamevalue s e = .ok s') : s'.config.useMpi = s.config.useMpi := by
  obtain ⟨⟨s₁, infoPtr⟩, hevent, h⟩ := bind_eq_ok.mp h
  have hfirst : s₁.config.useMpi = s.config.useMpi := by
    unfold recordEvent at hevent
    split_ifs at hevent
    · obtain ⟨⟨s₂, info⟩, hrecord, heq⟩ := bind_eq_ok.mp hevent
      obtain rfl : s₂ = s₁ := congrArg Prod.fst (Except.ok.inj heq)
      exact useMpi_recordNameval hrecord
    · obtain rfl : s = s₁ := congrArg Prod.fst (Except.ok.inj hevent)
      rfl
  dsimp only at h
  cases htools : s₁.config.toolList with
  | none =>
    rw [htools] at h
    cases h
  | some tools =>
    rw [htools] at h
    obtain rfl := Except.ok.inj h
    exact hfirst

theorem useMpi_recordAll {s s' : AdiakState} {es : List Event} (h : recordAll s es = .ok s') :
    s'.config.useMpi = s.config.useMpi := by
  induction es generalizing s with
  | nil =>
    obtain rfl := Except.ok.inj h
    rfl
  | cons e es ih =>
    obtain ⟨s₁, hraw, h⟩ := bind_eq_ok.mp h
    rw [ih h, useMpi_adiakRawNamevalue hraw]

/-- What the routines record, one after another. -/
def recordedEvents (o : Outcomes) (useMpi : Bool) (rs : List Routine) : List Event :=
  rs.flatMap fun r => (r.events o useMpi).getD []

theorem recordedEvents_cons (o : Outcomes) (useMpi : Bool) (r : Routine) (rs : List Routine) :
    recordedEvents o useMpi (r :: rs) = (r.events o useMpi).getD [] ++ recordedEvents o useMpi rs := rfl

/-- The rest of `adiak_collect_all`, once a routine has succeeded. -/
theorem collect_eq {o : Outcomes} (h : Recordable o) (before : Routine → Option CStr)
    (rs : List Routine) (s : AdiakState) {count : Int} (hcount : 0 < count) :
    collect o before rs s count = outcome s (some (recordedEvents o s.config.useMpi rs)) := by
  induction rs generalizing s count with
  | nil => exact congrArg (fun ret => Except.ok (ret, s)) (if_pos hcount)
  | cons r rs ih =>
    rw [collect, call_of_recordable h, recordedEvents_cons]
    cases r.events o s.config.useMpi with
    | none => exact ih s hcount
    | some es =>
      rw [outcome_some, outcome_some, Option.getD_some, recordAll_append]
      cases hrun : recordAll s es with
      | error e => rfl
      | ok s' =>
        have hrest := ih s' (show 0 < count + 1 by omega)
        rw [useMpi_recordAll hrun] at hrest
        exact hrest

/-- The first routine always succeeds. -/
theorem collect_adiakversion {o : Outcomes} (h : Recordable o) (before : Routine → Option CStr)
    (rs : List Routine) (s : AdiakState) : collect o before (.adiakversion :: rs) s 0 =
      outcome s (some (recordedEvents o s.config.useMpi (.adiakversion :: rs))) := by
  obtain ⟨es, hes⟩ : ∃ es, Routine.events .adiakversion o s.config.useMpi = some es := ⟨_, rfl⟩
  rw [collect, call_of_recordable h, recordedEvents_cons, hes, outcome_some, outcome_some,
    Option.getD_some, recordAll_append]
  cases hrun : recordAll s es with
  | error e => rfl
  | ok s' =>
    have hrest := collect_eq h before rs s' (show (0 : Int) < 0 + 1 by decide)
    rw [useMpi_recordAll hrun] at hrest
    exact hrest

theorem adiakCollectAll_eq {o : Outcomes} (h : Recordable o) (before : Routine → Option CStr)
    (s : AdiakState) : adiakCollectAll o before s =
      outcome s (some (recordedEvents o s.config.useMpi routines)) :=
  collect_adiakversion h before _ s

/-! ## The result -/

/-- `adiak_collect_all` records exactly what the queries that succeeded yield. -/
structure CollectsSucceeded (o : Outcomes) : Prop where
  /-- A routine whose query failed returns `-1` and leaves the state. -/
  failed : ∀ (r : Routine) before s, r.events o s.config.useMpi = none →
    r.call o before s = .ok (-1, s)
  /-- The other routines record their events. -/
  succeeded : ∀ (r : Routine) before s es, r.events o s.config.useMpi = some es →
    r.call o before s = recordAll s es >>= fun s => .ok (0, s)
  /-- No routine depends on what was in its buffer. -/
  filled : ∀ (r : Routine) before before' s, r.call o before s = r.call o before' s
  /-- All events are recorded, in the order of the routines. -/
  collected : ∀ before s, adiakCollectAll o before s =
    recordAll s (recordedEvents o s.config.useMpi routines) >>= fun s => .ok (0, s)
  /-- The names in the store afterwards. -/
  names : ∀ before s s' rs ret, Holds s rs → adiakCollectAll o before s = .ok (ret, s') →
    ∃ rs', Holds s' rs' ∧ ∀ name, (name ∈ rs'.map fun x => x.2.name) ↔
      (name ∈ rs.map fun x => x.2.name) ∨
        ∃ r : Routine, (r.events o s.config.useMpi).isSome ∧ name ∈ r.names

theorem mem_routines (r : Routine) : r ∈ routines := by
  cases r <;> decide

/-- The names that are recorded are those of the routines that succeeded. -/
theorem mem_recordedNames {o : Outcomes} {useMpi : Bool} {name : CStr} :
    name ∈ (recordedEvents o useMpi routines).map Event.name ↔
      ∃ r : Routine, (r.events o useMpi).isSome ∧ name ∈ r.names := by
  unfold recordedEvents
  rw [List.map_flatMap, List.mem_flatMap]
  constructor
  · rintro ⟨r, -, hname⟩
    cases hes : r.events o useMpi with
    | none =>
      rw [hes] at hname
      cases hname
    | some es =>
      rw [hes, Option.getD_some, events_names hes] at hname
      exact ⟨r, by rw [hes]; rfl, hname⟩
  · rintro ⟨r, hsome, hname⟩
    obtain ⟨es, hes⟩ := Option.isSome_iff_exists.mp hsome
    refine ⟨r, mem_routines r, ?_⟩
    rwa [hes, Option.getD_some, events_names hes]

/-- All events reach the store. -/
theorem registered_recordedEvents (o : Outcomes) (useMpi : Bool) (rs : List Routine) :
    (recordedEvents o useMpi rs).flatMap Event.registered =
      (recordedEvents o useMpi rs).map Event.entry := by
  rw [← List.flatMap_singleton' ((recordedEvents o useMpi rs).map Event.entry), List.flatMap_map]
  refine List.flatMap_congr fun e he => if_neg ?_
  obtain ⟨r, -, he⟩ := List.mem_flatMap.mp he
  cases hes : r.events o useMpi with
  | none =>
    rw [hes] at he
    cases he
  | some es =>
    rw [hes] at he
    rw [events_category hes e he]
    decide

theorem collectsSucceeded_of_recordable {o : Outcomes} (h : Recordable o) : CollectsSucceeded o where
  failed r before s hevents := by
    rw [call_of_recordable h, hevents]
    rfl
  succeeded r before s es hevents := by rw [call_of_recordable h, hevents, outcome_some]
  filled r before before' s := by rw [call_of_recordable h, call_of_recordable h]
  collected before s := by rw [adiakCollectAll_eq h, outcome_some]
  names before s s' rs ret hs hrun := by
    rw [adiakCollectAll_eq h, outcome_some] at hrun
    obtain ⟨s₁, hrecord, heq⟩ := bind_eq_ok.mp hrun
    obtain rfl : s₁ = s' := congrArg Prod.snd (Except.ok.inj heq)
    obtain ⟨rs', hs', hentries, -, -⟩ := recordAll_holds hs hrecord
    refine ⟨rs', hs', fun name => ?_⟩
    have hkeys : Ledger.keys ((recordedEvents o s.config.useMpi routines).map Event.entry) =
        (recordedEvents o s.config.useMpi routines).map Event.name := by
      unfold Ledger.keys
      rw [List.map_map]
      rfl
    rw [registered_recordedEvents] at hentries
    rw [← keys_entries, ← keys_entries, hentries, Ledger.mem_keys_foldl_post, hkeys,
      mem_recordedNames]

/-- A process that has recorded nothing yet. -/
def freshState (useMpi : Bool) : AdiakState :=
  { initialState 0 true with config := { (initialState 0 true).config with useMpi := useMpi } }

/-- Its first record is made whatever the value. -/
theorem recordAll_fresh (useMpi : Bool) {e : Event} (h : e.category = adiakGeneral) :
    ∃ s, recordAll (freshState useMpi) [e] = .ok s := by
  rw [recordAll_singleton]
  unfold adiakRawNamevalue recordEvent
  rw [if_pos (by rw [h]; decide)]
  exact ⟨_, rfl⟩

/-- A routine that does not come back records nothing. -/
theorem not_collectsSucceeded {o : Outcomes} (r : Routine) (useMpi : Bool) {e : Event}
    (hevents : r.events o useMpi = some [e]) (before : Routine → Option CStr)
    (herror : r.call o before (freshState useMpi) = .error .undefined) : ¬ CollectsSucceeded o := by
  intro h
  obtain ⟨s, hs⟩ := recordAll_fresh useMpi (events_category hevents e List.mem_cons_self)
  have hcall := h.succeeded r before (freshState useMpi) [e] hevents
  rw [herror, hs] at hcall
  cases hcall

/-- If `adksys_get_cwd` fails, whatever was in the buffer is recorded. -/
theorem not_collectsSucceeded_of_workdir {o : Outcomes} (hworkdir : o.workdir = none) :
    ¬ CollectsSucceeded o := by
  intro h
  set e := textEvent "working_directory".toList "runinfo".toList basePath [] with he
  have hargs : namevalueArgs (stackString (some [])) "%p".toList [.ptr 1] =
      .ok (.vPtr (.strdup []), basePath) := namevalueArgs_text (t := .path) rfl _
  have hcall : Routine.call .workdir o (fun _ => some []) (freshState false) =
      outcome (freshState false) (some [e]) := by
    show adiakWorkdir _ o.workdir (some []) = _
    have hfailure : ¬ reported (none : Option CStr) = 1 := show ¬ (-1 : Int) = 1 by decide
    unfold adiakWorkdir recordBuffer
    rw [hworkdir, if_neg hfailure, fillBuffer, Option.none_or, adiakNamevalue_outcome _ _ _ hargs]
    rfl
  have hevents : Routine.events .workdir o false = none := congrArg (Option.map _) hworkdir
  have hfailed := h.failed .workdir (fun _ => some []) (freshState false) hevents
  obtain ⟨s, hs⟩ := recordAll_fresh false (e := e) rfl
  rw [hcall, outcome_some, hs, ok_bind] at hfailed
  have hret : (0 : Int) = -1 := congrArg Prod.fst (Except.ok.inj hfailed)
  exact absurd hret (by decide)

/-- `adiak_collect_all` does what it is to do exactly if `adksys_get_cwd` does not fail and the
arrays it records are no longer than `copy_value` can count. -/
theorem collectsSucceeded_iff (o : Outcomes) : CollectsSucceeded o ↔ Recordable o := by
  refine ⟨fun h => ⟨?_, ?_, ?_, ?_⟩, collectsSucceeded_of_recordable⟩
  · exact fun hworkdir => not_collectsSucceeded_of_workdir hworkdir h
  · intro a ha
    by_contra hlen
    have harray := adiakNamevalue_array (freshState false) "libraries".toList "binary".toList a
      "[%p]".toList (.inr rfl) rfl (parse_paths _)
    rw [if_neg hlen] at harray
    refine not_collectsSucceeded .libraries false (congrArg (Option.map _) ha) (fun _ => none) ?_ h
    show adiakLibraries _ o.libraries = _
    rw [Option.mem_def.mp ha]
    unfold adiakLibraries
    dsimp only
    rw [harray]
    rfl
  · intro buffer hbuffer
    by_contra hlen
    refine not_collectsSucceeded .cmdline false (congrArg (Option.map _) hbuffer) (fun _ => none) ?_ h
    unfold Routine.call
    dsimp only
    rw [Option.mem_def.mp hbuffer]
    dsimp only
    rw [adiakCmdline_buffer, if_neg hlen]
  · intro a ha
    by_contra hlen
    have harray := adiakNamevalue_array (freshState true) "hostlist".toList "host".toList a
      "[%s]".toList (.inl rfl) rfl (parse_strings _)
    rw [if_neg hlen] at harray
    refine not_collectsSucceeded .hostlist true (congrArg (Option.map _) ha) (fun _ => none) ?_ h
    show adiakHostlist _ o.hostlist = _
    unfold adiakHostlist
    rw [Option.mem_def.mp ha]
    show (if a.base ≠ 0 then _ else _) = _
    rw [if_pos a.base_ne, harray]

/-- A system on which every query fails. -/
def allFailed : Outcomes where
  user := none
  uid := none
  launchdate := none
  launchday := none
  executable := none
  executablepath := none
  workdir := none
  libraries := none
  cmdline := none
  hostname := none
  clustername := none
  jobSize := none
  numHosts := none
  hostlist := none
  mpiVersion := none
  mpiLibraryVersion := none

theorem collectsSucceeded_not_always : ¬ ∀ o, CollectsSucceeded o := fun h =>
  not_collectsSucceeded_of_workdir (o := allFailed) rfl (h allFailed)

end Adiak
