import Adiak.Library.Collective
import Adiak.Memory
import Adiak.Typestring.Parser
import Mathlib

/-!
# The list of hosts

`get_unique_host`, `gethostlist` and `adksys_hostlist` of `adksys_mpi.c`, on all ranks of a job.

1. `nameBuffer` is the `name` of a rank, `hostnameColor` the hash of a round.
2. `RankState` holds the local variables of a rank and `Pc` the collective operation at which it is.
3. `Step`: the members of a communicator, all of them at the same operation on it, take the operation
   together. Communicators are independent, their steps are interleaved in any order.

The operations do not fail. A step runs the code of its members up to their next operations.
-/

namespace Adiak

/-! ## Names -/

/-- `MAX_HOSTNAME_LEN`. -/
def maxHostnameLen : Nat := 1025

/-- What `adksys_hostname` stores: the last character of the buffer stays free. -/
structure Hostname where
  text : CStr
  length_lt : text.length < maxHostnameLen
  noNul : nul ∉ text

/-- The zeroed `name` of `gethostlist` with the hostname, cut at the first dot. What stands behind the
dot stays in the buffer. -/
def nameBuffer (h : Hostname) : List Char :=
  let name := h.text ++ List.replicate (maxHostnameLen - h.text.length) nul
  match name.findIdx? (· = '.') with
  | some firstdot => name.set firstdot nul
  | none => name

/-- The string in the buffer. -/
def shortName (h : Hostname) : CStr := cStr (nameBuffer h)

/-- `hostname_color`: the characters are signed. -/
def hostnameColor (str : CStr) (index : Nat) : BitVec 32 :=
  str.foldl (fun hash c => ((hash <<< 5) + hash) +
    (BitVec.ofInt 32 (signed 1 c.toNat) ^^^ BitVec.ofNat 32 index)) 5381#32

/-- The color of a round: the hash without its sign. -/
def color (str : CStr) (index : Nat) : Int :=
  if (hostnameColor str index).toInt < 0 then wrapInt ((hostnameColor str index).toInt * -1)
  else (hostnameColor str index).toInt

/-! ## Ranks -/

/-- A communicator: its members in the order of their ranks. `context` tells communicators of
different rounds apart. -/
structure Comm (n : Nat) where
  context : Nat
  group : List (Fin n)

/-- `adiak_communicator`. -/
def adiakCommunicator (n : Nat) : Comm n where
  context := 0
  group := List.finRange n

/-- `MPI_COMM_NULL`. -/
def mpiCommNull (n : Nat) : Comm n where
  context := 0
  group := []

/-- The operation at which a rank is. -/
inductive Pc where
  /-- `get_unique_host`: `MPI_Comm_split` of `oldcomm`. -/
  | split
  /-- `MPI_Bcast` of `oname`. -/
  | bcast
  /-- `MPI_Allreduce` of `str_match`. -/
  | reduce
  /-- `gethostlist`, with the result of `get_unique_host`: `MPI_Comm_split` by it. -/
  | hostSplit
  /-- `MPI_Allreduce` of `namelen`. -/
  | hostReduce
  /-- `MPI_Gather` of `name`. -/
  | gather
  /-- `MPI_Bcast` of `max_hostlen`. -/
  | bcastLen
  /-- `MPI_Bcast` of `num_hosts`. -/
  | bcastNum
  /-- `MPI_Bcast` of `hostlist`. -/
  | bcastList
  /-- `adksys_hostlist` has returned `0`. -/
  | done
  /-- The rank has read or written out of bounds. -/
  | undefined
  deriving DecidableEq

/-- The local variables of a rank. `hostlist` is `NULL` or a block. -/
structure RankState (n : Nat) where
  pc : Pc
  index : Nat
  oldcomm : Comm n
  newcomm : Comm n
  oname : CStr
  uniqueHost : Int
  hostcomm : Comm n
  numHosts : Nat
  maxHostlen : Nat
  hostlist : Option (List Char)

/-- A rank that has called `adksys_hostlist` for the first time. -/
def RankState.initial (n : Nat) : RankState n where
  pc := .split
  index := 0
  oldcomm := adiakCommunicator n
  newcomm := mpiCommNull n
  oname := []
  uniqueHost := 0
  hostcomm := mpiCommNull n
  numHosts := 0
  maxHostlen := 0
  hostlist := none

/-- The communicator of an operation. -/
def RankState.comm {n : Nat} (st : RankState n) : Pc → Comm n
  | .split => st.oldcomm
  | .bcast | .reduce => st.newcomm
  | .hostReduce | .gather => st.hostcomm
  | .hostSplit | .bcastLen | .bcastNum | .bcastList => adiakCommunicator n
  | .done | .undefined => mpiCommNull n

/-- The states of all ranks. -/
abbrev RankStates (n : Nat) := Fin n → RankState n

/-- The key of `MPI_Comm_split`: the rank in `adiak_communicator`. -/
def globalRank {n : Nat} (r : Fin n) : Int := (r : Nat)

/-- `malloc` of a size that is an `int`: a negative one asks for more than there is. -/
def mallocChars (size : Int) : Option (List Char) :=
  if size < 0 then none else some (List.replicate size.toNat nul)

/-- Writing to the front of a block; `none` if it is too small or `NULL`. -/
def writeFront (block : Option (List Char)) (data : List Char) : Option (List Char) :=
  match block with
  | none => none
  | some buf => if data.length ≤ buf.length then some (data ++ buf.drop data.length) else none

/-- `hostlist_size`. -/
def RankState.hostlistSize {n : Nat} (st : RankState n) : Int :=
  wrapInt ((st.maxHostlen : Int) * st.numHosts)

/-- `hostlist_array`: where the names start in `hostlist`. -/
def RankState.hostlistArray {n : Nat} (st : RankState n) : List Int :=
  (List.range st.numHosts).map fun (i : Nat) => wrapInt ((i : Int) * st.maxHostlen)

/-! ## Operations -/

section Operations

variable {n : Nat} (host : Fin n → Hostname)

/-- The split of a round, and the rank and the size in the new communicator. -/
def afterSplit (s : RankStates n) (c : Comm n) (r : Fin n) : RankState n :=
  { s r with
    pc := .bcast
    index := (s r).index + 1
    newcomm := ⟨c.context + 1, Collective.split c.group
      (fun r' => color (shortName (host r')) (s r').index) globalRank r⟩ }

/-- The name of rank `0`. -/
def afterBcast (s : RankStates n) (c : Comm n) (r : Fin n) : RankState n :=
  { s r with
    pc := .reduce
    oname := (Collective.bcast c.group fun r' => shortName (host r')).getD [] }

/-- The end of a round: one name for all ends the loop, with the result by the rank. -/
def afterReduce (s : RankStates n) (c : Comm n) (r : Fin n) : RankState n :=
  if Collective.land c.group fun r' => shortName (host r') = (s r').oname then
    { s r with
      pc := .hostSplit
      uniqueHost := if Collective.rank c.group r = 0 then 1 else 0 }
  else { s r with pc := .split, oldcomm := c }

/-- The split by `unique_host`: the others go on behind the `if`. -/
def afterHostSplit (s : RankStates n) (c : Comm n) (r : Fin n) : RankState n :=
  { s r with
    pc := if (s r).uniqueHost ≠ 0 then .hostReduce else .bcastLen
    hostcomm := ⟨c.context + 1, Collective.split c.group (fun r' => (s r').uniqueHost) globalRank r⟩ }

/-- The sizes. The rank `0` of `adiak_communicator` allocates the list. -/
def afterHostReduce (s : RankStates n) (c : Comm n) (r : Fin n) : RankState n :=
  let st := { s r with
    pc := .gather
    numHosts := c.group.length
    maxHostlen := Collective.maximum c.group (fun r' => (shortName (host r')).length) + 1 }
  { st with hostlist := if globalRank r = 0 then mallocChars st.hostlistSize else st.hostlist }

/-- The names, `max_hostlen` characters of each buffer, to the rank `0` of `hostcomm`. -/
def afterGather (s : RankStates n) (c : Comm n) (r : Fin n) : RankState n :=
  if Collective.rank c.group r = 0 then
    match writeFront (s r).hostlist
      (Collective.gather c.group fun r' => (nameBuffer (host r')).take (s r').maxHostlen) with
    | some list => { s r with pc := .bcastLen, hostlist := some list }
    | none => { s r with pc := .undefined }
  else { s r with pc := .bcastLen }

def afterBcastLen (s : RankStates n) (c : Comm n) (r : Fin n) : RankState n :=
  { s r with
    pc := .bcastNum
    maxHostlen := (Collective.bcast c.group fun r' => (s r').maxHostlen).getD 0 }

/-- The number of hosts; who has no list allocates one. -/
def afterBcastNum (s : RankStates n) (c : Comm n) (r : Fin n) : RankState n :=
  let st := { s r with
    pc := .bcastList
    numHosts := (Collective.bcast c.group fun r' => (s r').numHosts).getD 0 }
  { st with hostlist := st.hostlist.or (mallocChars st.hostlistSize) }

/-- The list, `hostlist_size` characters. -/
def afterBcastList (s : RankStates n) (c : Comm n) (r : Fin n) : RankState n :=
  match Collective.bcast c.group fun r' => (s r').hostlist with
  | some (some data) =>
    if (s r).hostlistSize.toNat ≤ data.length then
      match writeFront (s r).hostlist (data.take (s r).hostlistSize.toNat) with
      | some list => { s r with pc := .done, hostlist := some list }
      | none => { s r with pc := .undefined }
    else { s r with pc := .undefined }
  | _ => { s r with pc := .undefined }

/-- What an operation on `c` makes of a member. -/
def after (s : RankStates n) (c : Comm n) (r : Fin n) : RankState n :=
  match (s r).pc with
  | .split => afterSplit host s c r
  | .bcast => afterBcast host s c r
  | .reduce => afterReduce host s c r
  | .hostSplit => afterHostSplit s c r
  | .hostReduce => afterHostReduce host s c r
  | .gather => afterGather host s c r
  | .bcastLen => afterBcastLen s c r
  | .bcastNum => afterBcastNum s c r
  | .bcastList => afterBcastList s c r
  | .done | .undefined => s r

/-! ## Runs -/

/-- The members of a communicator take the operation at which all of them are. -/
inductive Step (s : RankStates n) : RankStates n → Prop
  | collective {pc : Pc} {c : Comm n} (hne : c.group ≠ [])
    (hall : ∀ r ∈ c.group, (s r).pc = pc ∧ (s r).comm pc = c) :
    Step s fun r => if r ∈ c.group then after host s c r else s r

/-- Some steps, one after another. -/
abbrev Steps : RankStates n → RankStates n → Prop := Relation.ReflTransGen (Step host)

/-- The states that a job reaches from the first calls on. -/
def Reachable (s : RankStates n) : Prop := Steps host (fun _ => RankState.initial n) s

end Operations

end Adiak
