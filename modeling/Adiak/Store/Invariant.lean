import Mathlib.Data.List.Find
import Adiak.Library.Ledger
import Adiak.Store.Record

/-!
# The invariant of the record store

1. `Serves s own rs`: the list of `s` holds the records `rs`, in order, and the hash chain of every
   bucket links exactly those that `own` selects and that hash to it. It is kept when a record is
   put in front (`Serves.insert`) and when one is overwritten in place (`Serves.overwrite`).
2. `Holds s rs` is the case of one copy of the library: all records are its own.
3. Recording a value keeps `Holds` (`recordNameval_holds`), and to the entries of the records it is
   a posting to a ledger.
-/

namespace Adiak

/-- The records `rs`, with their addresses, are the shared list of `s`, and the hash chains of `s`
link those that `own` selects by their address. -/
structure Serves (s : AdiakState) (own : Nat → Bool) (rs : List (Nat × Record)) : Prop where
  mem : ∀ x ∈ rs, s.records x.1 = some x.2
  fresh : ∀ x ∈ rs, x.1 < s.brk
  list : Chain.Linked Record.listNext s.records s.config.sharedRecordList (rs.map Prod.fst)
  chain : ∀ b, Chain.Linked Record.hashNext s.records (s.recordHash b)
    ((rs.filter fun x => own x.1 && bucket x.2.name = b).map Prod.fst)
  nodup : ((rs.filter fun x => own x.1).map fun x => x.2.name).Nodup
  info : ∀ x ∈ rs, x.2.info.category = x.2.category ∧ x.2.info.subcategory = x.2.subcategory

/-- The records `rs`, with their addresses, are the shared list of `s` and its hash chains. -/
structure Holds (s : AdiakState) (rs : List (Nat × Record)) : Prop where
  mem : ∀ x ∈ rs, s.records x.1 = some x.2
  fresh : ∀ x ∈ rs, x.1 < s.brk
  list : Chain.Linked Record.listNext s.records s.config.sharedRecordList (rs.map Prod.fst)
  chain : ∀ b, Chain.Linked Record.hashNext s.records (s.recordHash b)
    ((rs.filter fun x => bucket x.2.name = b).map Prod.fst)
  nodup : (rs.map fun x => x.2.name).Nodup
  info : ∀ x ∈ rs, x.2.info.category = x.2.category ∧ x.2.info.subcategory = x.2.subcategory

/-- The entry of a record in the ledger of the store. -/
def Record.entry (r : Record) : CStr × Registration := (r.name, r.registration)

def Event.registration (e : Event) : Registration where
  category := e.category
  subcategory := e.subcategory
  value := e.value
  dtype := e.dtype

/-- The entry of an event. -/
def Event.entry (e : Event) : CStr × Registration := (e.name, e.registration)

/-! ## The hash list -/

@[simp] theorem recordHash_setRecordHash (s : AdiakState) (b : Bucket) (p : Option Nat) :
    (s.setRecordHash b p).recordHash = Function.update s.recordHash b p := by
  unfold AdiakState.setRecordHash AdiakState.recordHash
  by_cases h : s.config.minimumVersion ≥ 1 <;> simp [h]

@[simp] theorem records_setRecordHash (s : AdiakState) (b : Bucket) (p : Option Nat) :
    (s.setRecordHash b p).records = s.records := by
  unfold AdiakState.setRecordHash
  split_ifs <;> rfl

@[simp] theorem brk_setRecordHash (s : AdiakState) (b : Bucket) (p : Option Nat) :
    (s.setRecordHash b p).brk = s.brk := by
  unfold AdiakState.setRecordHash
  split_ifs <;> rfl

@[simp] theorem sharedRecordList_setRecordHash (s : AdiakState) (b : Bucket) (p : Option Nat) :
    (s.setRecordHash b p).config.sharedRecordList = s.config.sharedRecordList := by
  unfold AdiakState.setRecordHash
  split_ifs <;> rfl

/-! ## Lists and chains -/

section Serves

variable {s s' : AdiakState} {own own' : Nat → Bool} {rs : List (Nat × Record)}

theorem Serves.length_list (h : Serves s own rs) : (rs.map Prod.fst).length ≤ s.brk :=
  h.list.length_le fun p hp => by
    obtain ⟨x, hx, rfl⟩ := List.mem_map.mp hp
    exact h.fresh x hx

theorem Serves.length_chain (h : Serves s own rs) (b : Bucket) :
    ((rs.filter fun x => own x.1 && bucket x.2.name = b).map Prod.fst).length ≤ s.brk :=
  (h.chain b).length_le fun p hp => by
    obtain ⟨x, hx, rfl⟩ := List.mem_map.mp hp
    exact h.fresh x (List.mem_of_mem_filter hx)

/-- The search of a name in its bucket is the search among the records that are linked. -/
theorem Serves.findRecordByName_eq (h : Serves s own rs) (name : CStr) :
    s.findRecordByName name =
      .ok ((rs.find? fun x => own x.1 && x.2.name = name).map Prod.fst) := by
  unfold AdiakState.findRecordByName
  rw [Chain.search_eq (h.chain (bucket name)) (h.length_chain (bucket name)), List.find?_map]
  congr 2
  rw [List.find?_filter]
  refine List.find?_congr fun x hx => ?_
  rw [Function.comp_apply, h.mem x hx, Option.any_some]
  by_cases hname : x.2.name = name <;> simp [hname]

theorem Serves.sharedRecords_eq (h : Serves s own rs) : s.sharedRecords = .ok rs := by
  unfold AdiakState.sharedRecords
  rw [Chain.traverse_eq h.list h.length_list, List.filterMap_map]
  congr 1
  have hmem : ∀ x ∈ rs, ((fun p => (s.records p).map (p, ·)) ∘ Prod.fst) x = some x := fun x hx => by
    rw [Function.comp_apply, h.mem x hx, Option.map_some]
  exact (List.filterMap_congr hmem).trans List.filterMap_some

/-- The addresses of the records are distinct. -/
theorem Serves.eq_of_fst (h : Serves s own rs) {x y : Nat × Record} (hx : x ∈ rs) (hy : y ∈ rs)
    (hfst : y.1 = x.1) : y = x := by
  have hrec := h.mem y hy
  rw [hfst, h.mem x hx] at hrec
  exact Prod.ext hfst (Option.some.inj hrec).symm

/-- A record in front of the list. It goes in front of its chain if it is selected. -/
theorem Serves.insert (h : Serves s own rs) {r : Record}
    (hrecords : s'.records = Function.update s.records s.brk (some r)) (hbrk : s'.brk = s.brk + 1)
    (hlist : s'.config.sharedRecordList = some s.brk) (hnext : r.listNext = s.config.sharedRecordList)
    (hown : ∀ p < s.brk, own' p = own p)
    (hhash : s'.recordHash = if own' s.brk then
      Function.update s.recordHash (bucket r.name) (some s.brk) else s.recordHash)
    (hchain : own' s.brk = true → r.hashNext = s.recordHash (bucket r.name))
    (hnew : own' s.brk = true → r.name ∉ (rs.filter fun x => own x.1).map fun x => x.2.name)
    (hinfo : r.info.category = r.category ∧ r.info.subcategory = r.subcategory) :
    Serves s' own' ((s.brk, r) :: rs) := by
  have hne : ∀ x ∈ rs, x.1 ≠ s.brk := fun x hx => Nat.ne_of_lt (h.fresh x hx)
  have hold : ∀ x ∈ rs, s'.records x.1 = s.records x.1 := fun x hx => by
    rw [hrecords, Function.update_of_ne (hne x hx)]
  have hself : s'.records s.brk = some r := by
    rw [hrecords, Function.update_self]
  have hsame : ∀ x ∈ rs, own' x.1 = own x.1 := fun x hx => hown x.1 (h.fresh x hx)
  constructor
  · rintro x (_ | ⟨_, hx⟩)
    · exact hself
    · rw [hold x hx, h.mem x hx]
  · rintro x (_ | ⟨_, hx⟩)
    · rw [hbrk]; exact Nat.lt_succ_self _
    · rw [hbrk]; exact Nat.lt_succ_of_lt (h.fresh x hx)
  · rw [hlist]
    refine .cons hself ?_
    rw [hnext]
    refine h.list.congr fun p hp => ?_
    obtain ⟨x, hx, rfl⟩ := List.mem_map.mp hp
    rw [hold x hx]
  · intro b
    have hfilter : (rs.filter fun x => own' x.1 && bucket x.2.name = b) =
        rs.filter fun x => own x.1 && bucket x.2.name = b :=
      List.filter_congr fun x hx => by rw [hsame x hx]
    have htail : Chain.Linked Record.hashNext s'.records (s.recordHash b)
        ((rs.filter fun x => own x.1 && bucket x.2.name = b).map Prod.fst) := by
      refine (h.chain b).congr fun p hp => ?_
      obtain ⟨x, hx, rfl⟩ := List.mem_map.mp hp
      rw [hold x (List.mem_of_mem_filter hx)]
    rw [hhash, List.filter_cons, hfilter]
    by_cases hsel : own' s.brk = true
    · by_cases hb : bucket r.name = b
      · subst hb
        simp only [hsel, decide_true, Bool.and_self, if_true, Function.update_self, List.map_cons]
        exact .cons hself (by rw [hchain hsel]; exact htail)
      · simp only [hsel, hb, decide_false, Bool.and_false, if_true, Bool.false_eq_true, if_false,
          Function.update_of_ne (Ne.symm hb)]
        exact htail
    · rw [Bool.not_eq_true] at hsel
      simp only [hsel, Bool.false_and, Bool.false_eq_true, if_false]
      exact htail
  · have hfilter : (rs.filter fun x => own' x.1) = rs.filter fun x => own x.1 :=
      List.filter_congr hsame
    rw [List.filter_cons, hfilter]
    by_cases hsel : own' s.brk = true
    · rw [if_pos hsel]
      exact List.nodup_cons.mpr ⟨hnew hsel, h.nodup⟩
    · rw [if_neg hsel]
      exact h.nodup
  · rintro x (_ | ⟨_, hx⟩)
    · exact hinfo
    · exact h.info x hx

/-- The records once the one at `p` is replaced. -/
def replaceAt (rs : List (Nat × Record)) (p : Nat) (r : Record) : List (Nat × Record) :=
  rs.map fun y => if y.1 = p then (y.1, r) else y

/-- Choosing records by their address commutes with replacing one. -/
theorem filter_replaceAt (test : Nat → Bool) (p : Nat) (r : Record) :
    (replaceAt rs p r).filter (fun y => test y.1) = replaceAt (rs.filter fun y => test y.1) p r := by
  unfold replaceAt
  rw [List.filter_map]
  congr 1
  refine List.filter_congr fun y _ => ?_
  rw [Function.comp_apply]
  split_ifs <;> rfl

/-- A record overwritten in place: its name and its links stay. -/
theorem Serves.overwrite (h : Serves s own rs) {x : Nat × Record} (hx : x ∈ rs) {r : Record}
    (hrecords : s'.records = Function.update s.records x.1 (some r)) (hbrk : s'.brk = s.brk)
    (hlist : s'.config.sharedRecordList = s.config.sharedRecordList)
    (hhash : s'.recordHash = s.recordHash) (hname : r.name = x.2.name)
    (hlistNext : r.listNext = x.2.listNext) (hhashNext : r.hashNext = x.2.hashNext)
    (hinfo : r.info.category = r.category ∧ r.info.subcategory = r.subcategory) :
    Serves s' own (replaceAt rs x.1 r) := by
  have hself : s'.records x.1 = some r := by rw [hrecords, Function.update_self]
  have hold : ∀ y : Nat × Record, y.1 ≠ x.1 → s'.records y.1 = s.records y.1 := fun y hy => by
    rw [hrecords, Function.update_of_ne hy]
  have hlinks : ∀ {α : Type} (next : Record → α), next r = next x.2 → ∀ p ∈ rs.map Prod.fst,
      (s'.records p).map next = (s.records p).map next := by
    intro α next hnext p hp
    obtain ⟨y, hy, rfl⟩ := List.mem_map.mp hp
    by_cases hyx : y.1 = x.1
    · rw [hyx, hself, h.mem x hx, Option.map_some, Option.map_some, hnext]
    · rw [hold y hyx]
  -- a change of records that keeps address and name changes nothing that is linked
  have hfst : ∀ y ∈ rs, (if y.1 = x.1 then (y.1, r) else y).1 = y.1 := fun y _ => by
    split_ifs <;> rfl
  have hnames : ∀ y ∈ rs, (if y.1 = x.1 then (y.1, r) else y).2.name = y.2.name := by
    intro y hy
    split_ifs with hyx
    · rw [h.eq_of_fst hx hy hyx]
      exact hname
    · rfl
  have hfilter : ∀ {α : Type} (f : Nat × Record → α) (test : Nat → CStr → Bool),
      (∀ y ∈ rs, f (if y.1 = x.1 then (y.1, r) else y) = f y) →
        ((replaceAt rs x.1 r).filter fun y => test y.1 y.2.name).map f =
          (rs.filter fun y => test y.1 y.2.name).map f := by
    intro α f test hf
    unfold replaceAt
    rw [List.filter_map, List.map_map]
    have htest : rs.filter ((fun y => test y.1 y.2.name) ∘
        fun y => if y.1 = x.1 then (y.1, r) else y) = rs.filter fun y => test y.1 y.2.name :=
      List.filter_congr fun y hy => by rw [Function.comp_apply, hfst y hy, hnames y hy]
    rw [htest]
    exact List.map_congr_left fun y hy => hf y (List.mem_of_mem_filter hy)
  have hmap : (replaceAt rs x.1 r).map Prod.fst = rs.map Prod.fst := by
    unfold replaceAt
    rw [List.map_map]
    exact List.map_congr_left hfst
  constructor
  · intro y hy
    obtain ⟨z, hz, rfl⟩ := List.mem_map.mp hy
    split_ifs with hzx
    · exact hzx ▸ hself
    · rw [hold z hzx, h.mem z hz]
  · intro y hy
    obtain ⟨z, hz, rfl⟩ := List.mem_map.mp hy
    rw [hbrk, hfst z hz]
    exact h.fresh z hz
  · rw [hlist, hmap]
    exact h.list.congr (hlinks Record.listNext hlistNext)
  · intro b
    rw [hhash, hfilter Prod.fst (fun p name => own p && bucket name = b) hfst]
    refine (h.chain b).congr fun p hp => hlinks Record.hashNext hhashNext p ?_
    obtain ⟨y, hy, rfl⟩ := List.mem_map.mp hp
    exact List.mem_map_of_mem (List.mem_of_mem_filter hy)
  · rw [hfilter (fun y => y.2.name) (fun p _ => own p) hnames]
    exact h.nodup
  · intro y hy
    obtain ⟨z, hz, rfl⟩ := List.mem_map.mp hy
    split_ifs
    · exact hinfo
    · exact h.info z hz

/-- The entries of the records, looked up by name. -/
theorem lookup_entries (rs : List (Nat × Record)) (name : CStr) :
    Ledger.lookup (rs.map fun x => x.2.entry) name =
      (rs.find? fun x => x.2.name = name).map fun x => x.2.registration := by
  induction rs with
  | nil => rfl
  | cons x rs ih =>
    have hiff : name = x.2.entry.1 ↔ x.2.name = name := eq_comm
    rw [List.map_cons, Ledger.lookup_cons, List.find?_cons, ih]
    by_cases h : x.2.name = name
    · rw [if_pos (hiff.mpr h)]
      simp [Record.entry, h]
    · rw [if_neg fun he => h (hiff.mp he)]
      simp [h]

/-- Following the address that a search has found. -/
theorem Serves.find_mem (h : Serves s own rs) {name : CStr} {x : Nat × Record}
    (hx : rs.find? (fun x => own x.1 && x.2.name = name) = some x) :
    x ∈ rs ∧ own x.1 = true ∧ x.2.name = name ∧ s.deref x.1 = .ok x.2 := by
  have hmem := List.mem_of_find?_eq_some hx
  have htest : (own x.1 && x.2.name = name) = true := by simpa using List.find?_some hx
  obtain ⟨hown, hname⟩ := Bool.and_eq_true_iff.mp htest
  refine ⟨hmem, hown, of_decide_eq_true hname, ?_⟩
  unfold AdiakState.deref
  rw [h.mem x hmem]

/-- `adiak_get_nameval` looks the name up among the entries of the records that are linked. -/
theorem Serves.adiakGetNameval_eq (h : Serves s own rs) (name : CStr) :
    adiakGetNameval s name =
      .ok (Ledger.lookup ((rs.filter fun x => own x.1).map fun x => x.2.entry) name) := by
  unfold adiakGetNameval
  rw [h.findRecordByName_eq, lookup_entries, List.find?_filter]
  cases hx : rs.find? fun x => own x.1 && x.2.name = name with
  | none =>
    simp only [Option.map_none, ok_bind, Bool.decide_and, Bool.decide_eq_true, hx]
  | some x =>
    obtain ⟨-, -, -, hderef⟩ := h.find_mem hx
    simp only [Option.map_some, ok_bind, hderef, Bool.decide_and, Bool.decide_eq_true, hx]

end Serves

/-- One copy of the library serves all records. -/
theorem holds_iff {s : AdiakState} {rs : List (Nat × Record)} :
    Holds s rs ↔ Serves s (fun _ => true) rs := by
  constructor
  · intro h
    exact ⟨h.mem, h.fresh, h.list, by simpa using h.chain, by simpa using h.nodup, h.info⟩
  · intro h
    exact ⟨h.mem, h.fresh, h.list, by simpa using h.chain, by simpa using h.nodup, h.info⟩

/-! ## Lookup -/

section Lookup

variable {s : AdiakState} {rs : List (Nat × Record)}

/-- The search of a name in its bucket is the search in the whole list. -/
theorem Holds.findRecordByName_eq (h : Holds s rs) (name : CStr) :
    s.findRecordByName name = .ok ((rs.find? fun x => x.2.name = name).map Prod.fst) := by
  rw [(holds_iff.mp h).findRecordByName_eq]
  simp only [Bool.true_and]

theorem Holds.find_mem (h : Holds s rs) {name : CStr} {x : Nat × Record}
    (hx : rs.find? (fun x => x.2.name = name) = some x) :
    x ∈ rs ∧ x.2.name = name ∧ s.deref x.1 = .ok x.2 := by
  obtain ⟨hmem, -, hname, hderef⟩ := (holds_iff.mp h).find_mem (x := x) (by simpa using hx)
  exact ⟨hmem, hname, hderef⟩

/-- `adiak_get_nameval_with_info` gives the same value and type, and an info that agrees. -/
theorem Holds.adiakGetNamevalWithInfo_eq (h : Holds s rs) (name : CStr) :
    ∃ found, adiakGetNamevalWithInfo s name = .ok found ∧
      found.map (fun f => Registration.mk f.2.2.category f.2.2.subcategory f.2.1 f.1) =
        Ledger.lookup (rs.map fun x => x.2.entry) name := by
  unfold adiakGetNamevalWithInfo
  rw [h.findRecordByName_eq, lookup_entries]
  cases hx : rs.find? fun x => x.2.name = name with
  | none => exact ⟨none, rfl, rfl⟩
  | some x =>
    obtain ⟨hmem, -, hderef⟩ := h.find_mem hx
    obtain ⟨hcat, hsub⟩ := h.info x hmem
    refine ⟨some (x.2.dtype, x.2.value, x.2.info), ?_, ?_⟩
    · rw [ok_bind]
      simp only [Option.map_some, hderef, ok_bind]
    · simp only [Option.map_some, hcat, hsub]
      rfl

end Lookup

/-! ## Recording -/

section Recording

variable {s : AdiakState} {rs : List (Nat × Record)} {e : Event}

/-- A new name goes in front of the list and in front of its chain. -/
theorem Holds.addRecord (h : Holds s rs) (hnew : e.name ∉ rs.map fun x => x.2.name) :
    Holds (addRecord s e) ((s.brk, newRecord s e) :: rs) := by
  refine holds_iff.mpr ((holds_iff.mp h).insert ?_ ?_ ?_ rfl (fun _ _ => rfl) ?_ (fun _ => rfl) ?_
    ⟨rfl, rfl⟩)
  · simp [Adiak.addRecord]
  · simp [Adiak.addRecord]
  · simp [Adiak.addRecord]
  · simp only [Adiak.addRecord, recordHash_setRecordHash, if_true]
    rfl
  · intro _
    have hname : (newRecord s e).name = e.name := rfl
    simpa [hname] using hnew

/-- The records once the record of `e.name` is overwritten. -/
def overwriteAt (rs : List (Nat × Record)) (e : Event) (timestamp : Nat) : List (Nat × Record) :=
  rs.map fun x => if x.2.name = e.name then (x.1, x.2.overwrite e timestamp) else x

/-- With one record of each name, the record of a name is overwritten at its address. -/
theorem replaceAt_eq_overwriteAt {x : Nat × Record} {timestamp : Nat}
    (hfst : ∀ y ∈ rs, y.1 = x.1 → y = x) (hnodup : (rs.map fun y => y.2.name).Nodup) (hx : x ∈ rs)
    (hname : x.2.name = e.name) :
    replaceAt rs x.1 (x.2.overwrite e timestamp) = overwriteAt rs e timestamp := by
  refine List.map_congr_left fun y hy => ?_
  by_cases hyname : y.2.name = e.name
  · obtain rfl := List.inj_on_of_nodup_map hnodup hy hx (hyname.trans hname.symm)
    rw [if_pos rfl, if_pos hyname]
  · have hyx : y.1 ≠ x.1 := fun hyx => hyname (hfst y hy hyx ▸ hname)
    rw [if_neg hyx, if_neg hyname]

/-- A known name is overwritten in place. -/
theorem Holds.overwriteRecord (h : Holds s rs) {x : Nat × Record} (hx : x ∈ rs)
    (hname : x.2.name = e.name) :
    Holds (overwriteRecord s x.1 x.2 e) (overwriteAt rs e s.ticks) := by
  have hserves : Serves (Adiak.overwriteRecord s x.1 x.2 e) (fun _ => true)
      (replaceAt rs x.1 (x.2.overwrite e s.ticks)) :=
    (holds_iff.mp h).overwrite hx rfl rfl rfl rfl rfl rfl rfl ⟨rfl, rfl⟩
  rw [replaceAt_eq_overwriteAt (fun y hy => (holds_iff.mp h).eq_of_fst hx hy) h.nodup hx hname]
    at hserves
  exact holds_iff.mpr hserves

theorem keys_entries (rs : List (Nat × Record)) :
    Ledger.keys (rs.map fun x => x.2.entry) = rs.map fun x => x.2.name := by
  unfold Ledger.keys
  rw [List.map_map]
  rfl

/-- To the entries, an overwritten record is a posting. -/
theorem entries_overwriteAt {timestamp : Nat} (hknown : e.name ∈ rs.map fun x => x.2.name) :
    (overwriteAt rs e timestamp).map (fun x => x.2.entry) =
      Ledger.post (rs.map fun x => x.2.entry) e.entry := by
  have hkeys : e.entry.1 ∈ Ledger.keys (rs.map fun x => x.2.entry) := by
    rw [keys_entries]; exact hknown
  unfold Ledger.post overwriteAt
  rw [if_pos hkeys, List.map_map, List.map_map]
  refine List.map_congr_left fun x _ => ?_
  have hentry : x.2.entry.1 = e.entry.1 ↔ x.2.name = e.name := Iff.rfl
  rw [Function.comp_apply, Function.comp_apply]
  by_cases h : x.2.name = e.name
  · rw [if_pos h, if_pos (hentry.mpr h)]
    unfold Record.entry Event.entry
    rw [← h]
    rfl
  · rw [if_neg h, if_neg fun he => h (hentry.mp he)]

/-- To the entries, a new record is a posting. -/
theorem entries_addRecord (hnew : e.name ∉ rs.map fun x => x.2.name) :
    ((s.brk, newRecord s e) :: rs).map (fun x => x.2.entry) =
      Ledger.post (rs.map fun x => x.2.entry) e.entry := by
  have hkeys : e.entry.1 ∉ Ledger.keys (rs.map fun x => x.2.entry) := by
    rw [keys_entries]; exact hnew
  unfold Ledger.post
  rw [if_neg hkeys]
  rfl

/-- What recording leaves alone: the tools, the rank and the flags. -/
def AdiakState.rest (s : AdiakState) : Option (List Tool) × Bool × Nat × Bool × Bool × Bool :=
  (s.config.toolList, s.config.reportableRank, s.toolBrk, s.measureWalltime, s.measureSystime,
    s.measureCputime)

theorem rest_setRecordHash (s : AdiakState) (b : Bucket) (p : Option Nat) :
    (s.setRecordHash b p).rest = s.rest ∧ (s.setRecordHash b p).log = s.log := by
  unfold AdiakState.setRecordHash
  split_ifs
  · exact ⟨rfl, rfl⟩
  · exact ⟨rfl, rfl⟩

/-- Recording a value posts its entry. -/
theorem recordNameval_holds (h : Holds s rs) {s' : AdiakState} {info : RecordInfo}
    (hrec : recordNameval s e = .ok (s', info)) :
    ∃ rs', Holds s' rs' ∧
      rs'.map (fun x => x.2.entry) = Ledger.post (rs.map fun x => x.2.entry) e.entry ∧
      s'.rest = s.rest ∧ s'.log = s.log := by
  unfold recordNameval at hrec
  rw [h.findRecordByName_eq, ok_bind] at hrec
  cases hx : rs.find? fun x => x.2.name = e.name with
  | none =>
    have hnew : e.name ∉ rs.map fun x => x.2.name := by
      intro hmem
      obtain ⟨x, hx', hname⟩ := List.mem_map.mp hmem
      exact absurd (List.find?_eq_none.mp hx x hx') (by simpa using hname)
    rw [hx] at hrec
    obtain ⟨rfl, -⟩ : addRecord s e = s' ∧ newInfo e s.ticks = info := by simpa using hrec
    exact ⟨_, h.addRecord hnew, entries_addRecord hnew, rest_setRecordHash _ _ _⟩
  | some x =>
    obtain ⟨hmem, hname, hderef⟩ := h.find_mem hx
    rw [hx] at hrec
    simp only [Option.map_some, hderef, ok_bind] at hrec
    obtain ⟨-, -, hrec⟩ := bind_eq_ok.mp hrec
    obtain ⟨rfl, -⟩ : overwriteRecord s x.1 x.2 e = s' ∧ newInfo e s.ticks = info := by
      simpa using hrec
    have hknown : e.name ∈ rs.map fun x => x.2.name := List.mem_map.mpr ⟨x, hmem, hname⟩
    exact ⟨_, h.overwriteRecord hmem hname, entries_overwriteAt hknown, rfl, rfl⟩

end Recording

/-! ## Events -/

/-- The entries an event leaves in the ledger: control events bypass the store. -/
def Event.registered (e : Event) : List (CStr × Registration) :=
  if e.category = adiakControl then [] else [e.entry]

/-- What a call to a tool carries. -/
def Notice.content (n : Notice) : Nat × CStr × AdiakValue × AdiakDatatype :=
  (n.tool, n.name, n.value, n.dtype)

/-- Whether an event is shown to a tool. -/
def Tool.notified (tool : Tool) (reportableRank : Bool) (e : Event) : Bool :=
  tool.wants reportableRank e.category && (tool.nameValCb || tool.namevalInfoCb)

/-- The calls an event leads to. -/
def deliveries (tools : List Tool) (reportableRank : Bool) (e : Event) :
    List (Nat × CStr × AdiakValue × AdiakDatatype) :=
  (tools.filter fun tool => tool.notified reportableRank e).map fun tool =>
    (tool.id, e.name, e.value, e.dtype)

theorem content_notifyTools (e : Event) (reportableRank : Bool) (tools : List Tool)
    (infoPtr : Option InfoPtr) (ticks : Nat) :
    (notifyTools e reportableRank tools infoPtr ticks).1.map Notice.content =
      deliveries tools reportableRank e := by
  induction tools generalizing infoPtr ticks with
  | nil => rfl
  | cons tool tools ih =>
    unfold deliveries at ih ⊢
    unfold notifyTools Tool.notified
    unfold Tool.notified at ih
    rw [List.filter_cons]
    cases hwants : tool.wants reportableRank e.category with
    | false => simpa [hwants] using ih infoPtr ticks
    | true =>
      cases hcb : tool.nameValCb with
      | true => simp [ih, Event.notice, Notice.content]
      | false =>
        cases hinfo : tool.namevalInfoCb with
        | false => simpa using ih infoPtr ticks
        | true => cases infoPtr <;> simp [ih, Event.notice, Notice.content]

/-- What an event does to the store and to the log. -/
theorem adiakRawNamevalue_holds {s s' : AdiakState} {rs : List (Nat × Record)} {e : Event}
    (h : Holds s rs) (hraw : adiakRawNamevalue s e = .ok s') :
    ∃ tools rs', s.config.toolList = some tools ∧ Holds s' rs' ∧
      rs'.map (fun x => x.2.entry) = e.registered.foldl Ledger.post (rs.map fun x => x.2.entry) ∧
      s'.rest = s.rest ∧
      s'.log.map Notice.content =
        s.log.map Notice.content ++ deliveries tools s.config.reportableRank e := by
  unfold adiakRawNamevalue at hraw
  obtain ⟨⟨s₁, infoPtr⟩, hrec, hraw⟩ := bind_eq_ok.mp hraw
  -- the store after recording, before the tools are called
  have hstore : ∃ rs', Holds s₁ rs' ∧
      rs'.map (fun x => x.2.entry) = e.registered.foldl Ledger.post (rs.map fun x => x.2.entry) ∧
      s₁.rest = s.rest ∧ s₁.log = s.log := by
    unfold recordEvent at hrec
    unfold Event.registered
    by_cases hcat : e.category = adiakControl
    · rw [if_neg (not_not.mpr hcat)] at hrec
      obtain ⟨rfl, -⟩ : s = s₁ ∧ none = infoPtr := by simpa using hrec
      rw [if_pos hcat]
      exact ⟨rs, h, rfl, rfl, rfl⟩
    · rw [if_pos hcat] at hrec
      obtain ⟨⟨s₂, info⟩, hnew, heq⟩ := bind_eq_ok.mp hrec
      obtain ⟨rfl, -⟩ : s₂ = s₁ ∧ some (InfoPtr.stored info) = infoPtr := by simpa using heq
      rw [if_neg hcat]
      exact recordNameval_holds h hnew
  obtain ⟨rs', hholds, hentries, hrest, hlog⟩ := hstore
  have htools : s₁.config.toolList = s.config.toolList := congrArg Prod.fst hrest
  have hrank : s₁.config.reportableRank = s.config.reportableRank :=
    congrArg (fun x => x.2.1) hrest
  cases hlist : s₁.config.toolList with
  | none => simp only [hlist] at hraw; cases hraw
  | some tools =>
    simp only [hlist, Except.ok.injEq] at hraw
    subst hraw
    refine ⟨tools, rs', htools ▸ hlist, ?_, hentries, hrest, ?_⟩
    · exact ⟨hholds.mem, hholds.fresh, hholds.list, hholds.chain, hholds.nodup, hholds.info⟩
    · rw [List.map_append, content_notifyTools, hlog, hrank]

/-- What was recorded is what the next lookup finds. -/
theorem adiakRawNamevalue_getNameval {s s' : AdiakState} {rs : List (Nat × Record)} {e : Event}
    (h : Holds s rs) (hcat : e.category ≠ adiakControl) (hraw : adiakRawNamevalue s e = .ok s') :
    adiakGetNameval s' e.name = .ok (some e.registration) := by
  obtain ⟨tools, rs', -, hs', hentries, -, -⟩ := adiakRawNamevalue_holds h hraw
  have hregistered : e.registered = [e.entry] := if_neg hcat
  have hname : e.name = e.entry.1 := rfl
  rw [(holds_iff.mp hs').adiakGetNameval_eq, List.filter_true, hentries, hregistered, List.foldl_cons,
    List.foldl_nil, Ledger.lookup_post, if_pos hname]
  rfl

end Adiak
