import Adiak.Store.History

/-!
# Two copies of the library

Two copies of the library in one process find the same `adiak_t`, each with a `local_record_hash` of
its own. The list of records is always shared. The hash list is shared if `minimum_version` is 1 or
higher, and private to each copy if an older library's `adiak_public` was found.

1. `SharedState` is the process; `SharedState.view` is what a copy sees of it, `runShared` a run of
   calls by either copy in any order.
2. `Serves s own rs`: the list of `s` holds the records `rs`, and the hash chains of `s` link those
   that `own` selects. Recording keeps it for the copy that records (`Serves.insert`) and for the
   other one.
3. `runShared_store`: with a shared hash list the two copies act as one, with private ones each copy
   keeps and finds the names it has recorded itself.
-/

namespace Adiak

/-! ## The process -/

/-- The copies of the library. -/
inductive Copy where
  | first
  | second
  deriving DecidableEq

/-- The process: what the copies share, and the `local_record_hash` of each. The hash list inside
`process` is the one of the copy that ran last. -/
structure SharedState where
  process : AdiakState
  localRecordHash : Copy → Bucket → Option Nat

namespace SharedState

/-- The library as a copy sees it. -/
def view (w : SharedState) (copy : Copy) : AdiakState :=
  { w.process with localRecordHash := w.localRecordHash copy }

/-- The process once a copy has run. -/
def put (w : SharedState) (copy : Copy) (s : AdiakState) : SharedState where
  process := s
  localRecordHash := Function.update w.localRecordHash copy s.localRecordHash

end SharedState

/-- A call by one of the copies. -/
inductive SharedCall where
  | namevalue (m : Memory) (name : CStr) (category : Int) (subcategory : Option CStr)
    (typestr : List Char) (ap : List VArg)
  | getNameval (name : CStr)
  | listNamevals (category : Int)

/-- The process after a call of a copy. -/
def stepShared (w : SharedState) (copy : Copy) : SharedCall → Except Stop SharedState
  | .namevalue m name category subcategory typestr ap => do
    let (_, s) ← adiakNamevalue (w.view copy) m name category subcategory typestr ap
    .ok (w.put copy s)
  | .getNameval name => do
    let _ ← adiakGetNameval (w.view copy) name
    .ok w
  | .listNamevals category => do
    let _ ← adiakListNamevals (w.view copy) category
    .ok w

/-- The process after calls of both copies, in the order given. -/
def runShared (w : SharedState) : List (Copy × SharedCall) → Except Stop SharedState
  | [] => .ok w
  | (copy, c) :: cs => do
    let w ← stepShared w copy c
    runShared w cs

/-- The process before the first call, with the `adiak_t` that both copies find. -/
def initialShared (minimumVersion : Int) (reportableRank : Bool) (tools : List Tool) :
    SharedState where
  process :=
    let s := initialState minimumVersion reportableRank
    { s with config := { s.config with toolList := some tools } }
  localRecordHash := fun _ _ => none

/-- The registration a call issues, if there is one. -/
def SharedCall.registered : SharedCall → List (CStr × Registration)
  | .namevalue m name category subcategory typestr ap =>
    (namevalueEvents m name category subcategory typestr ap).flatMap Event.registered
  | _ => []

/-- The registrations of a run by the copies that pass a test. -/
def recordings (issuer : Copy → Bool) (calls : List (Copy × SharedCall)) :
    List (CStr × Registration) :=
  (calls.filter fun c => issuer c.1).flatMap fun c => c.2.registered

/-! ## The invariant -/

/-- Whether a copy finds what another one records: the hash list is shared, or they are the same. -/
def sees (w : SharedState) (copy maker : Copy) : Bool :=
  1 ≤ w.process.config.minimumVersion || copy = maker

/-- The records `rs` are the shared list, every copy serves those whose maker it sees, and to a copy
they are the ledger of the registrations it sees. -/
structure SharedInv (w : SharedState) (maker : Nat → Copy) (rs : List (Nat × Record))
    (history : Copy → List (CStr × Registration)) : Prop where
  serves : ∀ copy, Serves (w.view copy) (fun p => sees w copy (maker p)) rs
  entries : ∀ copy, (rs.filter fun x => sees w copy (maker x.1)).map (fun x => x.2.entry) =
    Ledger.replay (history copy)

theorem recordHash_view (w : SharedState) (copy : Copy) : (w.view copy).recordHash =
    if w.process.config.minimumVersion ≥ 1 then w.process.config.recordHash
    else w.localRecordHash copy := rfl

/-- Copies that see each other have the same chains and the same records. -/
theorem recordHash_of_sees {w : SharedState} {copy maker : Copy} (h : sees w copy maker = true) :
    (w.view copy).recordHash = (w.view maker).recordHash := by
  rw [recordHash_view, recordHash_view]
  unfold sees at h
  rw [Bool.or_eq_true, decide_eq_true_eq, decide_eq_true_eq] at h
  rcases h with h | rfl
  · rw [if_pos h, if_pos h]
  · rfl

theorem sees_of_sees {w : SharedState} {copy maker : Copy} (h : sees w copy maker = true) :
    sees w copy = sees w maker := by
  funext c
  unfold sees at h ⊢
  rw [Bool.or_eq_true, decide_eq_true_eq, decide_eq_true_eq] at h
  rcases h with h | rfl
  · rw [decide_eq_true h, Bool.true_or, Bool.true_or]
  · rfl

/-- Two copies that see a third one see each other. -/
theorem sees_trans {w : SharedState} {c copy maker : Copy} (h : sees w c maker = true)
    (h' : sees w copy maker = true) : sees w c copy = true := by
  unfold sees at h h' ⊢
  rw [Bool.or_eq_true, decide_eq_true_eq, decide_eq_true_eq] at h h' ⊢
  rcases h with h | rfl
  · exact .inl h
  · exact h'.imp_right Eq.symm

section Recording

variable {w : SharedState} {copy : Copy} {e : Event}

theorem minimumVersion_setRecordHash (s : AdiakState) (b : Bucket) (p : Option Nat) :
    (s.setRecordHash b p).config.minimumVersion = s.config.minimumVersion := by
  unfold AdiakState.setRecordHash
  split_ifs <;> rfl

theorem minimumVersion_addRecord (s : AdiakState) (e : Event) :
    (addRecord s e).config.minimumVersion = s.config.minimumVersion :=
  minimumVersion_setRecordHash _ _ _

/-- The chains of every copy once one of them has put a new record in front. -/
theorem recordHash_put_addRecord (c : Copy) :
    ((w.put copy (addRecord (w.view copy) e)).view c).recordHash =
      if sees w c copy then
        Function.update (w.view c).recordHash (bucket e.name) (some w.process.brk)
      else (w.view c).recordHash := by
  have hcopy : (addRecord (w.view copy) e).recordHash =
      Function.update (w.view copy).recordHash (bucket e.name) (some w.process.brk) := by
    simp only [addRecord, recordHash_setRecordHash]
    rfl
  have hversion : (w.view copy).config.minimumVersion = w.process.config.minimumVersion := rfl
  rw [recordHash_view]
  unfold AdiakState.recordHash at hcopy
  unfold SharedState.put
  simp only [minimumVersion_addRecord, hversion] at hcopy ⊢
  by_cases hshared : w.process.config.minimumVersion ≥ 1
  · rw [if_pos hshared, if_pos hshared] at hcopy
    have hsees : sees w c copy = true := by
      unfold sees
      rw [decide_eq_true hshared, Bool.true_or]
    rw [if_pos hshared, hcopy, if_pos hsees, recordHash_view, if_pos hshared]
    rfl
  · rw [if_neg hshared, if_neg hshared] at hcopy
    rw [if_neg hshared, recordHash_view, if_neg hshared]
    unfold sees
    rw [decide_eq_false hshared, Bool.false_or]
    by_cases hc : c = copy
    · subst hc
      rw [Function.update_self, hcopy, if_pos (decide_eq_true rfl)]
      rfl
    · rw [Function.update_of_ne hc, if_neg (by simpa using hc)]

/-- The records of a copy that sees another one are those of the other one. -/
theorem filter_of_sees {maker : Nat → Copy} {c : Copy} (h : sees w c copy = true)
    (rs : List (Nat × Record)) :
    (rs.filter fun x => sees w c (maker x.1)) = rs.filter fun x => sees w copy (maker x.1) := by
  rw [sees_of_sees h]

/-- A copy records a new name. -/
theorem SharedInv.addRecord {maker : Nat → Copy} {rs : List (Nat × Record)}
    {history : Copy → List (CStr × Registration)} (h : SharedInv w maker rs history)
    (hnew : e.name ∉ (rs.filter fun x => sees w copy (maker x.1)).map fun x => x.2.name) :
    SharedInv (w.put copy (addRecord (w.view copy) e)) (Function.update maker w.process.brk copy)
      ((w.process.brk, newRecord (w.view copy) e) :: rs)
      (fun c => if sees w c copy then history c ++ [e.entry] else history c) := by
  have hsees : sees (w.put copy (Adiak.addRecord (w.view copy) e)) = sees w := by
    unfold sees SharedState.put
    funext c c'
    rw [minimumVersion_addRecord]
    rfl
  have hmaker : ∀ p < w.process.brk, Function.update maker w.process.brk copy p = maker p :=
    fun p hp => Function.update_of_ne (Nat.ne_of_lt hp) _ _
  have hfilter : ∀ c, (rs.filter fun x =>
      sees w c (Function.update maker w.process.brk copy x.1)) =
        rs.filter fun x => sees w c (maker x.1) := fun c =>
    List.filter_congr fun x hx => by rw [hmaker x.1 ((h.serves c).fresh x hx)]
  constructor
  · intro c
    have hself : Function.update maker w.process.brk copy (w.view c).brk = copy :=
      Function.update_self _ _ _
    rw [hsees]
    refine (h.serves c).insert ?_ ?_ ?_ rfl (fun p hp => by rw [hmaker p hp]) ?_ ?_ ?_ ⟨rfl, rfl⟩
    · exact records_setRecordHash _ _ _
    · exact brk_setRecordHash _ _ _
    · exact sharedRecordList_setRecordHash _ _ _
    · rw [recordHash_put_addRecord, hself]
      rfl
    · intro hc
      rw [hself] at hc
      rw [recordHash_of_sees hc]
      rfl
    · intro hc
      rw [hself] at hc
      rwa [filter_of_sees hc]
  · intro c
    rw [hsees, List.filter_cons, hfilter, Function.update_self]
    split_ifs with hc
    · rw [Ledger.replay_append_singleton, ← h.entries c]
      refine entries_addRecord ?_
      rwa [filter_of_sees hc]
    · exact h.entries c

/-- A copy overwrites a record that it has found. -/
theorem SharedInv.overwriteRecord {maker : Nat → Copy} {rs : List (Nat × Record)}
    {history : Copy → List (CStr × Registration)} (h : SharedInv w maker rs history)
    {x : Nat × Record} (hx : x ∈ rs) (hown : sees w copy (maker x.1) = true)
    (hname : x.2.name = e.name) :
    SharedInv (w.put copy (overwriteRecord (w.view copy) x.1 x.2 e)) maker
      (replaceAt rs x.1 (x.2.overwrite e w.process.ticks))
      (fun c => if sees w c copy then history c ++ [e.entry] else history c) := by
  have hsees : sees (w.put copy (Adiak.overwriteRecord (w.view copy) x.1 x.2 e)) = sees w := rfl
  have hlocal : Function.update w.localRecordHash copy
      (Adiak.overwriteRecord (w.view copy) x.1 x.2 e).localRecordHash = w.localRecordHash :=
    Function.update_eq_self copy w.localRecordHash
  have hhash : ∀ c, ((w.put copy (Adiak.overwriteRecord (w.view copy) x.1 x.2 e)).view c).recordHash =
      (w.view c).recordHash := fun c => by
    rw [recordHash_view, recordHash_view]
    unfold SharedState.put
    rw [hlocal]
    rfl
  constructor
  · intro c
    rw [hsees]
    exact (h.serves c).overwrite hx rfl rfl rfl (hhash c) rfl rfl rfl ⟨rfl, rfl⟩
  · intro c
    rw [hsees, filter_replaceAt fun p => sees w c (maker p)]
    by_cases hc : sees w c copy = true
    · have hmem : x ∈ rs.filter fun y => sees w c (maker y.1) :=
        List.mem_filter.mpr ⟨hx, by rwa [sees_of_sees hc]⟩
      rw [if_pos hc, Ledger.replay_append_singleton, ← h.entries c,
        replaceAt_eq_overwriteAt (fun y hy => (h.serves c).eq_of_fst hx (List.mem_of_mem_filter hy))
          (h.serves c).nodup hmem hname]
      exact entries_overwriteAt (List.mem_map.mpr ⟨x, hmem, hname⟩)
    · -- a copy that does not see the writer does not see the record
      have hfst : ∀ y ∈ rs.filter fun y => sees w c (maker y.1), y.1 ≠ x.1 := by
        intro y hy hyx
        obtain ⟨-, hseen⟩ := List.mem_filter.mp hy
        rw [hyx] at hseen
        exact hc (sees_trans hseen hown)
      rw [if_neg hc, ← h.entries c]
      congr 1
      unfold replaceAt
      refine (List.map_congr_left fun y hy => ?_).trans (List.map_id' _)
      exact if_neg (hfst y hy)

/-- Registering a value of a copy. -/
theorem SharedInv.recordNameval {maker : Nat → Copy} {rs : List (Nat × Record)}
    {history : Copy → List (CStr × Registration)} (h : SharedInv w maker rs history)
    {s : AdiakState} {info : RecordInfo} (hrec : recordNameval (w.view copy) e = .ok (s, info)) :
    s.config.minimumVersion = w.process.config.minimumVersion ∧
      ∃ maker' rs', SharedInv (w.put copy s) maker' rs'
        (fun c => if sees w c copy then history c ++ [e.entry] else history c) := by
  unfold Adiak.recordNameval at hrec
  rw [(h.serves copy).findRecordByName_eq, ok_bind] at hrec
  cases hx : rs.find? fun x => sees w copy (maker x.1) && x.2.name = e.name with
  | none =>
    rw [hx] at hrec
    obtain ⟨rfl, -⟩ := Prod.mk.inj (Except.ok.inj hrec)
    refine ⟨minimumVersion_addRecord _ _, _, _, h.addRecord ?_⟩
    intro hmem
    obtain ⟨x, hx', hname⟩ := List.mem_map.mp hmem
    obtain ⟨hx', hown⟩ := List.mem_filter.mp hx'
    exact List.find?_eq_none.mp hx x hx' (by simp [hown, hname])
  | some x =>
    obtain ⟨hmem, hown, hname, hderef⟩ := (h.serves copy).find_mem hx
    rw [hx] at hrec
    simp only [Option.map_some, hderef, ok_bind] at hrec
    obtain ⟨-, -, hrec⟩ := bind_eq_ok.mp hrec
    obtain ⟨rfl, -⟩ := Prod.mk.inj (Except.ok.inj hrec)
    exact ⟨rfl, _, _, h.overwriteRecord hmem hown hname⟩

/-- A change of the process outside the records keeps the invariant. -/
theorem SharedInv.of_eq {w' : SharedState} {maker : Nat → Copy} {rs : List (Nat × Record)}
    {history : Copy → List (CStr × Registration)} (h : SharedInv w maker rs history)
    (hrecords : w'.process.records = w.process.records) (hbrk : w'.process.brk = w.process.brk)
    (hconfig : w'.process.config = w.process.config)
    (hlocal : w'.localRecordHash = w.localRecordHash) : SharedInv w' maker rs history := by
  have hsees : sees w' = sees w := by
    unfold sees
    rw [hconfig]
  have hhash : ∀ c, (w'.view c).recordHash = (w.view c).recordHash := fun c => by
    rw [recordHash_view, recordHash_view, hconfig, hlocal]
  have hview : ∀ c, (w'.view c).records = (w.view c).records := fun _ => hrecords
  constructor
  · intro c
    have hc := h.serves c
    rw [hsees]
    refine ⟨?_, ?_, ?_, ?_, hc.nodup, hc.info⟩
    · rw [hview]; exact hc.mem
    · show ∀ x ∈ rs, x.1 < w'.process.brk
      rw [hbrk]
      exact hc.fresh
    · show Chain.Linked _ _ w'.process.config.sharedRecordList _
      rw [hview, hconfig]
      exact hc.list
    · rw [hview, hhash]; exact hc.chain
  · rw [hsees]
    exact h.entries

/-- An event of a copy. -/
theorem SharedInv.adiakRawNamevalue {maker : Nat → Copy} {rs : List (Nat × Record)}
    {history : Copy → List (CStr × Registration)} (h : SharedInv w maker rs history)
    {s : AdiakState} (hraw : adiakRawNamevalue (w.view copy) e = .ok s) :
    s.config.minimumVersion = w.process.config.minimumVersion ∧
      ∃ maker' rs', SharedInv (w.put copy s) maker' rs'
        (fun c => if sees w c copy then history c ++ e.registered else history c) := by
  unfold Adiak.adiakRawNamevalue at hraw
  obtain ⟨⟨s₁, infoPtr⟩, hrec, hraw⟩ := bind_eq_ok.mp hraw
  -- the store after recording, before the tools are called
  have hstore : s₁.config.minimumVersion = w.process.config.minimumVersion ∧
      ∃ maker' rs', SharedInv (w.put copy s₁) maker' rs'
        (fun c => if sees w c copy then history c ++ e.registered else history c) := by
    unfold recordEvent at hrec
    unfold Event.registered
    by_cases hcat : e.category = adiakControl
    · rw [if_neg (not_not.mpr hcat)] at hrec
      obtain ⟨rfl, -⟩ := Prod.mk.inj (Except.ok.inj hrec)
      refine ⟨rfl, maker, rs, ?_⟩
      rw [if_pos hcat]
      simp only [List.append_nil, ite_self]
      exact h.of_eq rfl rfl rfl (Function.update_eq_self copy w.localRecordHash)
    · rw [if_pos hcat] at hrec
      obtain ⟨⟨s₂, info⟩, hnew, heq⟩ := bind_eq_ok.mp hrec
      obtain ⟨rfl, -⟩ := Prod.mk.inj (Except.ok.inj heq)
      rw [if_neg hcat]
      exact h.recordNameval hnew
  obtain ⟨hversion, maker', rs', hinv⟩ := hstore
  dsimp only at hraw
  cases htools : s₁.config.toolList with
  | none => rw [htools] at hraw; cases hraw
  | some tools =>
    rw [htools] at hraw
    obtain rfl := Except.ok.inj hraw
    exact ⟨hversion, maker', rs', hinv.of_eq rfl rfl rfl rfl⟩

/-- A call of a copy. -/
theorem SharedInv.step {maker : Nat → Copy} {rs : List (Nat × Record)}
    {history : Copy → List (CStr × Registration)} (h : SharedInv w maker rs history)
    {c : SharedCall} {w' : SharedState} (hstep : stepShared w copy c = .ok w') :
    w'.process.config.minimumVersion = w.process.config.minimumVersion ∧
      ∃ maker' rs', SharedInv w' maker' rs'
        (fun i => if sees w i copy then history i ++ c.registered else history i) := by
  cases c with
  | namevalue m name category subcategory typestr ap =>
    obtain ⟨⟨ret, s⟩, hname, hstep⟩ := bind_eq_ok.mp hstep
    obtain rfl := Except.ok.inj hstep
    unfold adiakNamevalue at hname
    cases hargs : namevalueArgs m typestr ap with
    | error err =>
      have hnone : (SharedCall.namevalue m name category subcategory typestr ap).registered = [] := by
        rw [SharedCall.registered, namevalueEvents, hargs]
        rfl
      rw [hargs] at hname
      cases err with
      | null =>
        obtain ⟨-, rfl⟩ := Prod.mk.inj (Except.ok.inj hname)
        refine ⟨rfl, maker, rs, ?_⟩
        simp only [hnone, List.append_nil, ite_self]
        exact h.of_eq rfl rfl rfl (Function.update_eq_self copy w.localRecordHash)
      | undefined => cases hname
      | fuel => cases hname
    | ok r =>
      rw [hargs] at hname
      obtain ⟨s', hraw, hname⟩ := bind_eq_ok.mp hname
      obtain ⟨-, rfl⟩ := Prod.mk.inj (Except.ok.inj hname)
      have hone : (SharedCall.namevalue m name category subcategory typestr ap).registered =
          Event.registered ⟨name, category, subcategory, r.1, r.2⟩ := by
        rw [SharedCall.registered, namevalueEvents, hargs]
        exact List.append_nil _
      simp only [hone]
      exact h.adiakRawNamevalue hraw
  | getNameval name =>
    obtain ⟨-, -, hstep⟩ := bind_eq_ok.mp hstep
    obtain rfl := Except.ok.inj hstep
    refine ⟨rfl, maker, rs, ?_⟩
    simpa only [SharedCall.registered, List.append_nil, ite_self] using h
  | listNamevals category =>
    obtain ⟨-, -, hstep⟩ := bind_eq_ok.mp hstep
    obtain rfl := Except.ok.inj hstep
    refine ⟨rfl, maker, rs, ?_⟩
    simpa only [SharedCall.registered, List.append_nil, ite_self] using h

end Recording

/-! ## Runs -/

/-- The registrations a copy sees: all with a shared hash list, its own with a private one. -/
def visible (minimumVersion : Int) (copy : Copy) (calls : List (Copy × SharedCall)) :
    List (CStr × Registration) :=
  recordings (fun c => 1 ≤ minimumVersion || copy = c) calls

/-- A run keeps the invariant. -/
theorem SharedInv.run {w w' : SharedState} {maker : Nat → Copy} {rs : List (Nat × Record)}
    {history : Copy → List (CStr × Registration)} {calls : List (Copy × SharedCall)}
    (h : SharedInv w maker rs history) (hrun : runShared w calls = .ok w') :
    w'.process.config.minimumVersion = w.process.config.minimumVersion ∧
      ∃ maker' rs', SharedInv w' maker' rs' fun copy =>
        history copy ++ visible w.process.config.minimumVersion copy calls := by
  induction calls generalizing w maker rs history with
  | nil =>
    obtain rfl := Except.ok.inj hrun
    refine ⟨rfl, maker, rs, ?_⟩
    simpa only [visible, recordings, List.filter_nil, List.flatMap_nil, List.append_nil] using h
  | cons call calls ih =>
    obtain ⟨copy, c⟩ := call
    obtain ⟨w₁, hstep, hrun⟩ := bind_eq_ok.mp hrun
    obtain ⟨hversion, maker₁, rs₁, h₁⟩ := h.step hstep
    obtain ⟨hversion', maker', rs', h'⟩ := ih h₁ hrun
    refine ⟨hversion'.trans hversion, maker', rs', ?_⟩
    have hhistory : (fun i => (if sees w i copy then history i ++ c.registered else history i) ++
        visible w₁.process.config.minimumVersion i calls) = fun i =>
          history i ++ visible w.process.config.minimumVersion i ((copy, c) :: calls) := by
      funext i
      unfold visible recordings
      rw [hversion, List.filter_cons]
      change _ = history i ++ List.flatMap _ (if sees w i copy then _ else _)
      split_ifs
      · rw [List.flatMap_cons, List.append_assoc]
      · rfl
    rwa [hhistory] at h'

theorem sharedInv_initialShared (minimumVersion : Int) (reportableRank : Bool) (tools : List Tool) :
    SharedInv (initialShared minimumVersion reportableRank tools) (fun _ => .first) []
      fun _ => [] where
  serves := fun copy => by
    have hhash : ((initialShared minimumVersion reportableRank tools).view copy).recordHash =
        fun _ => none := by
      rw [recordHash_view]
      split_ifs <;> rfl
    refine ⟨?_, ?_, .nil, fun b => ?_, List.nodup_nil, ?_⟩
    · intro x hx; cases hx
    · intro x hx; cases hx
    · rw [hhash]; exact .nil
    · intro x hx; cases hx
  entries := fun _ => rfl

/-- After a run of calls by both copies the shared list is, with a shared hash list, the ledger of all
registrations, and both copies find the newest under every name. With private hash lists it is an
interleaving of the ledgers of the two copies, and each copy finds its own newest. -/
theorem runShared_store (minimumVersion : Int) (reportableRank : Bool) (tools : List Tool)
    (calls : List (Copy × SharedCall)) {w : SharedState}
    (h : runShared (initialShared minimumVersion reportableRank tools) calls = .ok w) :
    ∃ (rs : List (Nat × Record)) (maker : Nat → Copy), (∀ copy, (w.view copy).sharedRecords = .ok rs) ∧
      (1 ≤ minimumVersion → (rs.map fun x => x.2.name).Nodup ∧
        rs.map (fun x => x.2.entry) = Ledger.replay (recordings (fun _ => true) calls) ∧
        ∀ copy name, adiakGetNameval (w.view copy) name =
          .ok (Ledger.newest (recordings (fun _ => true) calls) name)) ∧
      (minimumVersion < 1 → ∀ copy,
        ((rs.filter fun x => maker x.1 = copy).map fun x => x.2.name).Nodup ∧
        (rs.filter fun x => maker x.1 = copy).map (fun x => x.2.entry) =
          Ledger.replay (recordings (fun c => c = copy) calls) ∧
        ∀ name, adiakGetNameval (w.view copy) name =
          .ok (Ledger.newest (recordings (fun c => c = copy) calls) name)) := by
  obtain ⟨hversion, maker, rs, hinv⟩ :=
    (sharedInv_initialShared minimumVersion reportableRank tools).run h
  change _ = min 1 minimumVersion at hversion
  have hget : ∀ copy name, adiakGetNameval (w.view copy) name =
      .ok (Ledger.newest (visible (min 1 minimumVersion) copy calls) name) := fun copy name => by
    rw [(hinv.serves copy).adiakGetNameval_eq, hinv.entries copy, Ledger.lookup_replay,
      List.nil_append]
    rfl
  refine ⟨rs, maker, fun copy => (hinv.serves copy).sharedRecords_eq, fun hshared => ?_,
    fun hprivate copy => ?_⟩
  · have hsees : ∀ copy, sees w copy = fun _ => true := fun copy => by
      funext c
      unfold sees
      rw [hversion, decide_eq_true (by omega), Bool.true_or]
    have hvisible : ∀ copy, visible (min 1 minimumVersion) copy calls =
        recordings (fun _ => true) calls := fun copy => by
      unfold visible
      congr 1
      funext c
      rw [decide_eq_true (by omega), Bool.true_or]
    have hnodup := (hinv.serves .first).nodup
    have hentries := hinv.entries .first
    rw [hsees, List.filter_true] at hnodup hentries
    refine ⟨hnodup, hentries.trans ?_, fun copy name => ?_⟩
    · rw [← hvisible .first]
      rfl
    · rw [hget, hvisible]
  · have hsees : sees w copy = fun c => decide (copy = c) := by
      funext c
      unfold sees
      rw [hversion, decide_eq_false (by omega), Bool.false_or]
    have hvisible : visible (min 1 minimumVersion) copy calls =
        recordings (fun c => c = copy) calls := by
      unfold visible
      congr 1
      funext c
      rw [decide_eq_false (by omega), Bool.false_or, decide_eq_decide]
      exact eq_comm
    have hnodup := (hinv.serves copy).nodup
    have hentries := hinv.entries copy
    simp only [hsees, eq_comm (a := copy)] at hnodup hentries
    refine ⟨hnodup, hentries.trans ?_, fun name => ?_⟩
    · rw [← hvisible]
      rfl
    · rw [hget, hvisible]

/-- The same name recorded by both copies. -/
def bothCopies : List (Copy × SharedCall) :=
  [(.first, .namevalue .empty ['a'] adiakGeneral none ['%', 'd'] [.int 1]),
    (.second, .namevalue .empty ['a'] adiakGeneral none ['%', 'd'] [.int 2])]

/-- A name recorded by both copies under a shared and under a private hash list. -/
theorem runShared_store_both :
    (∃ w, runShared (initialShared 1 true []) bothCopies = .ok w ∧
      adiakGetNameval (w.view .first) ['a'] = .ok (some ⟨adiakGeneral, none, .vInt 2, baseInt⟩)) ∧
    ∃ w, runShared (initialShared 0 true []) bothCopies = .ok w ∧
      adiakGetNameval (w.view .first) ['a'] = .ok (some ⟨adiakGeneral, none, .vInt 1, baseInt⟩) := by
  obtain ⟨w, hw⟩ := exists_of_isOk (x := runShared (initialShared 1 true []) bothCopies)
    (by decide +kernel)
  obtain ⟨w', hw'⟩ := exists_of_isOk (x := runShared (initialShared 0 true []) bothCopies)
    (by decide +kernel)
  obtain ⟨rs, maker, -, hshared, -⟩ := runShared_store 1 true [] bothCopies hw
  obtain ⟨rs', maker', -, -, hprivate⟩ := runShared_store 0 true [] bothCopies hw'
  exact ⟨⟨w, hw, (hshared le_rfl).2.2 .first ['a']⟩,
    w', hw', (hprivate (by decide) .first).2.2 ['a']⟩

/-- The same name recorded by both copies under an older library's `adiak_t`. -/
theorem runShared_not_unique :
    ¬ ∀ minimumVersion reportableRank tools calls w,
      runShared (initialShared minimumVersion reportableRank tools) calls = .ok w →
        (∃ rs, (w.view .first).sharedRecords = .ok rs ∧ (rs.map fun x => x.2.name).Nodup) ∧
        ∀ copy name, adiakGetNameval (w.view copy) name =
          .ok (Ledger.newest (recordings (fun _ => true) calls) name) := by
  intro h
  obtain ⟨w, hw⟩ := exists_of_isOk (x := runShared (initialShared 0 true []) bothCopies)
    (by decide +kernel)
  obtain ⟨⟨rs, hrs, hnodup⟩, -⟩ := h 0 true [] bothCopies w hw
  have hnames : (runShared (initialShared 0 true []) bothCopies >>= fun w =>
      (w.view .first).sharedRecords).map (fun rs => rs.map fun x => x.2.name) =
        .ok [['a'], ['a']] := by
    decide +kernel
  rw [hw, ok_bind, hrs] at hnames
  have heq : (rs.map fun x => x.2.name) = [['a'], ['a']] := Except.ok.inj hnames
  exact absurd (heq ▸ hnodup) (by decide)

end Adiak
