import Adiak.Collect.Cmdline
import Adiak.Library.InputStream
import Adiak.Library.Loop

/-!
# Reading the command line

`adksys_get_cmdline_buffer` of `adksys_procfs.c`: the bytes of `/proc/self/cmdline` are counted by `fgetc`, and
read again by `fread` into a buffer of that size. The calls that read may be interrupted.

1. `countStep` and `readStep` are the two loops.
2. `runCmdline_records`: when the buffer is there, it holds the bytes and a NUL for each call of `fgetc` that
   failed, and so many empty arguments are recorded behind the real ones.
3. `runCmdline_signals`: where only signals interrupt, the arguments are recorded if they interrupt no
   `fgetc`. Otherwise the size is too large, `errno` is still `EINTR` at the end of the file, and the second
   loop goes on for ever.
-/

namespace Adiak

open InputStream (failures)

/-! ## The code -/

/-- `while (!feof(f)) { fgetc(f); size += 1; }` -/
def countStep (s : InputStream Char × Nat) : InputStream Char × Nat ⊕ InputStream Char × Nat :=
  if s.1.eof then .inr s else .inl (s.1.fgetc.2, s.2 + 1)

structure ReadState where
  f : InputStream Char
  buffer : List Char
  bytesRead : Nat

/-- What `fread` does to the buffer. -/
def writeAt (buffer : List Char) (i : Nat) (bytes : List Char) : List Char :=
  buffer.take i ++ bytes ++ buffer.drop (i + bytes.length)

/-- The state after one `fread`. -/
def ReadState.next (size : Nat) (s : ReadState) : ReadState :=
  let (bytes, f) := s.f.fread (size - s.bytesRead)
  ⟨f, writeAt s.buffer s.bytesRead bytes, s.bytesRead + bytes.length⟩

/-- `while (bytes_read < size)` -/
def again (size : Nat) (s : ReadState) : ReadState ⊕ Option (List Char) :=
  if s.bytesRead < size then .inl s else .inr (some s.buffer)

/-- The body of the do-while loop: it leaves with the buffer, or at `goto error`. -/
def readStep (size : Nat) (s : ReadState) : ReadState ⊕ Option (List Char) :=
  let next := s.next size
  let result := next.bytesRead - s.bytesRead
  if result = 0 ∧ next.f.errno = .eintr then again size next
  else if result = 0 ∧ next.f.eof then .inr (some next.buffer)
  else if result = 0 then .inr none
  else again size next

/-- `adksys_get_cmdline_buffer`, with the stream that `fopen` yields. `output_size` is an `int`. -/
def adksysGetCmdlineBuffer (fuel : Nat) (opened : Option (InputStream Char)) :
    Option (Option (List Char × Int)) :=
  match opened with
  | none => some none
  | some f => do
    let (f, size) ← Loop.run countStep fuel (f, 0)
    let size := size - 1
    let (_, f) := f.fseek InputStream.seekSet 0
    let result ← Loop.run (readStep size) fuel ⟨f, List.replicate (size + 1) nul, 0⟩
    some (result.map fun buffer => (buffer, wrapInt size))

/-- `adiak_cmdline` down to the reads: it looks at `arglist_size` bytes of the buffer. -/
def runCmdline (fuel : Nat) (s : AdiakState) (opened : Option (InputStream Char))
    (arglist myargv : Addr) : Option (Except Stop (Int × AdiakState)) := do
  let query ← adksysGetCmdlineBuffer fuel opened
  some (adiakCmdline s (query.map fun (buffer, size) => buffer.take size.toNat) arglist myargv)

/-! ## The first loop -/

/-- All calls that fail are interrupted by a signal. -/
def OnlySignals (faults : List (Option Fault)) : Prop :=
  ∀ fault, some fault ∈ faults → fault.errno = .eintr

section Counting

variable {text : List Char} {faults : List (Option Fault)} {errno : Errno}

/-- The invariant of the first loop. -/
structure Counting (text : List Char) (faults : List (Option Fault))
    (s : InputStream Char × Nat) : Prop where
  content : s.1.content = text
  pos : s.1.pos ≤ text.length
  left : s.1.faults <:+ faults
  size : s.1.eof = false → s.2 + failures s.1.faults (text.length - s.1.pos) =
    s.1.pos + failures faults text.length
  ended : s.1.eof = true → s.2 = text.length + failures faults text.length + 1
  errno : OnlySignals faults →
    s.1.errno = .eintr ∨ s.2 ≤ s.1.pos + s.1.eof.toNat

theorem counting_opened (errno : Errno) :
    Counting text faults (.opened text errno faults, 0) where
  content := rfl
  pos := Nat.zero_le _
  left := List.suffix_refl _
  size := fun _ => rfl
  ended := fun h => by cases h
  errno := fun _ => .inr (Nat.zero_le _)

theorem countStep_cases (s : InputStream Char × Nat) :
    (s.1.eof = true ∧ countStep s = .inr s) ∨
      (s.1.eof = false ∧ countStep s = .inl (s.1.fgetc.2, s.2 + 1)) := by
  unfold countStep
  cases heof : s.1.eof with
  | true => exact .inl ⟨rfl, rfl⟩
  | false => exact .inr ⟨rfl, rfl⟩

/-- A call of `fgetc` fails, reads, or sees the end. -/
theorem Counting.step {s : InputStream Char × Nat} (h : Counting text faults s)
    (heof : s.1.eof = false) : Counting text faults (s.1.fgetc.2, s.2 + 1) := by
  have hsize := h.size heof
  have hleft : s.1.faults.tail <:+ faults := (List.tail_suffix _).trans h.left
  have hzero : s.1.eof.toNat = 0 := by rw [heof]; rfl
  rcases InputStream.fgetc_cases heof with ⟨fault, hfault, hcall⟩ | ⟨hnone, hpos, hcall⟩ |
    ⟨hnone, hpos, hcall⟩
  · rw [InputStream.failures_of_some hfault] at hsize
    rw [hcall]
    refine ⟨h.content, h.pos, hleft, fun _ => ?_, fun hend => ?_, fun hall => .inl ?_⟩
    · dsimp only
      omega
    · rw [heof] at hend
      cases hend
    · exact hall fault (h.left.subset (InputStream.nextFault_mem hfault))
  · rw [h.content] at hpos
    rw [Nat.sub_eq_zero_of_le hpos, InputStream.failures_zero hnone] at hsize
    rw [hcall]
    refine ⟨h.content, h.pos, hleft, fun hopen => (by cases hopen), fun _ => ?_, fun hall => ?_⟩
    · have hle := h.pos
      dsimp only
      omega
    · refine (h.errno hall).imp_right fun hle => ?_
      show s.2 + 1 ≤ s.1.pos + 1
      omega
  · rw [h.content] at hpos
    have hrest : text.length - s.1.pos = text.length - (s.1.pos + 1) + 1 := by omega
    rw [hrest, InputStream.failures_succ hnone] at hsize
    rw [hcall]
    refine ⟨h.content, hpos, hleft, fun _ => ?_, fun hend => ?_, fun hall => ?_⟩
    · dsimp only
      omega
    · rw [heof] at hend
      cases hend
    · refine (h.errno hall).imp_right fun hle => ?_
      show s.2 + 1 ≤ s.1.pos + 1 + s.1.eof.toNat
      omega

/-- What the first loop leaves behind. -/
structure Counted (text : List Char) (faults : List (Option Fault))
    (r : InputStream Char × Nat) : Prop where
  content : r.1.content = text
  left : r.1.faults <:+ faults
  size : r.2 - 1 = text.length + failures faults text.length
  errno : OnlySignals faults →
    r.1.errno = .eintr ∨ failures faults text.length = 0

theorem Counting.counted {s : InputStream Char × Nat} (h : Counting text faults s)
    (heof : s.1.eof = true) : Counted text faults s := by
  have hsize := h.ended heof
  refine ⟨h.content, h.left, by omega, fun hall => (h.errno hall).imp_right fun hle => ?_⟩
  have hpos := h.pos
  rw [heof] at hle
  change s.2 ≤ s.1.pos + 1 at hle
  omega

theorem countStep_inl {s s' : InputStream Char × Nat} (hs : Counting text faults s)
    (hstep : countStep s = .inl s') : s.1.eof = false ∧ Counting text faults s' := by
  rcases countStep_cases s with ⟨-, hcase⟩ | ⟨heof, hcase⟩
  · rw [hcase] at hstep
    cases hstep
  · rw [hcase] at hstep
    obtain rfl := Sum.inl.inj hstep
    exact ⟨heof, hs.step heof⟩

theorem countStep_inr {s r : InputStream Char × Nat} (hs : Counting text faults s)
    (hstep : countStep s = .inr r) : Counted text faults r := by
  rcases countStep_cases s with ⟨heof, hcase⟩ | ⟨-, hcase⟩
  · rw [hcase] at hstep
    obtain rfl := Sum.inr.inj hstep
    exact hs.counted heof
  · rw [hcase] at hstep
    cases hstep

theorem countLoop_sound {fuel : Nat} {r : InputStream Char × Nat}
    (h : Loop.run countStep fuel (.opened text errno faults, 0) = some r) :
    Counted text faults r :=
  Loop.run_inv (fun _ _ hs hstep => (countStep_inl hs hstep).2) (fun _ _ => countStep_inr)
    (counting_opened errno) h

/-- The calls of `fgetc` that are left: one for each fault, one for each byte, and the one that sees the
end. -/
def callsLeft (s : InputStream Char × Nat) : Nat :=
  if s.1.eof then 0 else s.1.faults.length + (s.1.content.length - s.1.pos) + 1

theorem callsLeft_fgetc {s : InputStream Char × Nat} (heof : s.1.eof = false) :
    callsLeft (s.1.fgetc.2, s.2 + 1) < callsLeft s := by
  have htail : s.1.faults.tail.length ≤ s.1.faults.length := (List.tail_suffix _).length_le
  have hleft : callsLeft s = s.1.faults.length + (s.1.content.length - s.1.pos) + 1 :=
    if_neg (ne_true_of_eq_false heof)
  rw [hleft]
  unfold callsLeft
  rcases InputStream.fgetc_cases heof with ⟨fault, hfault, hcall⟩ | ⟨-, -, hcall⟩ | ⟨-, hpos, hcall⟩
  · have hlt := InputStream.length_tail_lt hfault
    rw [hcall, if_neg (ne_true_of_eq_false heof)]
    dsimp only
    omega
  · rw [hcall, if_pos rfl]
    exact Nat.succ_pos _
  · rw [hcall, if_neg (ne_true_of_eq_false heof)]
    dsimp only
    omega

theorem countLoop_returns {fuel : Nat} (hfuel : faults.length + text.length + 1 < fuel) :
    ∃ r, Loop.run countStep fuel (.opened text errno faults, 0) = some r ∧ Counted text faults r := by
  refine Loop.run_total callsLeft ?_ (fun _ _ => countStep_inr) (counting_opened errno) hfuel
  intro s s' hs hstep
  obtain ⟨heof, hs'⟩ := countStep_inl hs hstep
  refine ⟨hs', ?_⟩
  rcases countStep_cases s with ⟨hend, -⟩ | ⟨-, hcase⟩
  · rw [heof] at hend
    cases hend
  · rw [hcase] at hstep
    obtain rfl := Sum.inl.inj hstep
    exact callsLeft_fgetc heof

end Counting

/-! ## The second loop -/

section Reading

variable {text : List Char} {size : Nat}

/-- The invariant of the second loop: the bytes read so far, and NULs behind them. -/
structure Reading (text : List Char) (size : Nat) (s : ReadState) : Prop where
  content : s.f.content = text
  pos : s.f.pos = s.bytesRead
  le : s.bytesRead ≤ text.length
  buffer : s.buffer = text.take s.bytesRead ++ List.replicate (size + 1 - s.bytesRead) nul
  eof : s.f.eof = true → s.bytesRead = text.length

theorem writeAt_replicate {b k : Nat} (hb : b + k ≤ text.length) :
    writeAt (text.take b ++ List.replicate (size + 1 - b) nul) b ((text.drop b).take k) =
      text.take (b + k) ++ List.replicate (size + 1 - (b + k)) nul := by
  have hlen : (text.take b).length = b := List.length_take_of_le (by omega)
  have hbytes : ((text.drop b).take k).length = k := by
    rw [List.length_take, List.length_drop]
    omega
  have hfront : (text.take b).drop (b + k) = [] := List.drop_eq_nil_of_le (by omega)
  unfold writeAt
  rw [hbytes, List.take_left' hlen, List.drop_append, hlen, hfront, List.nil_append, List.drop_replicate,
    List.take_add, Nat.sub_sub, Nat.add_sub_of_le (Nat.le_add_right b k)]

theorem Reading.reads {s : ReadState} (h : Reading text size s) :
    Reading text size (s.next size) := by
  have hread := InputStream.fread_reads s.f (size - s.bytesRead)
  have hlen := hread.length_le
  rw [h.content, h.pos] at hlen
  have hbound : s.bytesRead + (s.f.fread (size - s.bytesRead)).1.length ≤ text.length := by
    have := h.le
    omega
  refine ⟨hread.content.trans h.content, ?_, hbound, ?_, fun heof => ?_⟩
  · show (s.f.fread (size - s.bytesRead)).2.pos = _
    rw [hread.pos, h.pos]
    rfl
  · show writeAt s.buffer s.bytesRead (s.f.fread (size - s.bytesRead)).1 = _
    have htaken := hread.taken
    rw [h.content, h.pos] at htaken
    rw [h.buffer, htaken, writeAt_replicate hbound]
    rfl
  · refine le_antisymm hbound ?_
    rcases hread.eof heof with heof | hpos
    · rw [← h.eof heof]
      exact Nat.le_add_right _ _
    · rw [h.content, hread.pos, h.pos] at hpos
      exact hpos

/-- The buffer when all bytes have been read. -/
theorem Reading.complete {s : ReadState} (h : Reading text size s) (hall : text.length ≤ s.bytesRead) :
    s.buffer = text ++ List.replicate (size + 1 - text.length) nul := by
  have heq : s.bytesRead = text.length := le_antisymm h.le hall
  rw [h.buffer, heq, List.take_length]

theorem bytesRead_next (size : Nat) (s : ReadState) : s.bytesRead ≤ (s.next size).bytesRead :=
  Nat.le_add_right _ _

/-- The loop tests its condition, or nothing was read: at the end, or on an error. -/
theorem readStep_cases (size : Nat) (s : ReadState) :
    readStep size s = again size (s.next size) ∨
    ((s.next size).f.eof = true ∧ readStep size s = .inr (some (s.next size).buffer)) ∨
    ((s.next size).bytesRead = s.bytesRead ∧ (s.next size).f.eof = false ∧
      (s.next size).f.errno ≠ .eintr ∧ readStep size s = .inr none) := by
  have hle := bytesRead_next size s
  unfold readStep
  dsimp only
  split_ifs with h1 h2 h3
  · exact .inl rfl
  · exact .inr (.inl ⟨h2.2, rfl⟩)
  · refine .inr (.inr ⟨by omega, ?_, fun h => h1 ⟨h3, h⟩, rfl⟩)
    exact eq_false_of_ne_true fun h => h2 ⟨h3, h⟩
  · exact .inl rfl

/-- A signal takes the loop to its condition, whether something was read or not. -/
theorem readStep_of_eintr {s : ReadState} (h : (s.next size).f.errno = .eintr) :
    readStep size s = again size (s.next size) := by
  unfold readStep
  dsimp only
  by_cases hresult : (s.next size).bytesRead - s.bytesRead = 0
  · rw [if_pos ⟨hresult, h⟩]
  · rw [if_neg fun hc => hresult hc.1, if_neg fun hc => hresult hc.1, if_neg hresult]

theorem again_of_lt {s : ReadState} (h : s.bytesRead < size) : again size s = .inl s := if_pos h

theorem again_of_le {s : ReadState} (h : size ≤ s.bytesRead) : again size s = .inr (some s.buffer) :=
  if_neg (Nat.not_lt.mpr h)

theorem readStep_inl {s s' : ReadState} (h : readStep size s = .inl s') :
    s' = s.next size ∧ s'.bytesRead < size := by
  rcases readStep_cases size s with hcase | ⟨-, hcase⟩ | ⟨-, -, -, hcase⟩
  · rw [hcase] at h
    by_cases hlt : (s.next size).bytesRead < size
    · rw [again_of_lt hlt] at h
      obtain rfl := Sum.inl.inj h
      exact ⟨rfl, hlt⟩
    · rw [again_of_le (Nat.le_of_not_lt hlt)] at h
      cases h
  · rw [hcase] at h
    cases h
  · rw [hcase] at h
    cases h

/-- The loop leaves with all bytes, or on an error. -/
theorem Reading.exit {s : ReadState} (hs : Reading text size s) (hsize : text.length ≤ size)
    {r : Option (List Char)} (h : readStep size s = .inr r) :
    r = none ∨ r = some (text ++ List.replicate (size + 1 - text.length) nul) := by
  have hnext := hs.reads
  rcases readStep_cases size s with hcase | ⟨heof, hcase⟩ | ⟨-, -, -, hcase⟩
  · rw [hcase] at h
    by_cases hlt : (s.next size).bytesRead < size
    · rw [again_of_lt hlt] at h
      cases h
    · have hge := Nat.le_of_not_lt hlt
      rw [again_of_le hge, hnext.complete (hsize.trans hge)] at h
      exact .inr (Sum.inr.inj h).symm
  · rw [hcase, hnext.complete (hnext.eof heof).ge] at h
    exact .inr (Sum.inr.inj h).symm
  · rw [hcase] at h
    exact .inl (Sum.inr.inj h).symm

theorem readLoop_sound (hsize : text.length ≤ size) {s : ReadState} (hs : Reading text size s)
    {fuel : Nat} {r : Option (List Char)} (h : Loop.run (readStep size) fuel s = some r) :
    r = none ∨ r = some (text ++ List.replicate (size + 1 - text.length) nul) := by
  refine Loop.run_inv (Q := fun r => r = none ∨ r = some _) (fun s s' hs hstep => ?_)
    (fun s r hs => hs.exit hsize) hs h
  obtain ⟨rfl, -⟩ := readStep_inl hstep
  exact hs.reads

/-- The invariant when only signals interrupt and the size is right. -/
structure Unread (text : List Char) (s : ReadState) : Prop where
  reading : Reading text text.length s
  signals : OnlySignals s.f.faults
  opened : s.f.eof = false
  left : s.bytesRead < text.length

theorem OnlySignals.of_suffix {faults faults' : List (Option Fault)} (h : OnlySignals faults)
    (hsub : faults' <:+ faults) : OnlySignals faults' :=
  fun fault hfault => h fault (hsub.subset hfault)

/-- A call is interrupted, or reads all that is left. -/
theorem Unread.next {s : ReadState} (h : Unread text s) :
    (readStep text.length s = .inl (s.next text.length) ∧ Unread text (s.next text.length) ∧
      (s.next text.length).f.faults.length < s.f.faults.length) ∨
    readStep text.length s = .inr (some (text ++ [nul])) := by
  have hnext := h.reading.reads
  have hread := InputStream.fread_reads s.f (text.length - s.bytesRead)
  have hleft := h.left
  have hpos : (s.next text.length).bytesRead =
      s.bytesRead + (s.f.fread (text.length - s.bytesRead)).1.length := rfl
  rcases hread.progress (by omega) h.opened with ⟨hlt, hfaults, fault, hfault, herrno⟩ | hall
  · have hless : (s.next text.length).bytesRead < text.length := by omega
    have hopened : (s.next text.length).f.eof = false := by
      refine eq_false_of_ne_true fun heof => ?_
      have := hnext.eof heof
      omega
    have hsignal : (s.next text.length).f.errno = .eintr := herrno.trans (h.signals fault hfault)
    refine .inl ⟨?_, ⟨hnext, h.signals.of_suffix hread.faults, hopened, hless⟩, hfaults⟩
    rw [readStep_of_eintr hsignal, again_of_lt hless]
  · rw [h.reading.content, h.reading.pos, Nat.min_self] at hall
    have hend : text.length ≤ (s.next text.length).bytesRead := by omega
    have hbuffer := hnext.complete hend
    rw [Nat.add_sub_cancel_left] at hbuffer
    refine .inr ?_
    rcases readStep_cases text.length s with hcase | ⟨-, hcase⟩ | ⟨hsame, -⟩
    · rw [hcase, again_of_le hend, hbuffer]
      rfl
    · rw [hcase, hbuffer]
      rfl
    · omega

theorem readLoop_returns {s : ReadState} (hs : Unread text s) {fuel : Nat}
    (hfuel : s.f.faults.length < fuel) :
    Loop.run (readStep text.length) fuel s = some (some (text ++ [nul])) := by
  have hstep : ∀ s s', Unread text s → readStep text.length s = .inl s' →
      Unread text s' ∧ s'.f.faults.length < s.f.faults.length := by
    intro s s' hs hstep
    rcases hs.next with ⟨hcase, hnext, hlt⟩ | hcase
    · rw [hcase] at hstep
      obtain rfl := Sum.inl.inj hstep
      exact ⟨hnext, hlt⟩
    · rw [hcase] at hstep
      cases hstep
  have hexit : ∀ s r, Unread text s → readStep text.length s = .inr r → r = some (text ++ [nul]) := by
    intro s r hs hstep
    rcases hs.next with ⟨hcase, -⟩ | hcase
    · rw [hcase] at hstep
      cases hstep
    · rw [hcase] at hstep
      exact (Sum.inr.inj hstep).symm
  obtain ⟨r, hrun, rfl⟩ := Loop.run_total (fun s : ReadState => s.f.faults.length) hstep hexit hs hfuel
  exact hrun

/-- The invariant when the size is too large: `errno` stays `EINTR`. -/
structure Stuck (text : List Char) (size : Nat) (s : ReadState) : Prop where
  reading : Reading text size s
  signals : OnlySignals s.f.faults
  errno : s.f.errno = .eintr

theorem Stuck.next {s : ReadState} (h : Stuck text size s) (hsize : text.length < size) :
    readStep size s = .inl (s.next size) ∧ Stuck text size (s.next size) := by
  have hnext := h.reading.reads
  have hread := InputStream.fread_reads s.f (size - s.bytesRead)
  have herrno : (s.next size).f.errno = .eintr := by
    rcases hread.errno with hsame | ⟨fault, hfault, hset⟩
    · exact hsame.trans h.errno
    · exact hset.trans (h.signals fault hfault)
  refine ⟨?_, hnext, h.signals.of_suffix hread.faults, herrno⟩
  rw [readStep_of_eintr herrno, again_of_lt (lt_of_le_of_lt hnext.le hsize)]

theorem readLoop_hangs {s : ReadState} (hs : Stuck text size s) (hsize : text.length < size)
    (fuel : Nat) : Loop.run (readStep size) fuel s = none :=
  Loop.run_eq_none (fun s hs => ⟨s.next size, hs.next hsize⟩) fuel hs

end Reading

/-! ## The buffer -/

section Buffer

variable {text : List Char} {errno : Errno} {faults : List (Option Fault)}

theorem fseek_start (f : InputStream Char) :
    f.fseek InputStream.seekSet 0 = (0, { f with pos := 0, eof := false }) := by
  simp [InputStream.fseek, InputStream.seekSet]

theorem reading_start {f : InputStream Char} (hcontent : f.content = text) (size : Nat) :
    Reading text size ⟨{ f with pos := 0, eof := false }, List.replicate (size + 1) nul, 0⟩ where
  content := hcontent
  pos := rfl
  le := Nat.zero_le _
  buffer := rfl
  eof := fun h => by cases h

/-- Behind the first loop. -/
theorem adksysGetCmdlineBuffer_of_counted {fuel : Nat} {r : InputStream Char × Nat}
    (hrun : Loop.run countStep fuel (.opened text errno faults, 0) = some r) :
    adksysGetCmdlineBuffer fuel (some (.opened text errno faults)) =
      (Loop.run (readStep (r.2 - 1)) fuel
        ⟨{ r.1 with pos := 0, eof := false }, List.replicate (r.2 - 1 + 1) nul, 0⟩).map
        fun result => result.map fun buffer => (buffer, wrapInt (r.2 - 1 : Nat)) := by
  unfold adksysGetCmdlineBuffer
  dsimp only
  rw [hrun]
  simp only [Option.bind_eq_bind, Option.bind_some, fseek_start]
  cases Loop.run (readStep (r.2 - 1)) fuel
    ⟨{ r.1 with pos := 0, eof := false }, List.replicate (r.2 - 1 + 1) nul, 0⟩ <;> rfl

/-- The bytes, and a NUL for each `fgetc` that failed and one more. -/
theorem adksysGetCmdlineBuffer_sound {fuel : Nat} {result : Option (List Char × Int)}
    (h : adksysGetCmdlineBuffer fuel (some (.opened text errno faults)) = some result) :
    result = none ∨ result = some (text ++ List.replicate (failures faults text.length + 1) nul,
      wrapInt (text.length + failures faults text.length : Nat)) := by
  cases hrun : Loop.run countStep fuel (.opened text errno faults, 0) with
  | none =>
    unfold adksysGetCmdlineBuffer at h
    dsimp only at h
    rw [hrun] at h
    cases h
  | some r =>
    have hcounted := countLoop_sound hrun
    rw [adksysGetCmdlineBuffer_of_counted hrun, hcounted.size] at h
    obtain ⟨out, hread, rfl⟩ := Option.map_eq_some_iff.mp h
    have hlen : text.length + failures faults text.length + 1 - text.length =
        failures faults text.length + 1 := by omega
    rcases readLoop_sound (Nat.le_add_right _ _) (reading_start hcounted.content _) hread with rfl | rfl
    · exact .inl rfl
    · rw [hlen]
      exact .inr rfl

/-- Where only signals interrupt, the buffer is read exactly if no `fgetc` is interrupted, and otherwise
the second loop never ends. -/
theorem adksysGetCmdlineBuffer_signals (htext : text ≠ []) (hsignals : OnlySignals faults) (fuel : Nat) :
    (failures faults text.length = 0 → faults.length + text.length + 1 < fuel →
      adksysGetCmdlineBuffer fuel (some (.opened text errno faults)) =
        some (some (text ++ [nul], wrapInt text.length))) ∧
    (failures faults text.length ≠ 0 →
      adksysGetCmdlineBuffer fuel (some (.opened text errno faults)) = none) := by
  refine ⟨fun hzero hfuel => ?_, fun hpos => ?_⟩
  · obtain ⟨r, hrun, hcounted⟩ := @countLoop_returns text faults errno fuel hfuel
    rw [adksysGetCmdlineBuffer_of_counted hrun, hcounted.size, hzero, Nat.add_zero, readLoop_returns]
    · rfl
    · exact ⟨reading_start hcounted.content _, hsignals.of_suffix hcounted.left, rfl,
        List.length_pos_of_ne_nil htext⟩
    · have hle := hcounted.left.length_le
      dsimp only
      omega
  · cases hrun : Loop.run countStep fuel (.opened text errno faults, 0) with
    | none =>
      unfold adksysGetCmdlineBuffer
      dsimp only
      rw [hrun]
      rfl
    | some r =>
      have hcounted := countLoop_sound hrun
      have herrno := (hcounted.errno hsignals).resolve_right hpos
      rw [adksysGetCmdlineBuffer_of_counted hrun, hcounted.size, readLoop_hangs]
      · rfl
      · exact ⟨reading_start hcounted.content _, hsignals.of_suffix hcounted.left, herrno⟩
      · omega

end Buffer

/-! ## What is recorded -/

section Recorded

variable {args : List CStr} {arglist myargv : Int} {errno : Errno} {faults : List (Option Fault)}

theorem joined_append (args args' : List CStr) : joined (args ++ args') = joined args ++ joined args' :=
  List.flatMap_append

/-- The bytes of the buffer that `adiak_cmdline` looks at. -/
theorem take_buffer {text : List Char} {k : Nat} (h : text.length + k < 2 ^ 31) :
    (text ++ List.replicate (k + 1) nul).take (wrapInt (text.length + k : Nat)).toNat =
      text ++ List.replicate k nul := by
  have hlen : (text ++ List.replicate k nul).length = text.length + k := by
    rw [List.length_append, List.length_replicate]
  rw [wrapInt_of_lt (by omega) (by omega), Int.toNat_natCast, List.replicate_succ', ← List.append_assoc,
    List.take_left' hlen]

/-- What `adiak_cmdline` does with a buffer of that form. -/
theorem adiakCmdline_replicate (s : AdiakState) (hargs : ∀ a ∈ args, nul ∉ a) {k : Nat} (hlist : 0 < arglist)
    (hargv : myargv ≠ 0) (hspace : arglist + (joined args).length + k < 2 ^ 64)
    (htext : (joined args).length + k < 2 ^ 31) (hlen : args.length + k ≤ 2 ^ 28) :
    adiakCmdline s (some (joined args ++ List.replicate k nul)) arglist myargv = (do
      let s ← adiakRawNamevalue s (argsEvent (args ++ List.replicate k []))
      .ok (0, s)) := by
  have hall : ∀ a ∈ args ++ List.replicate k [], nul ∉ a := by
    intro a ha
    rcases List.mem_append.mp ha with ha | ha
    · exact hargs a ha
    · rw [List.eq_of_mem_replicate ha]
      exact List.not_mem_nil
  have hlength : (joined args ++ List.replicate k nul).length = (joined args).length + k := by
    rw [List.length_append, List.length_replicate]
  rw [← joined_replicate, ← joined_append] at hlength ⊢
  refine recordsArgs_of_le hall hlist hargv ?_ ?_ ?_ s
  · rw [hlength]
    push_cast
    omega
  · rw [hlength]
    exact htext
  · rw [List.length_append, List.length_replicate]
    exact hlen

/-- `adiak_cmdline` fails, or records the arguments and an empty one for each `fgetc` that failed. -/
theorem runCmdline_records (hargs : ∀ a ∈ args, nul ∉ a) (hlist : 0 < arglist) (hargv : myargv ≠ 0)
    (hspace : arglist + (joined args).length + failures faults (joined args).length < 2 ^ 64)
    (htext : (joined args).length + failures faults (joined args).length < 2 ^ 31)
    (hlen : args.length + failures faults (joined args).length ≤ 2 ^ 28) (s : AdiakState) (fuel : Nat)
    {r : Except Stop (Int × AdiakState)}
    (h : runCmdline fuel s (some (.opened (joined args) errno faults)) arglist myargv = some r) :
    r = .ok (-1, s) ∨ r = (do
      let s ← adiakRawNamevalue s
        (argsEvent (args ++ List.replicate (failures faults (joined args).length) []))
      .ok (0, s)) := by
  obtain ⟨result, hresult, hr⟩ := Option.bind_eq_some_iff.mp h
  obtain rfl := Option.some.inj hr
  rcases adksysGetCmdlineBuffer_sound hresult with rfl | rfl
  · exact .inl rfl
  · refine .inr ?_
    rw [← adiakCmdline_replicate s hargs hlist hargv hspace htext hlen, ← take_buffer htext]
    rfl

/-- A call of `fgetc` fails, and one of `fread` behind a byte. -/
theorem runCmdline_records_one_more :
    ∃ r, runCmdline 20 (initialState 0 true)
        (some (.opened (joined [['l', 's'], []]) .other [none, some ⟨0, .other⟩, none, none, none, none,
          some ⟨1, .other⟩])) 8 64 = some r ∧
      (r = .ok (-1, initialState 0 true) ∨
        r = (do
          let s ← adiakRawNamevalue (initialState 0 true) (argsEvent [['l', 's'], [], []])
          .ok (0, s))) := by
  obtain ⟨r, hr⟩ := Option.isSome_iff_exists.mp (show (runCmdline 20 (initialState 0 true)
    (some (.opened (joined [['l', 's'], []]) .other [none, some ⟨0, .other⟩, none, none, none, none,
      some ⟨1, .other⟩])) 8 64).isSome = true by decide +kernel)
  exact ⟨r, hr, runCmdline_records (by decide) (by decide) (by decide) (by decide) (by decide) (by decide)
    _ _ hr⟩

/-- Where only signals interrupt, the arguments are recorded if no `fgetc` is interrupted, and otherwise
`adiak_cmdline` does not return. -/
theorem runCmdline_signals (hne : args ≠ []) (hargs : ∀ a ∈ args, nul ∉ a) (hlist : 0 < arglist)
    (hargv : myargv ≠ 0) (hspace : arglist + (joined args).length < 2 ^ 64)
    (htext : (joined args).length < 2 ^ 31) (hlen : args.length ≤ 2 ^ 28)
    (hsignals : OnlySignals faults) (s : AdiakState) :
    (failures faults (joined args).length = 0 →
      ∀ fuel, faults.length + (joined args).length + 1 < fuel →
        runCmdline fuel s (some (.opened (joined args) errno faults)) arglist myargv = some (do
          let s ← adiakRawNamevalue s (argsEvent args)
          .ok (0, s))) ∧
    (failures faults (joined args).length ≠ 0 →
      ∀ fuel, runCmdline fuel s (some (.opened (joined args) errno faults)) arglist myargv = none) := by
  have hjoined : joined args ≠ [] := by
    obtain ⟨a, rest, rfl⟩ := List.exists_cons_of_ne_nil hne
    rw [joined_cons]
    exact List.append_ne_nil_of_right_ne_nil a (List.cons_ne_nil _ _)
  refine ⟨fun hzero fuel hfuel => ?_, fun hpos fuel => ?_⟩
  · have htake : (joined args ++ [nul]).take (wrapInt (joined args).length).toNat = joined args :=
      (@take_buffer (joined args) 0 htext).trans (List.append_nil _)
    unfold runCmdline
    rw [(adksysGetCmdlineBuffer_signals hjoined hsignals fuel).1 hzero hfuel]
    show some (adiakCmdline s (some ((joined args ++ [nul]).take _)) arglist myargv) = _
    rw [htake]
    exact congrArg some (recordsArgs_of_le hargs hlist hargv hspace htext hlen s)
  · unfold runCmdline
    rw [(adksysGetCmdlineBuffer_signals hjoined hsignals fuel).2 hpos]
    rfl

/-- A signal that interrupts `fread`, and one that interrupts `fgetc`. -/
theorem runCmdline_signals_one :
    runCmdline 20 (initialState 0 true) (some (.opened (joined [['l', 's']]) .other
        [none, none, none, none, some ⟨1, .eintr⟩])) 8 64 = some (do
      let s ← adiakRawNamevalue (initialState 0 true) (argsEvent [['l', 's']])
      .ok (0, s)) ∧
    ∀ fuel, runCmdline fuel (initialState 0 true) (some (.opened (joined [['l', 's']]) .other
      [none, some ⟨0, .eintr⟩])) 8 64 = none :=
  ⟨(runCmdline_signals (by decide) (by decide) (by decide) (by decide) (by decide) (by decide) (by decide)
      (by simp [OnlySignals]) _).1 rfl 20 (by decide),
    (runCmdline_signals (by decide) (by decide) (by decide) (by decide) (by decide) (by decide) (by decide)
      (by simp [OnlySignals]) _).2 (by decide)⟩

end Recorded

end Adiak
