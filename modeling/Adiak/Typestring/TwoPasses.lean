import Adiak.Typestring.Printer

/-!
# The typestring printer

`adiak_type_to_string` and its helper of `adiak.c`, with a record of the calls of `snprintf`.

The helper runs twice over the datatype: the first pass only counts, the second one writes the same
pieces of text with `snprintf` into a block of the size the first one found.

1. `Output` is the buffer with the calls on it. Lengths and positions are `int`s, and a size is
   what `len - pos` becomes as a `size_t`.
2. `printed` is the text of a datatype, in the pieces of which it is made. Both passes go through
   these pieces (`helper_pieces`).
3. The first pass adds up the lengths (`printPieces_size`), the second one writes each piece whole
   behind the last one (`printPieces_write`).
4. `printsWell_iff`: the passes agree as long as there is an `int` for the size of the buffer. Beyond,
   the second pass runs out of its buffer (`printPieces_fits`), so a string is returned only for a text
   of at most `2 ^ 31 - 2` characters (`adiakTypeToString_ok`).
-/

namespace Adiak

namespace IntPrinter

/-! ## The code -/

/-- A call `snprintf(str + pos, len - pos, "%s", text)`. -/
structure SnprintfCall where
  pos : Int
  len : Int
  text : CStr

/-- `str`, which may be `NULL`, and the calls of `snprintf` on it. -/
structure Output where
  str : Option Block
  calls : List SnprintfCall

/-- `malloc` of an `int`. A negative one becomes a size that no block has. -/
def mallocInt (n : Int) : Option Block := if n < 0 then none else some (malloc n.toNat)

/-- `snprintf(str + pos, len - pos, "%s", text)`: what fits of the text, and a NUL. -/
def Output.snprintf (out : Output) (pos len : Int) (text : CStr) : Except Stop Output :=
  let size := (wrapInt (len - pos) % 2 ^ 64).toNat
  let calls := out.calls ++ [⟨pos, len, text⟩]
  if size = 0 then .ok ⟨out.str, calls⟩
  else
    match out.str with
    | none => .error .undefined
    | some block =>
      let bytes := (text.take (size - 1)).map some ++ [some nul]
      if pos < 0 ∨ block.length < pos.toNat + bytes.length then .error .undefined
      else .ok ⟨some (block.write pos.toNat bytes), calls⟩

/-- A simple name, a bracket or a separator: the output and the position behind it. Both passes
add the length of the text, which `snprintf` returns even where it cuts the text off. -/
def printPiece (sizeCalcOnly : Bool) (len : Int) (text : CStr) (out : Output) (pos : Int) :
    Except Stop (Output × Int) :=
  if sizeCalcOnly then .ok (out, wrapInt (pos + text.length))
  else do
    let out ← out.snprintf pos len text
    .ok (out, wrapInt (pos + text.length))

mutual

/-- `adiak_type_string_helper`: the output and the length of the text. -/
def adiakTypeStringHelper (longForm sizeCalcOnly : Bool) (len : Int) :
    AdiakDatatype → Output → Int → Except Stop (Output × Int)
  | .null, _, _ => .error .undefined
  | .node info subtype, out, startPos =>
    match typeWords longForm info.dtype with
    | .inl simple => do
      let (out, pos) ← printPiece sizeCalcOnly len simple out startPos
      .ok (out, wrapInt (pos - startPos))
    | .inr (lbracket, rbracket) => do
      let (out, pos) ← printPiece sizeCalcOnly len lbracket out startPos
      let (out, pos) ← adiakTypeStringSubtypes longForm sizeCalcOnly len subtype out pos
      let (out, pos) ← printPiece sizeCalcOnly len rbracket out pos
      .ok (out, wrapInt (pos - startPos))

/-- The loop over the subtypes. -/
def adiakTypeStringSubtypes (longForm sizeCalcOnly : Bool) (len : Int) :
    List AdiakDatatype → Output → Int → Except Stop (Output × Int)
  | [], out, pos => .ok (out, pos)
  | t :: ts, out, pos => do
    let (out, result) ← adiakTypeStringHelper longForm sizeCalcOnly len t out pos
    let pos := wrapInt (pos + result)
    let (out, pos) ← if ts.isEmpty then .ok (out, pos)
      else printPiece sizeCalcOnly len ", ".toList out pos
    adiakTypeStringSubtypes longForm sizeCalcOnly len ts out pos

end

/-- The local variables of `adiak_type_to_string` behind the second pass. -/
structure Passes where
  len : Int
  len2 : Int
  out : Output

/-- `adiak_type_to_string` up to the assertion. -/
def passes (t : AdiakDatatype) (longForm : Bool) : Except Stop Passes := do
  let (_, len) ← adiakTypeStringHelper longForm true 0 t ⟨none, []⟩ 0
  if len ≤ 0 then .error .null
  else do
    let buffer := mallocInt (wrapInt (len + 1))
    let (out, len2) ← adiakTypeStringHelper longForm false (wrapInt (len + 1)) t ⟨buffer, []⟩ 0
    .ok ⟨len, len2, out⟩

/-- `adiak_type_to_string`. A failed assertion aborts. -/
def adiakTypeToString (t : AdiakDatatype) (longForm : Bool) : Except Stop Block := do
  let p ← passes t longForm
  if p.len ≠ p.len2 then .error .undefined
  else
    match p.out.str with
    | none => .error .undefined
    | some buffer =>
      if p.len < 0 ∨ (buffer.length : Int) ≤ p.len then .error .undefined
      else .ok (buffer.set p.len.toNat (some nul))

/-! ## The text in pieces -/

mutual

/-- The brackets, simple names and separators in order. -/
def pieces (longForm : Bool) : AdiakDatatype → List CStr
  | .null => []
  | .node info subtype =>
    match typeWords longForm info.dtype with
    | .inl simple => [simple]
    | .inr (lbracket, rbracket) => lbracket :: (subtypePieces longForm subtype ++ [rbracket])

/-- The pieces of the subtypes, with separators. -/
def subtypePieces (longForm : Bool) : List AdiakDatatype → List CStr
  | [] => []
  | t :: ts =>
    pieces longForm t ++ ((if ts.isEmpty then [] else [", ".toList]) ++ subtypePieces longForm ts)

end

/-- The text of a datatype. -/
def printed (longForm : Bool) (t : AdiakDatatype) : CStr := (pieces longForm t).flatten

mutual

/-- No subtype is `NULL`. -/
def noNull : AdiakDatatype → Bool
  | .null => false
  | .node _ subtype => noNulls subtype

def noNulls : List AdiakDatatype → Bool
  | [] => true
  | t :: ts => noNull t && noNulls ts

end

theorem noNulls_eq_all (ts : List AdiakDatatype) : noNulls ts = ts.all noNull := by
  induction ts with
  | nil => rfl
  | cons t ts ih => rw [noNulls, ih, List.all_cons]

/-- A text is made of the pieces. -/
theorem printed_of_text {longForm : Bool} {t : AdiakDatatype} {s : CStr}
    (h : typeText longForm t = .ok s) : printed longForm t = s := by
  induction t generalizing s with
  | null => cases h
  | node info subtype ih =>
    have htexts : ∀ body, typeTexts longForm subtype = .ok body →
        (subtypePieces longForm subtype).flatten = body := by
      clear h
      induction subtype with
      | nil => exact fun _ hbody => Except.ok.inj hbody
      | cons t ts ihts =>
        intro body hbody
        obtain ⟨a, rest, ha, hrest, rfl⟩ := typeTexts_cons hbody
        have hfirst : (pieces longForm t).flatten = a := ih t List.mem_cons_self ha
        rw [subtypePieces, List.flatten_append, List.flatten_append, hfirst,
          ihts (fun u hu => ih u (List.mem_cons_of_mem t hu)) rest hrest]
        split_ifs <;> rfl
    unfold printed
    rw [pieces]
    obtain hwords | ⟨lbracket, rbracket, body, hwords, hbody, rfl⟩ := typeText_node h
    · rw [hwords]
      exact List.flatten_singleton
    · rw [hwords]
      dsimp only
      rw [List.flatten_cons, List.flatten_append, htexts body hbody, List.flatten_singleton]

/-- Without a `NULL` there is a text. -/
theorem typeText_eq (longForm : Bool) {t : AdiakDatatype} (h : noNull t = true) :
    typeText longForm t = .ok (printed longForm t) := by
  suffices hs : ∃ s, typeText longForm t = .ok s by
    obtain ⟨s, hs⟩ := hs
    rw [hs, printed_of_text hs]
  induction t with
  | null => cases h
  | node info subtype ih =>
    rw [noNull, noNulls_eq_all, List.all_eq_true] at h
    have htexts : ∃ body, typeTexts longForm subtype = .ok body := by
      induction subtype with
      | nil => exact ⟨[], rfl⟩
      | cons t ts ihts =>
        obtain ⟨a, ha⟩ := ih t List.mem_cons_self (h t List.mem_cons_self)
        obtain ⟨rest, hrest⟩ := ihts (fun u hu => ih u (List.mem_cons_of_mem t hu))
          fun u hu => h u (List.mem_cons_of_mem t hu)
        exact ⟨_, by rw [typeTexts, ha, ok_bind, hrest, ok_bind]⟩
    obtain ⟨body, hbody⟩ := htexts
    rw [typeText]
    cases typeWords longForm info.dtype with
    | inl simple => exact ⟨simple, rfl⟩
    | inr words => exact ⟨_, by dsimp only; rw [hbody, ok_bind]⟩

/-- If the subtypes have texts, each of them has one. -/
theorem text_of_mem {longForm : Bool} {ts : List AdiakDatatype} {s : CStr}
    (h : typeTexts longForm ts = .ok s) {t : AdiakDatatype} (ht : t ∈ ts) :
    ∃ a, typeText longForm t = .ok a := by
  induction ts generalizing s with
  | nil => cases ht
  | cons u us ih =>
    obtain ⟨a, rest, ha, hrest, -⟩ := typeTexts_cons h
    rcases List.mem_cons.mp ht with rfl | ht
    · exact ⟨a, ha⟩
    · exact ih hrest ht

/-! ## Printing pieces -/

section Pieces

variable {longForm sizeCalcOnly : Bool} {len : Int}

/-- Prints pieces one behind another. -/
def printPieces (sizeCalcOnly : Bool) (len : Int) :
    List CStr → Output → Int → Except Stop (Output × Int)
  | [], out, pos => .ok (out, pos)
  | w :: ws, out, pos => do
    let (out, pos) ← printPiece sizeCalcOnly len w out pos
    printPieces sizeCalcOnly len ws out pos

theorem printPieces_append (v w : List CStr) (out : Output) (pos : Int) :
    printPieces sizeCalcOnly len (v ++ w) out pos =
      (do
        let (out, pos) ← printPieces sizeCalcOnly len v out pos
        printPieces sizeCalcOnly len w out pos) := by
  induction v generalizing out pos with
  | nil => rfl
  | cons a v ih =>
    rw [List.cons_append, printPieces, printPieces, bind_assoc]
    congr 1
    funext x
    exact ih x.1 x.2

theorem printPiece_pos {text : CStr} {out out' : Output} {pos pos' : Int}
    (h : printPiece sizeCalcOnly len text out pos = .ok (out', pos')) :
    pos' = wrapInt (pos + text.length) := by
  unfold printPiece at h
  split_ifs at h
  · exact (Prod.mk.inj (Except.ok.inj h)).2.symm
  · obtain ⟨out₁, -, h⟩ := bind_eq_ok.mp h
    exact (Prod.mk.inj (Except.ok.inj h)).2.symm

/-- The position behind the pieces. -/
theorem printPieces_pos {ws : List CStr} {out out' : Output} {pos pos' : Int}
    (hpos : wrapInt pos = pos) (h : printPieces sizeCalcOnly len ws out pos = .ok (out', pos')) :
    pos' = wrapInt (pos + ws.flatten.length) := by
  induction ws generalizing out pos with
  | nil =>
    obtain rfl := (Prod.mk.inj (Except.ok.inj h)).2
    rw [List.flatten_nil, List.length_nil, Int.ofNat_zero, Int.add_zero, hpos]
  | cons w ws ih =>
    obtain ⟨⟨out₁, pos₁⟩, hfirst, h⟩ := bind_eq_ok.mp h
    obtain rfl := printPiece_pos hfirst
    rw [ih (wrapInt_idem _) h, wrapInt_wrapInt_add, List.flatten_cons, List.length_append]
    congr 1
    push_cast
    omega

/-- The loop over the subtypes prints their pieces. -/
theorem subtypes_pieces {ts : List AdiakDatatype}
    (hts : ∀ t ∈ ts, ∀ out pos, wrapInt pos = pos →
      adiakTypeStringHelper longForm sizeCalcOnly len t out pos =
        (do
          let (out, pos') ← printPieces sizeCalcOnly len (pieces longForm t) out pos
          .ok (out, wrapInt (pos' - pos))))
    {out : Output} {pos : Int} (hpos : wrapInt pos = pos) :
    adiakTypeStringSubtypes longForm sizeCalcOnly len ts out pos =
      printPieces sizeCalcOnly len (subtypePieces longForm ts) out pos := by
  induction ts generalizing out pos with
  | nil => rfl
  | cons t ts ih =>
    have hrec := fun {out} {pos} => @ih (fun u hu => hts u (List.mem_cons_of_mem t hu)) out pos
    rw [adiakTypeStringSubtypes, subtypePieces, printPieces_append,
      hts t List.mem_cons_self out pos hpos]
    cases hfirst : printPieces sizeCalcOnly len (pieces longForm t) out pos with
    | error e => rfl
    | ok x =>
      obtain ⟨out₁, pos₁⟩ := x
      have hpos₁ : wrapInt pos₁ = pos₁ := by rw [printPieces_pos hpos hfirst, wrapInt_idem]
      have hcur : wrapInt (pos + wrapInt (pos₁ - pos)) = pos₁ := by
        rw [wrapInt_add_wrapInt, add_sub_cancel, hpos₁]
      simp only [ok_bind, hcur]
      by_cases hlast : ts.isEmpty
      · simp only [if_pos hlast, List.nil_append]
        exact hrec hpos₁
      · simp only [if_neg hlast, List.singleton_append, printPieces]
        cases hsep : printPiece sizeCalcOnly len ", ".toList out₁ pos₁ with
        | error e => rfl
        | ok y =>
          obtain ⟨out₂, pos₂⟩ := y
          exact hrec (by rw [printPiece_pos hsep, wrapInt_idem])

/-- The helper prints the pieces and returns the way it has come. -/
theorem helper_pieces {t : AdiakDatatype} {s : CStr} (htext : typeText longForm t = .ok s)
    {out : Output} {pos : Int} (hpos : wrapInt pos = pos) :
    adiakTypeStringHelper longForm sizeCalcOnly len t out pos =
      (do
        let (out, pos') ← printPieces sizeCalcOnly len (pieces longForm t) out pos
        .ok (out, wrapInt (pos' - pos))) := by
  induction t generalizing s out pos with
  | null => cases htext
  | node info subtype ih =>
    rw [adiakTypeStringHelper, pieces]
    obtain hwords | ⟨lbracket, rbracket, body, hwords, hbody, -⟩ := typeText_node htext
    · rw [hwords]
      simp only [printPieces]
      cases printPiece sizeCalcOnly len s out pos <;> rfl
    · rw [hwords]
      simp only [printPieces]
      cases hfirst : printPiece sizeCalcOnly len lbracket out pos with
      | error e => rfl
      | ok x =>
        obtain ⟨out₁, pos₁⟩ := x
        have hpos₁ : wrapInt pos₁ = pos₁ := by rw [printPiece_pos hfirst, wrapInt_idem]
        have hts := fun t ht out pos h => @ih t ht _ (text_of_mem hbody ht).choose_spec out pos h
        simp only [ok_bind]
        rw [subtypes_pieces hts hpos₁, printPieces_append]
        cases printPieces sizeCalcOnly len (subtypePieces longForm subtype) out₁ pos₁ with
        | error e => rfl
        | ok y =>
          simp only [ok_bind, printPieces]
          cases printPiece sizeCalcOnly len rbracket y.1 y.2 <;> rfl

end Pieces

/-! ## The first pass -/

theorem printPieces_size (len : Int) {ws : List CStr} {out : Output} {pos : Int}
    (hpos : wrapInt pos = pos) :
    printPieces true len ws out pos = .ok (out, wrapInt (pos + ws.flatten.length)) := by
  induction ws generalizing pos with
  | nil => rw [printPieces, List.flatten_nil, List.length_nil, Int.ofNat_zero, Int.add_zero, hpos]
  | cons w ws ih =>
    have hfirst : printPiece true len w out pos = .ok (out, wrapInt (pos + w.length)) := rfl
    rw [printPieces, hfirst, ok_bind]
    dsimp only
    rw [ih (wrapInt_idem _), wrapInt_wrapInt_add, List.flatten_cons, List.length_append]
    push_cast
    rw [Int.add_assoc]

/-- The first pass returns the length of the text. -/
theorem helper_size {longForm : Bool} {t : AdiakDatatype} {s : CStr}
    (htext : typeText longForm t = .ok s) (len : Int) (out : Output) {pos : Int}
    (hpos : wrapInt pos = pos) :
    adiakTypeStringHelper longForm true len t out pos = .ok (out, wrapInt s.length) := by
  rw [helper_pieces htext hpos, printPieces_size len hpos, ok_bind, ← printed_of_text htext]
  show Except.ok (out, wrapInt (wrapInt (pos + (printed longForm t).length) - pos)) = _
  rw [sub_eq_add_neg, wrapInt_wrapInt_add, ← sub_eq_add_neg, add_sub_cancel_left]

/-- The first pass follows a `NULL`. -/
theorem helper_error {longForm : Bool} {t : AdiakDatatype} {e : Stop} (len : Int) (out : Output)
    {pos : Int} (hpos : wrapInt pos = pos) (h : typeText longForm t = .error e) :
    adiakTypeStringHelper longForm true len t out pos = .error .undefined := by
  induction t generalizing e pos with
  | null => rfl
  | node info subtype ih =>
    have hloop : ∀ e pos, wrapInt pos = pos → typeTexts longForm subtype = .error e →
        adiakTypeStringSubtypes longForm true len subtype out pos = .error .undefined := by
      clear h
      induction subtype with
      | nil => rintro e pos - ⟨⟩
      | cons t ts ihts =>
        intro e pos hpos h
        rw [typeTexts] at h
        rw [adiakTypeStringSubtypes]
        cases ht : typeText longForm t with
        | error e' =>
          rw [ih t List.mem_cons_self hpos ht]
          rfl
        | ok a =>
          rw [ht] at h
          cases hts : typeTexts longForm ts with
          | error e' =>
            have hrec := fun pos hpos =>
              ihts (fun u hu => ih u (List.mem_cons_of_mem t hu)) e' pos hpos hts
            rw [helper_size ht len out hpos, ok_bind]
            by_cases hlast : ts.isEmpty
            · simp only [if_pos hlast, ok_bind]
              exact hrec _ (wrapInt_idem _)
            · simp only [if_neg hlast, printPiece, if_true, ok_bind]
              exact hrec _ (wrapInt_idem _)
          | ok rest =>
            rw [hts] at h
            cases h
    rw [typeText] at h
    rw [adiakTypeStringHelper]
    cases hwords : typeWords longForm info.dtype with
    | inl simple => rw [hwords] at h; cases h
    | inr words =>
      rw [hwords] at h
      cases htexts : typeTexts longForm subtype with
      | error e' =>
        simp only [printPiece, if_true, ok_bind, hloop e' _ (wrapInt_idem _) htexts, error_bind]
      | ok s => dsimp only at h; rw [htexts] at h; cases h

/-! ## The second pass -/

section Write

variable {size : Nat} {pre : CStr}

/-- The buffer behind a text: a byte that the next piece overwrites, and those not written. -/
def behind (size : Nat) (pre : CStr) (next : Option Char) : Block :=
  pre.map some ++ next :: List.replicate (size - pre.length) none

theorem length_behind (h : pre.length ≤ size) (next : Option Char) :
    (behind size pre next).length = size + 1 := by
  unfold behind
  simp only [List.length_append, List.length_map, List.length_cons, List.length_replicate]
  omega

/-- A piece written behind a text. -/
theorem write_behind {text : CStr} (next : Option Char) :
    (behind size pre next).write pre.length (text.map some ++ [some nul]) =
      behind size (pre ++ text) (some nul) := by
  have htake : (behind size pre next).take pre.length = pre.map some :=
    List.take_left' (List.length_map _)
  have hdrop : (behind size pre next).drop (pre.length + (text.map some ++ [some nul]).length) =
      List.replicate (size - (pre ++ text).length) none := by
    unfold behind
    rw [← List.drop_drop, List.drop_left' (List.length_map _), List.length_append,
      List.length_map, List.length_singleton, List.drop_succ_cons, List.drop_replicate,
      List.length_append, Nat.sub_sub]
  unfold Block.write
  rw [htake, hdrop]
  unfold behind
  rw [List.map_append, List.append_assoc, List.append_assoc]
  rfl

/-- The call has room for its text and the NUL. -/
def SnprintfCall.Fits (size : Nat) (call : SnprintfCall) : Prop :=
  0 ≤ call.pos ∧ call.pos + call.text.length + 1 ≤ size + 1 ∧ call.len = size + 1

/-- A piece that fits is written whole. -/
theorem printPiece_write {text : CStr} (hsize : size + 1 < 2 ^ 31)
    (h : pre.length + text.length ≤ size) (next : Option Char) (calls : List SnprintfCall) :
    printPiece false (size + 1) text ⟨some (behind size pre next), calls⟩ pre.length =
      .ok (⟨some (behind size (pre ++ text) (some nul)),
        calls ++ [⟨pre.length, size + 1, text⟩]⟩, (pre ++ text).length) := by
  have hroom : (wrapInt ((size + 1 : Int) - pre.length) % 2 ^ 64).toNat = size + 1 - pre.length := by
    rw [wrapInt_of_lt (by omega) (by omega)]
    omega
  have hpos : wrapInt ((pre.length : Int) + text.length) = (pre ++ text).length := by
    rw [wrapInt_of_lt (by omega) (by omega), List.length_append]
    push_cast
    rfl
  have htake : text.take (size + 1 - pre.length - 1) = text := List.take_of_length_le (by omega)
  have hlen := length_behind (by omega : pre.length ≤ size) next
  unfold printPiece Output.snprintf
  rw [if_neg Bool.false_ne_true]
  dsimp only
  rw [hroom, if_neg (by omega), htake, if_neg, ok_bind, Int.toNat_natCast, write_behind, hpos]
  rw [hlen]
  simp only [List.length_append, List.length_map, List.length_singleton, Int.toNat_natCast]
  omega

/-- Pieces that fit are written whole, one behind another. -/
theorem printPieces_write {ws : List CStr} (hsize : size + 1 < 2 ^ 31)
    (h : pre.length + ws.flatten.length ≤ size) (next : Option Char) (calls : List SnprintfCall) :
    ∃ last made, printPieces false (size + 1) ws ⟨some (behind size pre next), calls⟩ pre.length =
        .ok (⟨some (behind size (pre ++ ws.flatten) last), calls ++ made⟩,
          (pre ++ ws.flatten).length) ∧
      (ws ≠ [] → last = some nul) ∧ made.map SnprintfCall.text = ws ∧ ∀ call ∈ made, call.Fits size := by
  induction ws generalizing pre next calls with
  | nil => exact ⟨next, [], by simp [printPieces], fun hne => absurd rfl hne, rfl, by simp⟩
  | cons w ws ih =>
    rw [List.flatten_cons, List.length_append] at h
    obtain ⟨last, made, hrest, hlast, htexts, hfit⟩ := @ih (pre ++ w)
      (by rw [List.length_append]; omega) (some nul) (calls ++ [⟨pre.length, size + 1, w⟩])
    refine ⟨last, ⟨pre.length, size + 1, w⟩ :: made, ?_, fun _ => ?_, congrArg _ htexts, ?_⟩
    · rw [printPieces, printPiece_write hsize (by omega), ok_bind]
      dsimp only
      rw [hrest, List.flatten_cons, List.append_assoc, List.append_assoc]
      rfl
    · cases ws with
      | nil =>
        -- the last piece has left its NUL
        have hnil := Except.ok.inj hrest
        simp only [behind, List.flatten_nil, List.append_nil, Prod.mk.injEq, Output.mk.injEq,
          Option.some.injEq] at hnil
        exact ((List.cons.inj (List.append_cancel_left hnil.1.1)).1).symm
      | cons w' ws => exact hlast (List.cons_ne_nil _ _)
    · refine List.forall_mem_cons.mpr ⟨⟨Int.natCast_nonneg _, ?_, rfl⟩, hfit⟩
      dsimp only
      omega

end Write

/-! ## Both passes -/

section Both

variable {t : AdiakDatatype} {longForm : Bool}

/-- The passes find the same length, each call of `snprintf` has room for its text and the NUL, and
the buffer holds the text. -/
structure Agree (longForm : Bool) (t : AdiakDatatype) (p : Passes) (buffer : Block) : Prop where
  len : p.len = (printed longForm t).length
  len2 : p.len2 = p.len
  texts : p.out.calls.map SnprintfCall.text = pieces longForm t
  fits : ∀ call ∈ p.out.calls,
    0 ≤ call.pos ∧ call.pos + call.text.length + 1 ≤ p.len + 1 ∧ call.len = p.len + 1
  bytes : buffer = (printed longForm t).map some ++ [some nul]
  strlen : Block.readCstr buffer = .ok (printed longForm t)

/-- `adiak_type_to_string` returns a buffer, and its passes agree. -/
def PrintsWell (longForm : Bool) (t : AdiakDatatype) : Prop :=
  ∃ p buffer, passes t longForm = .ok p ∧ adiakTypeToString t longForm = .ok buffer ∧
    Agree longForm t p buffer

theorem pieces_ne_nil {s : CStr} (htext : typeText longForm t = .ok s) : pieces longForm t ≠ [] := by
  intro hnil
  have hpos := length_typeText_pos htext
  rw [← printed_of_text htext, printed, hnil] at hpos
  exact absurd hpos (by decide)

/-- The passes, when there is an `int` for the size of the buffer. -/
theorem exists_passes (htext : typeText longForm t = .ok (printed longForm t))
    (hsize : (printed longForm t).length + 1 < 2 ^ 31) :
    ∃ calls, passes t longForm = .ok ⟨(printed longForm t).length, (printed longForm t).length,
        some ((printed longForm t).map some ++ [some nul]), calls⟩ ∧
      calls.map SnprintfCall.text = pieces longForm t ∧
      ∀ call ∈ calls, call.Fits (printed longForm t).length := by
  have hpos := length_typeText_pos htext
  set size := (printed longForm t).length with hprinted
  have hbuffer : mallocInt (size + 1) = some (behind size [] none) := by
    unfold mallocInt
    rw [if_neg (by omega)]
    rfl
  obtain ⟨last, calls, hwrite, hlast, htexts, hfit⟩ := @printPieces_write size []
    (pieces longForm t) hsize (by rw [List.length_nil, Nat.zero_add]; exact le_rfl) none []
  obtain rfl := hlast (pieces_ne_nil htext)
  have hend : behind size (printed longForm t) (some nul) =
      (printed longForm t).map some ++ [some nul] := by
    unfold behind
    rw [← hprinted, Nat.sub_self]
    rfl
  refine ⟨calls, ?_, htexts, hfit⟩
  unfold passes
  rw [helper_size htext 0 _ rfl, ← hprinted, wrapInt_of_lt (by omega) (by omega), ok_bind]
  dsimp only
  rw [if_neg (by omega), wrapInt_of_lt (by omega) (by omega), hbuffer, helper_pieces htext rfl]
  change printPieces false (size + 1) (pieces longForm t) ⟨some (behind size [] none), []⟩ 0 =
    .ok (⟨some (behind size (printed longForm t) (some nul)), calls⟩, (printed longForm t).length)
    at hwrite
  rw [hwrite, hend, ok_bind, ok_bind, Int.sub_zero, ← hprinted,
    wrapInt_of_lt (by omega) (by omega)]

theorem printsWell_of_lt (htext : typeText longForm t = .ok (printed longForm t))
    (hsize : (printed longForm t).length + 1 < 2 ^ 31) : PrintsWell longForm t := by
  obtain ⟨calls, hpasses, htexts, hfit⟩ := exists_passes htext hsize
  have hset : ((printed longForm t).map some ++ [some nul]).set (printed longForm t).length (some nul) =
      (printed longForm t).map some ++ [some nul] := by
    rw [List.set_append_right _ _ (by simp), List.length_map, Nat.sub_self]
    rfl
  refine ⟨_, _, hpasses, ?_, rfl, rfl, htexts, fun call hcall => hfit call hcall, rfl,
    Block.readCstr_append (nul_notMem_typeText htext) []⟩
  unfold adiakTypeToString
  rw [hpasses, ok_bind]
  dsimp only
  rw [if_neg (not_not_intro rfl), if_neg, Int.toNat_natCast, hset]
  rw [List.length_append, List.length_map, List.length_singleton]
  omega

/-- Where the size of the buffer is no `int`, the first write goes through `NULL`. -/
theorem passes_eq_error (htext : typeText longForm t = .ok (printed longForm t))
    (hsize : (printed longForm t).length = 2 ^ 31 - 1) : passes t longForm = .error .undefined := by
  have hlen : wrapInt ((2 ^ 31 - 1 : Nat) : Int) = 2 ^ 31 - 1 := rfl
  have hnone : mallocInt (wrapInt ((2 ^ 31 - 1 : Int) + 1)) = none := rfl
  obtain ⟨w, ws, hpieces⟩ := List.exists_cons_of_ne_nil (pieces_ne_nil htext)
  unfold passes
  rw [helper_size htext 0 _ rfl, hsize, hlen, ok_bind]
  dsimp only
  rw [if_neg (by decide), hnone, helper_pieces htext rfl, hpieces]
  rfl

/-- The two passes of the printer agree exactly if there is an `int` for the size of the buffer. -/
theorem printsWell_iff (hnull : noNull t = true) (hfits : (printed longForm t).length ≤ 2 ^ 31 - 1) :
    PrintsWell longForm t ↔ (printed longForm t).length + 1 ≤ 2 ^ 31 - 1 := by
  have htext := typeText_eq longForm hnull
  refine ⟨fun ⟨p, buffer, hpasses, _⟩ => ?_, fun hsize => printsWell_of_lt htext (by omega)⟩
  by_contra hsize
  rw [passes_eq_error htext (by omega)] at hpasses
  cases hpasses

/-- The text of `[(%d, %s)]` in both forms. -/
theorem printsWell_iff_list :
    PrintsWell false (.node (containerNode .set false 1)
      [.node (containerNode .tuple false 2) [baseInt, baseString]]) ∧
    PrintsWell true (.node (containerNode .set false 1)
      [.node (containerNode .tuple false 2) [baseInt, baseString]]) :=
  ⟨(printsWell_iff rfl (by decide)).mpr (by decide), (printsWell_iff rfl (by decide)).mpr (by decide)⟩

/-! ## The longest texts -/

/-- A tuple of `n` integers inside of three ranges. -/
def longTree (n : Nat) : AdiakDatatype :=
  .node (containerNode .range false 2) [.node (containerNode .range false 2)
    [.node (containerNode .range false 2)
      [.node (containerNode .tuple false n) (List.replicate n baseInt)]]]

theorem length_subtypePieces_replicate (n : Nat) :
    (subtypePieces false (List.replicate (n + 1) baseInt)).flatten.length = 4 * n + 2 := by
  induction n with
  | zero => rfl
  | succ n ih =>
    rw [List.replicate_succ, subtypePieces, List.flatten_append, List.flatten_append,
      List.length_append, List.length_append, ih]
    have hlast : (List.replicate (n + 1) baseInt).isEmpty = false := rfl
    rw [hlast]
    show 2 + (2 + (4 * n + 2)) = _
    omega

theorem length_printed_longTree (n : Nat) : (printed false (longTree (n + 1))).length = 4 * n + 7 := by
  have h := length_subtypePieces_replicate n
  simp [printed, longTree, pieces, subtypePieces, typeWords, containerNode] at h ⊢
  omega

theorem noNull_longTree (n : Nat) : noNull (longTree n) = true := by
  have h : noNulls (List.replicate n baseInt) = true := by
    rw [noNulls_eq_all]
    exact List.all_eq_true.mpr fun t ht => (List.eq_of_mem_replicate ht) ▸ rfl
  simp [longTree, noNull, noNulls, h]

/-- A text of `2 ^ 31 - 1` characters, for which no buffer is allocated. -/
theorem printsWell_not_always :
    ¬ ∀ (t : AdiakDatatype) (longForm : Bool), noNull t = true →
      (printed longForm t).length ≤ 2 ^ 31 - 1 → PrintsWell longForm t := by
  intro h
  have hlen := length_printed_longTree (2 ^ 29 - 2)
  obtain ⟨p, buffer, hpasses, -⟩ := h (longTree (2 ^ 29 - 2 + 1)) false (noNull_longTree _)
    (by rw [hlen]; decide)
  rw [passes_eq_error (typeText_eq false (noNull_longTree _)) (by rw [hlen]; decide)] at hpasses
  cases hpasses

/-! ## Texts that are too long -/

/-- No piece has more than 31 characters. -/
theorem length_lt_of_mem_pieces {w : CStr} (hw : w ∈ pieces longForm t) : w.length < 32 := by
  induction t with
  | null => cases hw
  | node info subtype ih =>
    have hsubtypes : w ∈ subtypePieces longForm subtype → w.length < 32 := by
      clear hw
      induction subtype with
      | nil => rintro ⟨⟩
      | cons t ts ihts =>
        intro hw
        rw [subtypePieces] at hw
        rcases List.mem_append.mp hw with hw | hw
        · exact ih t List.mem_cons_self hw
        rcases List.mem_append.mp hw with hw | hw
        · split_ifs at hw
          · cases hw
          · rw [List.mem_singleton.mp hw]
            decide
        · exact ihts (fun u hu => ih u (List.mem_cons_of_mem t hu)) hw
    rw [pieces] at hw
    cases hwords : typeWords longForm info.dtype with
    | inl simple =>
      rw [hwords] at hw
      rw [List.mem_singleton.mp hw]
      exact (typeWords_inl hwords).2.1
    | inr words =>
      obtain ⟨-, hl, hr, -⟩ := typeWords_inr hwords
      rw [hwords] at hw
      rcases List.mem_cons.mp hw with rfl | hw
      · exact hl
      rcases List.mem_append.mp hw with hw | hw
      · exact hsubtypes hw
      · rwa [List.mem_singleton.mp hw]

/-- A piece is not printed behind the end of the buffer. -/
theorem printPiece_fits {w : CStr} {n q : Nat} {block : Block} {calls : List SnprintfCall}
    {out : Output} {pos : Int} (hn : n < 2 ^ 31) (hblock : block.length = n) (hq : q < n + 32)
    (h : printPiece false n w ⟨some block, calls⟩ (wrapInt q) = .ok (out, pos)) :
    q ≤ n ∧ pos = wrapInt (q + w.length : Nat) ∧
      ∃ block', out.str = some block' ∧ block'.length = n := by
  have hroom : wrapInt ((n : Int) - wrapInt q) = n - q := by
    unfold wrapInt
    rw [Int.sub_bmod_bmod]
    exact Int.bmod_eq_of_le (by omega) (by omega)
  have hpos : wrapInt (wrapInt q + w.length) = wrapInt (q + w.length : Nat) := by
    rw [wrapInt_wrapInt_add]
    push_cast
    rfl
  unfold printPiece Output.snprintf at h
  rw [if_neg Bool.false_ne_true] at h
  dsimp only at h
  rw [hroom, hpos] at h
  by_cases hend : q = n
  · rw [if_pos (by omega), ok_bind] at h
    obtain ⟨rfl, rfl⟩ := Prod.mk.inj (Except.ok.inj h)
    exact ⟨hend.le, rfl, block, rfl, hblock⟩
  rw [if_neg (by omega)] at h
  generalize (w.take ((((n : Int) - q) % 2 ^ 64).toNat - 1)).map some ++ [some nul] = bytes at h
  by_cases hout : wrapInt q < 0 ∨ block.length < (wrapInt q).toNat + bytes.length
  · rw [if_pos hout] at h
    cases h
  rw [if_neg hout, ok_bind] at h
  rw [not_or, not_lt, not_lt] at hout
  obtain ⟨rfl, rfl⟩ := Prod.mk.inj (Except.ok.inj h)
  refine ⟨?_, rfl, _, rfl, (Block.length_write hout.2).trans hblock⟩
  -- behind the end of the buffer the position is too large, or wrapped
  have hwrapped : wrapInt q = q ∨ wrapInt q < 0 := by
    unfold wrapInt Int.bmod
    dsimp only
    split_ifs <;> omega
  omega

/-- The pieces that are printed end not far behind the buffer. -/
theorem printPieces_fits {ws : List CStr} {n q : Nat} {block : Block} {calls : List SnprintfCall}
    {out : Output} {pos : Int} (hn : n < 2 ^ 31) (hshort : ∀ w ∈ ws, w.length < 32)
    (hblock : block.length = n) (hq : q < n + 32)
    (h : printPieces false n ws ⟨some block, calls⟩ (wrapInt q) = .ok (out, pos)) :
    q + ws.flatten.length < n + 32 := by
  induction ws generalizing q block calls with
  | nil => exact hq
  | cons w ws ih =>
    obtain ⟨⟨out₁, pos₁⟩, hfirst, hrest⟩ := bind_eq_ok.mp h
    obtain ⟨hle, hpos₁, block₁, hstr, hblock₁⟩ := printPiece_fits hn hblock hq hfirst
    rw [hpos₁] at hrest
    have hw := hshort w List.mem_cons_self
    obtain ⟨str₁, calls₁⟩ := out₁
    obtain rfl : str₁ = some block₁ := hstr
    have hlt := ih (fun v hv => hshort v (List.mem_cons_of_mem w hv)) hblock₁ (by omega) hrest
    rw [List.flatten_cons, List.length_append, ← Nat.add_assoc]
    exact hlt

/-- A longer text is not returned: it runs out of the buffer, or there is no buffer. -/
theorem length_of_passes {s : CStr} {p : Passes} (htext : typeText longForm t = .ok s)
    (h : passes t longForm = .ok p) : s.length + 1 < 2 ^ 31 := by
  obtain rfl := printed_of_text htext
  unfold passes at h
  rw [helper_size htext 0 _ rfl, ok_bind] at h
  dsimp only at h
  split_ifs at h with hlen
  rw [helper_pieces htext rfl] at h
  obtain ⟨⟨out, len2⟩, hsecond, -⟩ := bind_eq_ok.mp h
  obtain ⟨⟨out, pos⟩, hpieces, -⟩ := bind_eq_ok.mp hsecond
  set size := (printed longForm t).length with hprinted
  by_cases hmax : wrapInt size = 2 ^ 31 - 1
  · -- `len + 1` is negative, and there is no buffer for the first piece
    obtain ⟨w, ws, hcons⟩ := List.exists_cons_of_ne_nil (pieces_ne_nil htext)
    rw [hmax, hcons] at hpieces
    cases hpieces
  · have hrange : wrapInt size < 2 ^ 31 ∧ (wrapInt size = size ∨ wrapInt size + 2 ^ 32 ≤ size) := by
      unfold wrapInt Int.bmod at hlen ⊢
      dsimp only at hlen ⊢
      split_ifs at hlen ⊢ <;> omega
    obtain ⟨n, hn⟩ : ∃ n : Nat, wrapInt size + 1 = n := ⟨(wrapInt size + 1).toNat, by omega⟩
    have hbuffer : mallocInt n = some (malloc n) := by
      unfold mallocInt
      rw [if_neg (by omega), Int.toNat_natCast]
    rw [hn, wrapInt_of_lt (by omega) (by omega), hbuffer] at hpieces
    have hlt := printPieces_fits (q := 0) (by omega) (fun w hw => length_lt_of_mem_pieces hw)
      List.length_replicate (by omega) hpieces
    change 0 + (printed longForm t).length < n + 32 at hlt
    omega

/-- `adiak_type_to_string` returns a string exactly if the datatype has a text and there is an `int` for
the size of the buffer. -/
theorem adiakTypeToString_ok {s : CStr} :
    (adiakTypeToString t longForm >>= Block.readCstr) = .ok s ↔
      typeText longForm t = .ok s ∧ s.length + 1 < 2 ^ 31 := by
  constructor
  · intro h
    obtain ⟨buffer, hbuffer, hread⟩ := bind_eq_ok.mp h
    obtain ⟨p, hp, -⟩ := bind_eq_ok.mp hbuffer
    cases htext : typeText longForm t with
    | error e =>
      unfold passes at hp
      rw [helper_error 0 _ rfl htext] at hp
      cases hp
    | ok s' =>
      have hsize := length_of_passes htext hp
      obtain rfl := printed_of_text htext
      obtain ⟨p', buffer', -, hbuffer', hagree⟩ := printsWell_of_lt htext hsize
      obtain rfl := Except.ok.inj (hbuffer.symm.trans hbuffer')
      obtain rfl := Except.ok.inj (hread.symm.trans hagree.strlen)
      exact ⟨rfl, hsize⟩
  · rintro ⟨htext, hsize⟩
    obtain rfl := printed_of_text htext
    obtain ⟨p, buffer, -, hbuffer, hagree⟩ := printsWell_of_lt htext hsize
    rw [hbuffer, ok_bind, hagree.strlen]

end Both

end IntPrinter

end Adiak
