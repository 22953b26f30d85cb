import Adiak.Typestring.Parser

/-!
# The text of a datatype

What `adiak_type_to_string` of `adiak.c` prints.

1. `Block` is the block `malloc` returns: bytes that may not have been written yet.
2. `typeWords` is the `switch` of the helper, and `typeText` is the text of a datatype without the
   buffer. It fails at a `NULL` and is neither empty nor interrupted by a NUL (`length_typeText_pos`,
   `nul_notMem_typeText`).
-/

namespace Adiak

/-! ## Blocks of characters -/

/-- A block of the heap. `none` is a byte that has not been written. -/
abbrev Block := List (Option Char)

/-- `malloc`. -/
def malloc (n : Nat) : Block := List.replicate n none

/-- The C string at the start of a block. -/
def Block.readCstr : Block → Except Stop CStr
  | some c :: block =>
    if c = nul then .ok []
    else do
      let s ← readCstr block
      .ok (c :: s)
  | _ => .error .undefined

/-- The block with some bytes written over. -/
def Block.write (str : Block) (pos : Nat) (bytes : Block) : Block :=
  str.take pos ++ (bytes ++ str.drop (pos + bytes.length))

theorem Block.length_write {str : Block} {pos : Nat} {bytes : Block}
    (h : pos + bytes.length ≤ str.length) : (str.write pos bytes).length = str.length := by
  unfold Block.write
  simp only [List.length_append, List.length_take, List.length_drop]
  omega

/-! ## The text -/

/-- The `switch` of `adiak_type_string_helper`: a simple name, or the two brackets. -/
def typeWords (longForm : Bool) : AdiakType → CStr ⊕ (CStr × CStr)
  | .unset => .inl "unset".toList
  | .long => .inl (if longForm then "long".toList else "%ld".toList)
  | .ulong => .inl (if longForm then "unsigned long".toList else "%lu".toList)
  | .longlong => .inl (if longForm then "long long".toList else "%lld".toList)
  | .ulonglong => .inl (if longForm then "unsigned long long".toList else "%llu".toList)
  | .int => .inl (if longForm then "int".toList else "%d".toList)
  | .uint => .inl (if longForm then "unsigned int".toList else "%u".toList)
  | .double => .inl (if longForm then "double".toList else "%f".toList)
  | .date => .inl (if longForm then "date".toList else "%D".toList)
  | .timeval => .inl (if longForm then "timeval".toList else "%t".toList)
  | .version => .inl (if longForm then "version".toList else "%v".toList)
  | .string => .inl (if longForm then "string".toList else "%s".toList)
  | .catstring => .inl (if longForm then "catstring".toList else "%r".toList)
  | .jsonstring => .inl (if longForm then "jsonstring".toList else "%j".toList)
  | .path => .inl (if longForm then "path".toList else "%p".toList)
  | .range => .inr (if longForm then ("range of ".toList, ['>']) else (['<'], []))
  | .set => .inr (if longForm then ("set of ".toList, []) else (['['], [']']))
  | .list => .inr (if longForm then ("list of ".toList, []) else (['{'], ['}']))
  | .tuple => .inr (if longForm then ("tuple of (".toList, [')']) else (['('], [')']))

mutual

/-- The text that is printed for a datatype. -/
def typeText (longForm : Bool) : AdiakDatatype → Except Stop CStr
  | .null => .error .undefined
  | .node info subtype =>
    match typeWords longForm info.dtype with
    | .inl simple => .ok simple
    | .inr (lbracket, rbracket) => do
      let s ← typeTexts longForm subtype
      .ok (lbracket ++ (s ++ rbracket))

/-- The texts of the subtypes, separated by commas. -/
def typeTexts (longForm : Bool) : List AdiakDatatype → Except Stop CStr
  | [] => .ok []
  | t :: ts => do
    let s ← typeText longForm t
    let rest ← typeTexts longForm ts
    .ok (s ++ ((if ts.isEmpty then [] else ", ".toList) ++ rest))

end

/-- The text of a node: its name, or its brackets around the texts of the subtypes. -/
theorem typeText_node {longForm : Bool} {info : TypeNode} {subtype : List AdiakDatatype} {s : CStr}
    (h : typeText longForm (.node info subtype) = .ok s) :
    typeWords longForm info.dtype = .inl s ∨
      ∃ lbracket rbracket body, typeWords longForm info.dtype = .inr (lbracket, rbracket) ∧
        typeTexts longForm subtype = .ok body ∧ s = lbracket ++ (body ++ rbracket) := by
  rw [typeText] at h
  split at h
  · obtain rfl := Except.ok.inj h
    rename_i hwords
    exact .inl hwords
  · rename_i lbracket rbracket hwords
    obtain ⟨body, hbody, h⟩ := bind_eq_ok.mp h
    obtain rfl := Except.ok.inj h
    exact .inr ⟨lbracket, rbracket, body, hwords, hbody, rfl⟩

/-- The texts of the subtypes: the first one, a comma unless it is the last, and the others. -/
theorem typeTexts_cons {longForm : Bool} {t : AdiakDatatype} {ts : List AdiakDatatype} {s : CStr}
    (h : typeTexts longForm (t :: ts) = .ok s) :
    ∃ a rest, typeText longForm t = .ok a ∧ typeTexts longForm ts = .ok rest ∧
      s = a ++ ((if ts.isEmpty then [] else ", ".toList) ++ rest) := by
  rw [typeTexts] at h
  obtain ⟨a, ha, h⟩ := bind_eq_ok.mp h
  obtain ⟨rest, hrest, h⟩ := bind_eq_ok.mp h
  exact ⟨a, rest, ha, hrest, (Except.ok.inj h).symm⟩

theorem typeWords_inl {longForm : Bool} {d : AdiakType} {simple : CStr}
    (h : typeWords longForm d = .inl simple) :
    simple ≠ [] ∧ simple.length < 32 ∧ nul ∉ simple := by
  cases longForm <;> cases d <;> cases h <;> decide

theorem typeWords_inr {longForm : Bool} {d : AdiakType} {lbracket rbracket : CStr}
    (h : typeWords longForm d = .inr (lbracket, rbracket)) :
    lbracket ≠ [] ∧ lbracket.length < 32 ∧ rbracket.length < 32 ∧ nul ∉ lbracket ∧ nul ∉ rbracket := by
  cases longForm <;> cases d <;> cases h <;> decide

/-- No text contains a NUL. -/
theorem nul_notMem_typeText {longForm : Bool} {t : AdiakDatatype} {s : CStr}
    (h : typeText longForm t = .ok s) : nul ∉ s := by
  induction t generalizing s with
  | null => cases h
  | node info subtype ih =>
    have hbody : ∀ body, typeTexts longForm subtype = .ok body → nul ∉ body := by
      clear h
      induction subtype with
      | nil =>
        intro body h
        obtain rfl := Except.ok.inj h
        exact List.not_mem_nil
      | cons t ts ihts =>
        intro body h
        obtain ⟨a, rest, ha, hrest, rfl⟩ := typeTexts_cons h
        have hcomma : nul ∉ if ts.isEmpty then [] else ", ".toList := by split_ifs <;> decide
        simp only [List.mem_append, not_or]
        exact ⟨ih t List.mem_cons_self ha, hcomma,
          ihts (fun u hu => ih u (List.mem_cons_of_mem t hu)) rest hrest⟩
    obtain hwords | ⟨lbracket, rbracket, body, hwords, htexts, rfl⟩ := typeText_node h
    · exact (typeWords_inl hwords).2.2
    · obtain ⟨-, -, -, hl, hr⟩ := typeWords_inr hwords
      simp only [List.mem_append, not_or]
      exact ⟨hl, hbody body htexts, hr⟩

theorem length_typeText_pos {longForm : Bool} {t : AdiakDatatype} {s : CStr}
    (h : typeText longForm t = .ok s) : 0 < s.length := by
  cases t with
  | null => cases h
  | node info subtype =>
    obtain hwords | ⟨lbracket, rbracket, body, hwords, -, rfl⟩ := typeText_node h
    · exact List.length_pos_iff.mpr (typeWords_inl hwords).1
    · rw [List.length_append]
      exact Nat.add_pos_left (List.length_pos_iff.mpr (typeWords_inr hwords).1) _

theorem Block.readCstr_append {s : CStr} (h : nul ∉ s) (rest : Block) :
    Block.readCstr (s.map some ++ some nul :: rest) = .ok s := by
  induction s with
  | nil =>
    rw [List.map_nil, List.nil_append, Block.readCstr, if_pos rfl]
  | cons c s ih =>
    have hc : c ≠ nul := fun hc => h (hc ▸ List.mem_cons_self)
    rw [List.map_cons, List.cons_append, Block.readCstr, if_neg hc,
      ih fun hs => h (List.mem_cons_of_mem c hs)]
    rfl

end Adiak
