import Adiak.TypeTree
import Adiak.Library.Nesting
import Adiak.Typestring.Parser

/-!
# The grammar of typestrings

Type expressions of the documented grammar, the text they are written as, and the tree they
denote.

1. `Spec` lists the specifiers of `adiak_type_t` and their size suffixes.
2. `TypeExpr` is a type expression with the lengths its lists and sets are given. Every node may
   carry separators in front of it and a `&`.
3. `TypeExpr.text` writes it, `TypeExpr.tree` is what it denotes: below a `&` every container and
   every string is a reference.
4. The text is a nested word (`nested_text`), which is what `find_end_brace` rests on.
-/

namespace Adiak

/-- The scalar and string specifiers. -/
inductive Spec where
  | d
  | i
  | u
  | ld
  | lu
  | lld
  | llu
  | f
  | date
  | timeval
  | version
  | string
  | catstring
  | jsonstring
  | path
  | i8
  | i16
  | i32
  | i64
  | u8
  | u16
  | u32
  | u64
  | f32
  | f64
  deriving DecidableEq

/-- The text of a specifier behind its `%`. -/
def Spec.text : Spec → List Char
  | .d => ['d']
  | .i => ['i']
  | .u => ['u']
  | .ld => ['l', 'd']
  | .lu => ['l', 'u']
  | .lld => ['l', 'l', 'd']
  | .llu => ['l', 'l', 'u']
  | .f => ['f']
  | .date => ['D']
  | .timeval => ['t']
  | .version => ['v']
  | .string => ['s']
  | .catstring => ['r']
  | .jsonstring => ['j']
  | .path => ['p']
  | .i8 => ['i', '8']
  | .i16 => ['i', '1', '6']
  | .i32 => ['i', '3', '2']
  | .i64 => ['i', '6', '4']
  | .u8 => ['u', '8']
  | .u16 => ['u', '1', '6']
  | .u32 => ['u', '3', '2']
  | .u64 => ['u', '6', '4']
  | .f32 => ['f', '3', '2']
  | .f64 => ['f', '6', '4']

/-- The type a specifier stands for. -/
def Spec.tree : Spec → Bool → TypeTree
  | .d, _ | .i, _ | .i32, _ => .scalar .int
  | .u, _ | .u32, _ => .scalar .uint
  | .ld, _ => .scalar .long
  | .lu, _ => .scalar .ulong
  | .lld, _ | .i64, _ => .scalar .longlong
  | .llu, _ | .u64, _ => .scalar .ulonglong
  | .f, _ | .f64, _ => .scalar .double
  | .f32, _ => .scalar .float
  | .i8, _ => .scalar .i8
  | .i16, _ => .scalar .i16
  | .u8, _ => .scalar .u8
  | .u16, _ => .scalar .u16
  | .date, _ => .scalar .date
  | .timeval, _ => .scalar .timeval
  | .version, ref => .str .version ref
  | .string, ref => .str .string ref
  | .catstring, ref => .str .catstring ref
  | .jsonstring, ref => .str .jsonstring ref
  | .path, ref => .str .path ref

/-- Separators: spaces and commas. -/
structure Sep where
  chars : List Char
  isSep : ∀ c ∈ chars, isSeparator c = true

/-- No separators. -/
def Sep.none : Sep := ⟨[], by simp⟩

/-- A comma. -/
def Sep.comma : Sep := ⟨[','], by simp [isSeparator]⟩

/-- A comma and a space. -/
def Sep.commaSpace : Sep := ⟨[',', ' '], by simp [isSeparator, isSpace]⟩

/-- A type expression. `amp` says whether it is prefixed by `&`. -/
inductive TypeExpr where
  | spec (sep : Sep) (amp : Bool) (s : Spec)
  | coll (sep : Sep) (amp : Bool) (k : CollKind) (n : Int) (elem : TypeExpr)
  | range (sep : Sep) (amp : Bool) (elem : TypeExpr)
  | tuple (sep : Sep) (amp : Bool) (comps : List TypeExpr)

def CollKind.openBrace : CollKind → Char
  | .list => '{'
  | .set => '['

def CollKind.closeBrace : CollKind → Char
  | .list => '}'
  | .set => ']'

/-- The matching kinds of braces. -/
def Mates (o c : Char) : Prop :=
  (o = '{' ∧ c = '}') ∨ (o = '[' ∧ c = ']') ∨ (o = '<' ∧ c = '>') ∨ (o = '(' ∧ c = ')')

namespace TypeExpr

@[elab_as_elim, induction_eliminator]
theorem induction {P : TypeExpr → Prop} (spec : ∀ sep amp s, P (.spec sep amp s))
    (coll : ∀ sep amp k n elem, P elem → P (.coll sep amp k n elem))
    (range : ∀ sep amp elem, P elem → P (.range sep amp elem))
    (tuple : ∀ sep amp comps, (∀ e ∈ comps, P e) → P (.tuple sep amp comps)) : ∀ e, P e :=
  @TypeExpr.rec P (fun l => ∀ e ∈ l, P e) spec coll range tuple
    (fun _ h => absurd h (List.not_mem_nil)) (fun _ _ hs hl => List.forall_mem_cons.mpr ⟨hs, hl⟩)

/-- Separators and `&` in front of an expression. -/
def front (sep : Sep) (amp : Bool) : List Char := sep.chars ++ if amp then ['&'] else []

mutual

/-- The typestring of an expression. -/
def text : TypeExpr → List Char
  | .spec sep amp s => front sep amp ++ '%' :: s.text
  | .coll sep amp k _ elem => front sep amp ++ k.openBrace :: (text elem ++ [k.closeBrace])
  | .range sep amp elem => front sep amp ++ '<' :: (text elem ++ ['>'])
  | .tuple sep amp comps => front sep amp ++ '(' :: (texts comps ++ [')'])

def texts : List TypeExpr → List Char
  | [] => []
  | e :: es => text e ++ texts es

end

mutual

/-- The tree an expression denotes inside a reference (`ref`) or outside. -/
def tree : TypeExpr → Bool → TypeTree
  | .spec _ amp s, ref => s.tree (ref || amp)
  | .coll _ amp k n elem, ref => .coll k (ref || amp) n (tree elem (ref || amp))
  | .range _ amp elem, ref => .range (ref || amp) (tree elem (ref || amp))
  | .tuple _ amp comps, ref => .tuple (ref || amp) (trees comps (ref || amp))

def trees : List TypeExpr → Bool → List TypeTree
  | [], _ => []
  | e :: es, ref => tree e ref :: trees es ref

end

theorem trees_eq_map (es : List TypeExpr) (ref : Bool) : trees es ref = es.map (tree · ref) := by
  induction es with
  | nil => rfl
  | cons e es ih => rw [trees, ih, List.map_cons]

theorem texts_eq_flatten (es : List TypeExpr) : texts es = (es.map text).flatten := by
  induction es with
  | nil => rfl
  | cons e es ih => rw [texts, ih, List.map_cons, List.flatten_cons]

mutual

/-- The depth of nesting. -/
def depth : TypeExpr → Nat
  | .spec _ _ _ => 0
  | .coll _ _ _ _ elem => depth elem + 1
  | .range _ _ elem => depth elem + 1
  | .tuple _ _ comps => depths comps + 1

def depths : List TypeExpr → Nat
  | [] => 0
  | e :: es => max (depth e) (depths es)

end

/-! ## Characters of the text -/

theorem isSeparator_ne {c d : Char} (hc : isSeparator c = true) (hd : isSeparator d = false) :
    c ≠ d := by
  rintro rfl
  rw [hc] at hd
  cases hd

theorem letters_sep (sep : Sep) {c : Char} (hc : c ∈ sep.chars) :
    isOpenBrace c = false ∧ isCloseBrace c = false := by
  have h : ∀ d, isSeparator d = false → c ≠ d := fun d => isSeparator_ne (sep.isSep c hc)
  constructor
  · simp [isOpenBrace, h '[' rfl, h '{' rfl, h '(' rfl, h '<' rfl]
  · simp [isCloseBrace, h ']' rfl, h '}' rfl, h ')' rfl, h '>' rfl]

theorem letters_front (sep : Sep) (amp : Bool) {c : Char} (hc : c ∈ front sep amp) :
    isOpenBrace c = false ∧ isCloseBrace c = false := by
  rcases List.mem_append.mp hc with hc | hc
  · exact letters_sep sep hc
  · cases amp
    · cases hc
    · rw [List.mem_singleton.mp hc]; decide

theorem letters_spec (s : Spec) : ∀ c ∈ '%' :: s.text,
    isOpenBrace c = false ∧ isCloseBrace c = false := by
  cases s <;> simp [Spec.text, isOpenBrace, isCloseBrace]

theorem nested_front (sep : Sep) (amp : Bool) :
    Nesting.Nested isOpenBrace isCloseBrace Mates (front sep amp) :=
  .of_letters fun _ hc => letters_front sep amp hc

/-- The text of an expression is a nested word. -/
theorem nested_text (e : TypeExpr) : Nesting.Nested isOpenBrace isCloseBrace Mates e.text := by
  induction e with
  | spec sep amp s => exact (nested_front sep amp).append (.of_letters (letters_spec s))
  | coll sep amp k n elem ih =>
    refine (nested_front sep amp).append (.wrap ?_ ?_ ?_ ih .nil) <;> cases k
    all_goals first | rfl | simp [Mates, CollKind.openBrace, CollKind.closeBrace]
  | range sep amp elem ih =>
    exact (nested_front sep amp).append (.wrap rfl rfl (by simp [Mates]) ih .nil)
  | tuple sep amp comps ih =>
    refine (nested_front sep amp).append (.wrap rfl rfl (by simp [Mates]) ?_ .nil)
    rw [texts_eq_flatten]
    refine .flatten fun w hw => ?_
    obtain ⟨e, he, rfl⟩ := List.mem_map.mp hw
    exact ih e he

theorem nested_texts (es : List TypeExpr) :
    Nesting.Nested isOpenBrace isCloseBrace Mates (texts es) := by
  rw [texts_eq_flatten]
  refine .flatten fun w hw => ?_
  obtain ⟨e, _, rfl⟩ := List.mem_map.mp hw
  exact nested_text e

/-- No NUL inside a typestring. -/
theorem nul_notMem_text (e : TypeExpr) : nul ∉ e.text := by
  have hfront : ∀ sep amp, nul ∉ front sep amp := by
    intro sep amp h
    rcases List.mem_append.mp h with h | h
    · exact absurd rfl (isSeparator_ne (sep.isSep nul h) (by decide))
    · cases amp
      · cases h
      · exact absurd h (by decide)
  induction e with
  | spec sep amp s =>
    simp only [text, List.mem_append, not_or]
    exact ⟨hfront sep amp, by cases s <;> decide⟩
  | coll sep amp k n elem ih =>
    simp only [text, List.mem_append, List.mem_cons, List.not_mem_nil, or_false, not_or]
    exact ⟨hfront sep amp, by cases k <;> decide, ih, by cases k <;> decide⟩
  | range sep amp elem ih =>
    simp only [text, List.mem_append, List.mem_cons, List.not_mem_nil, or_false, not_or]
    exact ⟨hfront sep amp, by decide, ih, by decide⟩
  | tuple sep amp comps ih =>
    simp only [text, texts_eq_flatten, List.mem_append, List.mem_cons, List.not_mem_nil, or_false,
      not_or, List.mem_flatten, List.mem_map]
    refine ⟨hfront sep amp, by decide, ?_, by decide⟩
    rintro ⟨_, ⟨e, he, rfl⟩, h⟩
    exact ih e he h

end TypeExpr

end Adiak
