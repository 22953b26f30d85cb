import Mathlib.Tactic.Linarith

/-!
# Nested words and depth counters

Words over an alphabet with opening and closing letters, as a one-counter scanner sees them.

1. `height` is the number of opening letters minus the number of closing ones.
2. `Above d w`: started at depth `d`, the counter stays positive along all of `w`.
3. `Nested`: the words whose letters pair up, each pair of the relation `Mates`.
4. `scan` returns the first position where the counter is zero behind a letter it is looking for.
   It runs over a word that keeps it positive (`scan_append`), so it finds the mate of an
   opening letter (`scan_wrap`).
-/

namespace Nesting

variable {α : Type*} (opener closer : α → Bool)

/-- The change of the counter at a letter. -/
def step (a : α) : Int := (if opener a then 1 else 0) - (if closer a then 1 else 0)

variable {opener closer} in
/-- A letter of neither kind leaves the counter alone. -/
theorem step_eq_zero {a : α} (ho : opener a = false) (hc : closer a = false) :
    step opener closer a = 0 := by
  rw [step, ho, hc]; rfl

/-- Opening minus closing letters. -/
def height (w : List α) : Int := (w.map (step opener closer)).sum

@[simp] theorem height_nil : height opener closer [] = 0 := rfl

@[simp] theorem height_cons (a : α) (w : List α) :
    height opener closer (a :: w) = step opener closer a + height opener closer w := by
  simp [height]

@[simp] theorem height_append (v w : List α) :
    height opener closer (v ++ w) = height opener closer v + height opener closer w := by
  simp [height]

theorem height_eq_count (w : List α) :
    height opener closer w = w.countP opener - w.countP closer := by
  induction w with
  | nil => rfl
  | cons a w ih =>
    rw [height_cons, ih, List.countP_cons, List.countP_cons, step]
    split_ifs <;> push_cast <;> omega

/-- A word without letters of either kind has height zero. -/
theorem height_eq_zero {w : List α} (h : ∀ a ∈ w, step opener closer a = 0) :
    height opener closer w = 0 := by
  induction w with
  | nil => rfl
  | cons a w ih =>
    rw [height_cons, h a List.mem_cons_self, ih fun b hb => h b (List.mem_cons_of_mem a hb)]
    rfl

/-- The counter, started at `d`, is positive behind every letter of the word. -/
def Above : Int → List α → Prop
  | _, [] => True
  | d, a :: w => 0 < d + step opener closer a ∧ Above (d + step opener closer a) w

variable {opener closer}

theorem Above.append {d : Int} {v w : List α} (hv : Above opener closer d v)
    (hw : Above opener closer (d + height opener closer v) w) :
    Above opener closer d (v ++ w) := by
  induction v generalizing d with
  | nil => simpa using hw
  | cons a v ih =>
    refine ⟨hv.1, ih hv.2 ?_⟩
    rwa [height_cons, ← add_assoc] at hw

/-- Letters of neither kind leave a positive counter positive. -/
theorem Above.of_step_eq_zero {d : Int} (hd : 0 < d) {w : List α}
    (h : ∀ a ∈ w, step opener closer a = 0) : Above opener closer d w := by
  induction w with
  | nil => trivial
  | cons a w ih =>
    have ha := h a List.mem_cons_self
    refine ⟨by omega, ?_⟩
    rw [ha, add_zero]
    exact ih fun b hb => h b (List.mem_cons_of_mem a hb)

/-! ## Nested words -/

/-- Words in which every opening letter has its mate. -/
inductive Nested (opener closer : α → Bool) (Mates : α → α → Prop) : List α → Prop
  | nil : Nested opener closer Mates []
  | letter {a : α} {w : List α} : opener a = false → closer a = false →
      Nested opener closer Mates w → Nested opener closer Mates (a :: w)
  | wrap {o c : α} {v w : List α} : step opener closer o = 1 → step opener closer c = -1 →
      Mates o c → Nested opener closer Mates v → Nested opener closer Mates w →
      Nested opener closer Mates (o :: (v ++ c :: w))

namespace Nested

variable {Mates : α → α → Prop} {v w : List α}

theorem height_eq (h : Nested opener closer Mates w) : height opener closer w = 0 := by
  induction h with
  | nil => rfl
  | letter ho hc _ ih => rw [height_cons, ih, step_eq_zero ho hc]; rfl
  | wrap ho hc _ _ _ ihv ihw =>
    rw [height_cons, height_append, height_cons, ihv, ihw, ho, hc]; rfl

/-- Started at a positive depth, the counter never returns to zero inside a nested word. -/
theorem above (h : Nested opener closer Mates w) {d : Int} (hd : 0 < d) :
    Above opener closer d w := by
  induction h generalizing d with
  | nil => trivial
  | letter ho hc _ ih =>
    have hs := step_eq_zero ho hc
    exact ⟨by omega, ih (by omega)⟩
  | wrap ho hc _ hv _ ihv ihw =>
    refine ⟨by omega, (ihv (by omega)).append ⟨?_, ihw ?_⟩⟩ <;>
      rw [hv.height_eq] <;> omega

theorem append (hv : Nested opener closer Mates v) (hw : Nested opener closer Mates w) :
    Nested opener closer Mates (v ++ w) := by
  induction hv with
  | nil => exact hw
  | letter ho hc _ ih => exact .letter ho hc ih
  | wrap ho hc hm hv _ _ ihw =>
    rw [List.cons_append, List.append_assoc, List.cons_append]
    exact .wrap ho hc hm hv ihw

theorem of_letters (h : ∀ a ∈ w, opener a = false ∧ closer a = false) :
    Nested opener closer Mates w := by
  induction w with
  | nil => exact .nil
  | cons a w ih =>
    have ha := h a List.mem_cons_self
    exact .letter ha.1 ha.2 (ih fun b hb => h b (List.mem_cons_of_mem a hb))

theorem flatten {ws : List (List α)} (h : ∀ w ∈ ws, Nested opener closer Mates w) :
    Nested opener closer Mates ws.flatten := by
  induction ws with
  | nil => exact .nil
  | cons w ws ih =>
    exact (h w List.mem_cons_self).append (ih fun x hx => h x (List.mem_cons_of_mem w hx))

end Nested

/-! ## The scanner -/

/-- The position, counted from `i`, of the first letter that satisfies `stop` and leaves the
counter, started at `d`, at zero. -/
def scan (opener closer stop : α → Bool) : List α → Nat → Int → Option Nat
  | [], _, _ => none
  | a :: w, i, d =>
    if d + step opener closer a = 0 ∧ stop a then some i
    else scan opener closer stop w (i + 1) (d + step opener closer a)

variable {stop : α → Bool}

/-- The scanner runs through a word that keeps the counter positive. -/
theorem scan_append {v w : List α} {i : Nat} {d : Int} (h : Above opener closer d v) :
    scan opener closer stop (v ++ w) i d =
      scan opener closer stop w (i + v.length) (d + height opener closer v) := by
  induction v generalizing i d with
  | nil => simp
  | cons a v ih =>
    rw [List.cons_append, scan, if_neg (by have := h.1; omega), ih h.2, List.length_cons,
      height_cons, Nat.add_assoc, Nat.add_comm 1, add_assoc]

/-- The scanner finds nothing in a word that keeps the counter positive. -/
theorem scan_eq_none {v : List α} {i : Nat} {d : Int} (h : Above opener closer d v) :
    scan opener closer stop v i d = none := by
  have := @scan_append _ _ _ stop v [] i d h
  rwa [List.append_nil] at this

/-- Started on an opening letter, the scanner finds its mate, whatever follows. -/
theorem scan_wrap {Mates : α → α → Prop} {o c : α} {v w : List α} {i : Nat}
    (ho : step opener closer o = 1) (hc : step opener closer c = -1) (hs : stop c = true)
    (hv : Nested opener closer Mates v) :
    scan opener closer stop (o :: (v ++ c :: w)) i 0 = some (i + 1 + v.length) := by
  rw [scan, if_neg (by omega), ho, scan_append (hv.above (by omega)), hv.height_eq, scan, hc,
    if_pos ⟨by omega, hs⟩]

/-- No letter that satisfies `stop` leaves the counter, started at `d`, at zero. -/
def Misses (opener closer stop : α → Bool) : Int → List α → Prop
  | _, [] => True
  | d, a :: w => ¬(d + step opener closer a = 0 ∧ stop a) ∧
      Misses opener closer stop (d + step opener closer a) w

/-- What the scanner returns is the first position it is looking for. -/
theorem scan_eq_some {w : List α} {i j : Nat} {d : Int}
    (h : scan opener closer stop w i d = some j) :
    ∃ v a u, w = v ++ a :: u ∧ j = i + v.length ∧ stop a = true ∧
      d + height opener closer (v ++ [a]) = 0 ∧ Misses opener closer stop d v := by
  induction w generalizing i d with
  | nil => cases h
  | cons a w ih =>
    rw [scan] at h
    split_ifs at h with hstop
    · obtain rfl := Option.some.inj h
      exact ⟨[], a, w, rfl, rfl, hstop.2, by simpa using hstop.1, trivial⟩
    · obtain ⟨v, b, u, rfl, rfl, hb, hheight, hmisses⟩ := ih h
      refine ⟨a :: v, b, u, rfl, ?_, hb, ?_, hstop, hmisses⟩
      · rw [List.length_cons]
        omega
      · rw [List.cons_append, height_cons, ← add_assoc]
        exact hheight

end Nesting
