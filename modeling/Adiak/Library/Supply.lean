import Mathlib.Data.List.Perm.Basic

/-!
# Computations that take fresh names

A computation of `Supply ε α` may fail, and takes names from a supply: it is handed the number of
names taken before, and the names it takes are the next ones, also when it fails.

1. `Takes P x` relates every result of `x` to the names that `x` took for it.
2. `Gives P x` says besides that `x` has a result.
3. `Follows g x y`: with the names forgotten by `g`, the outcome of `x` is that of `y`.
4. All are proved along the binds of a computation (`Takes.bind`, `Gives.bind`, `Follows.bind`).
-/

/-- What a computation gives when `n` names have been taken, and how many have been after it. -/
def Supply (ε α : Type) : Type := Nat → Except ε α × Nat

namespace Supply

variable {ε α β α' β' : Type}

instance : Monad (Supply ε) where
  pure a := fun n => (.ok a, n)
  bind x f := fun n =>
    match x n with
    | (.ok a, n') => f a n'
    | (.error e, n') => (.error e, n')

theorem bind_apply (x : Supply ε α) (f : α → Supply ε β) (n : Nat) :
    (x >>= f) n = match x n with
      | (.ok a, n') => f a n'
      | (.error e, n') => (.error e, n') := rfl

/-- A computation that takes no names. -/
def lift (x : Except ε α) : Supply ε α := fun n => (x, n)

/-- The next name. -/
def fresh : Supply ε Nat := fun n => (.ok n, n + 1)

/-- A computation together with its failures. -/
def attempt (x : Supply ε α) : Supply ε (Except ε α) := fun n => (.ok (x n).1, (x n).2)

/-! ## Names -/

/-- `P` relates every result to the names that were taken for it. -/
def Takes (P : α → List Nat → Prop) (x : Supply ε α) : Prop :=
  ∀ n, ∃ k, (x n).2 = n + k ∧ ∀ a, (x n).1 = .ok a → P a (List.range' n k)

theorem takes_pure {P : α → List Nat → Prop} {a : α} (h : P a []) :
    Takes P (pure a : Supply ε α) := by
  intro n
  refine ⟨0, rfl, fun b hb => ?_⟩
  obtain rfl := Except.ok.inj hb
  exact h

theorem takes_lift {P : α → List Nat → Prop} {x : Except ε α} (h : ∀ a, x = .ok a → P a []) :
    Takes P (lift x) := fun _ => ⟨0, rfl, h⟩

/-- The names of a computation are those of its first step, then those of the rest. -/
theorem Takes.bind {P : α → List Nat → Prop} {Q : β → List Nat → Prop} {x : Supply ε α}
    {f : α → Supply ε β} (hx : Takes P x)
    (hf : ∀ a ns, P a ns → Takes (fun b ns' => Q b (ns ++ ns')) (f a)) : Takes Q (x >>= f) := by
  intro n
  obtain ⟨k, hk, hP⟩ := hx n
  have hrun : (x >>= f) n = match x n with
      | (.ok a, n') => f a n'
      | (.error e, n') => (.error e, n') := rfl
  rw [hrun]
  generalize x n = r at hk hP
  obtain ⟨r, n'⟩ := r
  obtain rfl : n' = n + k := hk
  cases r with
  | error e => exact ⟨k, rfl, fun b hb => by cases hb⟩
  | ok a =>
    obtain ⟨k', hk', hQ⟩ := hf a _ (hP a rfl) (n + k)
    refine ⟨k + k', by rw [hk', Nat.add_assoc], fun b hb => ?_⟩
    rw [← List.range'_append_1]
    exact hQ b hb

/-- A first step that takes no names. -/
theorem takes_lift_bind {Q : β → List Nat → Prop} {x : Except ε α} {f : α → Supply ε β}
    (hf : ∀ a, x = .ok a → Takes Q (f a)) : Takes Q (lift x >>= f) := by
  cases x with
  | error e => exact fun n => ⟨0, rfl, fun b hb => by cases hb⟩
  | ok a => exact hf a rfl

/-- A first step that takes a name. -/
theorem takes_fresh_bind {Q : β → List Nat → Prop} {f : Nat → Supply ε β}
    (hf : ∀ b, Takes (fun r ns => Q r (b :: ns)) (f b)) : Takes Q (fresh >>= f) := by
  intro n
  obtain ⟨k, hk, hQ⟩ := hf n (n + 1)
  refine ⟨k + 1, hk.trans (by omega), fun r hr => ?_⟩
  rw [List.range'_succ]
  exact hQ r hr

/-! ## Results -/

/-- There is a result, and `P` relates it to the names that were taken for it. -/
def Gives (P : α → List Nat → Prop) (x : Supply ε α) : Prop :=
  ∀ n, ∃ a k, x n = (.ok a, n + k) ∧ P a (List.range' n k)

theorem gives_pure {P : α → List Nat → Prop} {a : α} (h : P a []) :
    Gives P (pure a : Supply ε α) := fun _ => ⟨a, 0, rfl, h⟩

theorem Gives.mono {P Q : α → List Nat → Prop} {x : Supply ε α} (h : Gives P x)
    (himp : ∀ a ns, P a ns → Q a ns) : Gives Q x := by
  intro n
  obtain ⟨a, k, hx, hP⟩ := h n
  exact ⟨a, k, hx, himp a _ hP⟩

theorem Gives.bind {P : α → List Nat → Prop} {Q : β → List Nat → Prop} {x : Supply ε α}
    {f : α → Supply ε β} (hx : Gives P x)
    (hf : ∀ a ns, P a ns → Gives (fun b ns' => Q b (ns ++ ns')) (f a)) : Gives Q (x >>= f) := by
  intro n
  obtain ⟨a, k, hrun, hP⟩ := hx n
  obtain ⟨b, k', hrun', hQ⟩ := hf a _ hP (n + k)
  refine ⟨b, k + k', ?_, ?_⟩
  · rw [bind_apply, hrun]
    dsimp only
    rw [hrun', Nat.add_assoc]
  · rw [← List.range'_append_1]
    exact hQ

theorem gives_lift_bind {Q : β → List Nat → Prop} {x : Except ε α} {a : α} {f : α → Supply ε β}
    (hx : x = .ok a) (hf : Gives Q (f a)) : Gives Q (lift x >>= f) := by
  subst hx
  exact hf

theorem gives_fresh_bind {Q : β → List Nat → Prop} {f : Nat → Supply ε β}
    (hf : ∀ b, Gives (fun r ns => Q r (b :: ns)) (f b)) : Gives Q (fresh >>= f) := by
  intro n
  obtain ⟨r, k, hrun, hQ⟩ := hf n (n + 1)
  refine ⟨r, k + 1, hrun.trans ?_, ?_⟩
  · rw [Nat.add_right_comm, Nat.add_assoc]
  · rw [List.range'_succ]
    exact hQ

/-! ## Forgetting names -/

/-- `y` is the computation `x` with the names in its result forgotten by `g`. -/
def Follows (g : α → α') (x : Supply ε α) (y : Except ε α') : Prop := ∀ n, (x n).1.map g = y

theorem follows_pure (g : α → α') (a : α) : Follows g (pure a : Supply ε α) (.ok (g a)) :=
  fun _ => rfl

theorem follows_lift (x : Except ε α) : Follows id (lift x) x := by
  intro n
  cases x <;> rfl

theorem Follows.bind {g : α → α'} {g' : β → β'} {x : Supply ε α} {y : Except ε α'}
    {f : α → Supply ε β} {f' : α' → Except ε β'} (hx : Follows g x y)
    (hf : ∀ a, Follows g' (f a) (f' (g a))) : Follows g' (x >>= f) (y >>= f') := by
  intro n
  have hrun : (x >>= f) n = match x n with
      | (.ok a, n') => f a n'
      | (.error e, n') => (.error e, n') := rfl
  rw [hrun, ← hx n]
  obtain ⟨r, n'⟩ := x n
  cases r with
  | error e => rfl
  | ok a => exact hf a n'

/-- A first step that gives nothing but names. -/
theorem Follows.bind_left {g : β → β'} {x : Supply ε α} {f : α → Supply ε β} {y : Except ε β'}
    (hx : Follows (fun _ => ()) x (.ok ())) (hf : ∀ a, Follows g (f a) y) :
    Follows g (x >>= f) y := by
  have h : Follows g (x >>= f) (Except.ok () >>= fun _ => y) := hx.bind hf
  exact h

theorem Follows.ite {g : α → α'} {x x' : Supply ε α} {y y' : Except ε α'} (p : Prop) [Decidable p]
    (h : p → Follows g x y) (h' : ¬ p → Follows g x' y') :
    Follows g (if p then x else x') (if p then y else y') := by
  by_cases hp : p
  · rw [if_pos hp, if_pos hp]
    exact h hp
  · rw [if_neg hp, if_neg hp]
    exact h' hp

/-- A computation and its failures, by the outcome without names. -/
theorem Follows.bind_attempt {g : α → α'} {g' : β → β'} {x : Supply ε α} {y : Except ε α'}
    {f : Except ε α → Supply ε β} {z : Except ε β'} (hx : Follows g x y)
    (hf : ∀ r, r.map g = y → Follows g' (f r) z) : Follows g' (attempt x >>= f) z :=
  fun n => hf (x n).1 (hx n) (x n).2

/-- The same for the names that are taken. -/
theorem Takes.bind_attempt {P : α → List Nat → Prop} {Q : β → List Nat → Prop} {g : α → α'}
    {x : Supply ε α} {y : Except ε α'} {f : Except ε α → Supply ε β} (h : Takes P x)
    (hx : Follows g x y) (hf : ∀ r ns, r.map g = y → (∀ a, r = .ok a → P a ns) →
      Takes (fun b ns' => Q b (ns ++ ns')) (f r)) : Takes Q (attempt x >>= f) := by
  intro n
  obtain ⟨k, hk, hP⟩ := h n
  obtain ⟨k', hk', hQ⟩ := hf (x n).1 _ (hx n) hP (n + k)
  have hrun : (attempt x >>= f) n = f (x n).1 (n + k) := congrArg (f (x n).1) hk
  rw [hrun]
  refine ⟨k + k', by rw [hk', Nat.add_assoc], fun b hb => ?_⟩
  rw [← List.range'_append_1]
  exact hQ b hb

end Supply
