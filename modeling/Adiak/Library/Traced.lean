import Mathlib.Data.List.Basic

/-!
# Computations that log events

A computation that appends events to a log and fails or returns. What it has logged stays in the log
when it fails.

1. `Spec` is a specification: what is appended to a log, and what comes out.
2. `Spec.bind` is the rule for one step after the other.
3. `Follows`: without its log, a computation is a given one that only fails or returns.
4. `Along` is a specification of two computations that run side by side and log different events.
-/

/-- Computations with events in `ε` that may fail with an error in `err`. -/
def Traced (ε err α : Type) : Type := List ε → List ε × Except err α

namespace Traced

variable {ε err α β γ δ : Type}

instance : Monad (Traced ε err) where
  pure a := fun log => (log, .ok a)
  bind x f := fun log =>
    match (x log).2 with
    | .ok a => f a (x log).1
    | .error e => ((x log).1, .error e)

theorem bind_apply (x : Traced ε err α) (f : α → Traced ε err β) (log : List ε) :
    (x >>= f) log =
      match (x log).2 with
      | .ok a => f a (x log).1
      | .error e => ((x log).1, .error e) := rfl

/-- Logs an event. -/
def tell (e : ε) : Traced ε err Unit := fun log => (log ++ [e], .ok ())

/-- Fails or returns, without events. -/
def lift (x : Except err α) : Traced ε err α := fun log => (log, x)

/-- Fails. -/
def fail (e : err) : Traced ε err α := lift (.error e)

/-- `none` in place of the error `e`. -/
def attempt [DecidableEq err] (e : err) (x : Traced ε err α) : Traced ε err (Option α) := fun log =>
  match (x log).2 with
  | .ok a => ((x log).1, .ok (some a))
  | .error e' => if e' = e then ((x log).1, .ok none) else ((x log).1, .error e')

/-! ## Specifications -/

/-- Started with a log, `x` appends events that, with what comes out, satisfy `Q`. -/
def Spec (x : Traced ε err α) (log : List ε) (Q : List ε → Except err α → Prop) : Prop :=
  ∃ added, (x log).1 = log ++ added ∧ Q added (x log).2

section Spec

variable {x : Traced ε err α} {f : α → Traced ε err β} {log : List ε}
  {Q Q' : List ε → Except err α → Prop} {R : List ε → Except err β → Prop}

theorem Spec.mono (h : Spec x log Q) (hQ : ∀ added r, Q added r → Q' added r) : Spec x log Q' := by
  obtain ⟨added, hlog, hq⟩ := h
  exact ⟨added, hlog, hQ _ _ hq⟩

theorem spec_pure {a : α} (h : Q [] (.ok a)) : Spec (pure a) log Q :=
  ⟨[], (List.append_nil log).symm, h⟩

theorem spec_lift {y : Except err α} (h : Q [] y) : Spec (lift y) log Q :=
  ⟨[], (List.append_nil log).symm, h⟩

theorem spec_tell {e : ε} {Q : List ε → Except err Unit → Prop} (h : Q [e] (.ok ())) :
    Spec (tell e) log Q :=
  ⟨[e], rfl, h⟩

/-- One step after the other. -/
theorem Spec.bind (hx : Spec x log Q)
    (hok : ∀ added a, Q added (.ok a) →
      Spec (f a) (log ++ added) fun added' r => R (added ++ added') r)
    (herror : ∀ added e, Q added (.error e) → R added (.error e)) :
    Spec (x >>= f) log R := by
  obtain ⟨added, hlog, hq⟩ := hx
  unfold Spec
  rw [bind_apply, hlog]
  cases hr : (x log).2 with
  | error e => exact ⟨added, rfl, herror added e (hr ▸ hq)⟩
  | ok a =>
    obtain ⟨added', hlog', hr'⟩ := hok added a (hr ▸ hq)
    exact ⟨added ++ added', hlog'.trans (List.append_assoc _ _ _), hr'⟩

/-- One step after another that does not fail. -/
theorem Spec.bind_ok {P : List ε → α → Prop} (hx : Spec x log fun added r => ∃ a, r = .ok a ∧ P added a)
    (hok : ∀ added a, P added a → Spec (f a) (log ++ added) fun added' r => R (added ++ added') r) :
    Spec (x >>= f) log R := by
  apply hx.bind
  · rintro added a ⟨_, ha, hP⟩
    obtain rfl := Except.ok.inj ha
    exact hok added a hP
  · rintro added e ⟨_, he, -⟩
    cases he

theorem Spec.attempt [DecidableEq err] {e : err} {R : List ε → Except err (Option α) → Prop}
    (hx : Spec x log Q) (hok : ∀ added a, Q added (.ok a) → R added (.ok (some a)))
    (hnone : ∀ added, Q added (.error e) → R added (.ok none))
    (herror : ∀ added e', e' ≠ e → Q added (.error e') → R added (.error e')) :
    Spec (x.attempt e) log R := by
  obtain ⟨added, hlog, hq⟩ := hx
  refine ⟨added, ?_⟩
  unfold Traced.attempt
  cases hr : (x log).2 with
  | ok a => exact ⟨hlog, hok added a (hr ▸ hq)⟩
  | error e' =>
    rw [hr] at hq
    dsimp only
    split_ifs with he
    · exact ⟨hlog, hnone added (he ▸ hq)⟩
    · exact ⟨hlog, herror added e' he hq⟩

end Spec

/-! ## Without the log -/

/-- Whatever the log, `x` comes to what `y` comes to, up to `f`. -/
def Follows (f : α → β) (x : Traced ε err α) (y : Except err β) : Prop :=
  ∀ log, (x log).2.map f = y

section Follows

variable {f : α → β} {g : γ → δ} {x : Traced ε err α} {y : Except err β}

theorem follows_pure (f : α → β) (a : α) : Follows f (pure a : Traced ε err α) (.ok (f a)) :=
  fun _ => rfl

theorem follows_lift (y : Except err α) : Follows id (lift y : Traced ε err α) y := fun _ => by
  cases y <;> rfl

theorem follows_fail (f : α → β) (e : err) : Follows f (fail e : Traced ε err α) (.error e) :=
  fun _ => rfl

theorem Follows.bind {k : α → Traced ε err γ} {l : β → Except err δ} (hx : Follows f x y)
    (hk : ∀ a, Follows g (k a) (l (f a))) : Follows g (x >>= k) (y >>= l) := by
  intro log
  have h := hx log
  rw [bind_apply]
  cases hr : (x log).2 with
  | error e =>
    rw [hr] at h
    rw [← h]
    rfl
  | ok a =>
    rw [hr] at h
    rw [← h]
    exact hk a _

/-- A step in front that always returns. -/
theorem Follows.bind_left {k : α → Traced ε err γ} {z : Except err δ}
    (hx : ∀ log, ∃ log' a, x log = (log', .ok a)) (hk : ∀ a, Follows g (k a) z) :
    Follows g (x >>= k) z := by
  intro log
  obtain ⟨log', a, h⟩ := hx log
  rw [bind_apply, h]
  exact hk a log'

/-- A step that returns. -/
theorem Follows.bind_ok {b : β} {k : α → Traced ε err γ} {z : Except err δ}
    (hx : Follows f x (.ok b)) (hk : ∀ a, f a = b → Follows g (k a) z) : Follows g (x >>= k) z := by
  intro log
  have h := hx log
  rw [bind_apply]
  cases hr : (x log).2 with
  | error e =>
    rw [hr] at h
    cases h
  | ok a =>
    rw [hr] at h
    exact hk a (Except.ok.inj h) _

/-- A step that fails. -/
theorem Follows.bind_error {e : err} (hx : Follows f x (.error e)) (g : γ → δ)
    (k : α → Traced ε err γ) : Follows g (x >>= k) (.error e) := by
  intro log
  have h := hx log
  rw [bind_apply]
  cases hr : (x log).2 with
  | error e' =>
    rw [hr] at h
    obtain rfl := Except.error.inj h
    rfl
  | ok a =>
    rw [hr] at h
    cases h

/-- A step that may fail with `e` goes on either way. -/
theorem Follows.attempt_bind [DecidableEq err] {e : err} {k : Option α → Traced ε err γ}
    {l : β → Except err δ} (hx : Follows f x y) (hk : ∀ a, Follows g (k (some a)) (l (f a)))
    (hnone : Follows g (k none) (.error e)) : Follows g (x.attempt e >>= k) (y >>= l) := by
  intro log
  have h := hx log
  rw [bind_apply]
  unfold attempt
  cases hr : (x log).2 with
  | ok a =>
    rw [hr] at h
    rw [← h]
    exact hk a _
  | error e' =>
    rw [hr] at h
    rw [← h]
    dsimp only
    split_ifs with he
    · rw [he]
      exact hnone _
    · rfl

theorem Follows.eq_ok {log : List ε} {a : α} (h : Follows f x y) (hr : (x log).2 = .ok a) :
    y = .ok (f a) := by
  rw [← h log, hr]
  rfl

theorem Follows.eq_error {log : List ε} {e : err} (h : Follows f x y)
    (hr : (x log).2 = .error e) : y = .error e := by
  rw [← h log, hr]
  rfl

end Follows

/-! ## Side by side -/

variable {ε' : Type}

/-- `x`, started with `log`, comes to what `y` comes to, up to `f`. What both append, with what comes
out of `x`, satisfies `Q`. -/
def Along (f : α → β) (x : Traced ε err α) (log : List ε) (y : Traced ε' err β)
    (Q : List ε → List ε' → Except err α → Prop) : Prop :=
  ∃ added added', (x log).1 = log ++ added ∧
    (∀ log', y log' = (log' ++ added', (x log).2.map f)) ∧ Q added added' (x log).2

section Along

variable {f : α → β} {g : γ → δ} {x : Traced ε err α} {log : List ε} {y : Traced ε' err β}
  {k : α → Traced ε err γ} {l : β → Traced ε' err δ} {Q Q' : List ε → List ε' → Except err α → Prop}
  {R : List ε → List ε' → Except err γ → Prop}

theorem Along.mono (h : Along f x log y Q) (hQ : ∀ added added' r, Q added added' r → Q' added added' r) :
    Along f x log y Q' := by
  obtain ⟨added, added', hlog, hy, hq⟩ := h
  exact ⟨added, added', hlog, hy, hQ _ _ _ hq⟩

/-- What the second logs, and a specification of the first. -/
theorem Along.spec (h : Along f x log y Q) :
    ∃ added', (∀ log', (y log').1 = log' ++ added') ∧ x.Spec log fun added r => Q added added' r := by
  obtain ⟨added, added', hlog, hy, hq⟩ := h
  exact ⟨added', fun log' => by rw [hy], added, hlog, hq⟩

/-- What comes out is known to be what `x` comes to. -/
theorem Along.result (h : Along f x log y Q) :
    Along f x log y fun added added' r => (x log).2 = r ∧ Q added added' r := by
  obtain ⟨added, added', hlog, hy, hq⟩ := h
  exact ⟨added, added', hlog, hy, rfl, hq⟩

theorem along_pure {a : α} (h : Q [] [] (.ok a)) : Along f (pure a) log (pure (f a)) Q :=
  ⟨[], [], (List.append_nil log).symm, fun log' => by rw [List.append_nil]; rfl, h⟩

theorem along_fail {e : err} (h : Q [] [] (.error e)) : Along f (fail e) log (fail e) Q :=
  ⟨[], [], (List.append_nil log).symm, fun log' => by rw [List.append_nil]; rfl, h⟩

/-- A step whose events leave the other log alone. -/
theorem Spec.along {Q : List ε → Except err α → Prop} {z : Except err β} (hx : x.Spec log Q)
    (hfollows : Follows f x z) : Along f x log (lift z : Traced ε' err β) fun added added' r =>
      added' = [] ∧ Q added r := by
  obtain ⟨added, hlog, hq⟩ := hx
  refine ⟨added, [], hlog, fun log' => ?_, rfl, hq⟩
  rw [List.append_nil, hfollows log]
  rfl

theorem along_lift {z : Except err α} (h : Q [] [] z) :
    Along id (lift z : Traced ε err α) log (lift z : Traced ε' err α) Q := by
  refine ((spec_lift (Q := fun added r => added = [] ∧ r = z) ⟨rfl, rfl⟩).along
    (follows_lift z)).mono fun added added' r hr => ?_
  obtain ⟨rfl, rfl, rfl⟩ := hr
  exact h

/-- One step of both after the other. -/
theorem Along.bind (hx : Along f x log y Q)
    (hok : ∀ added added' a, Q added added' (.ok a) →
      Along g (k a) (log ++ added) (l (f a)) fun b b' r => R (added ++ b) (added' ++ b') r)
    (herror : ∀ added added' e, Q added added' (.error e) → R added added' (.error e)) :
    Along g (x >>= k) log (y >>= l) R := by
  obtain ⟨added, added', hlog, hy, hq⟩ := hx
  unfold Along
  rw [bind_apply, hlog]
  cases hr : (x log).2 with
  | error e =>
    refine ⟨added, added', rfl, fun log' => ?_, herror _ _ e (hr ▸ hq)⟩
    rw [bind_apply, hy, hr]
    rfl
  | ok a =>
    obtain ⟨b, b', hlog', hk, hr'⟩ := hok added added' a (hr ▸ hq)
    refine ⟨added ++ b, added' ++ b', hlog'.trans (List.append_assoc _ _ _), fun log' => ?_, hr'⟩
    rw [bind_apply, hy, hr, ← List.append_assoc, ← hk]
    rfl

/-- A step of the first alone, which returns. -/
theorem Along.bind_left {z : Traced ε' err δ} {a : α} {added : List ε}
    (hx : x log = (log ++ added, .ok a))
    (hk : Along g (k a) (log ++ added) z fun b b' r => R (added ++ b) b' r) :
    Along g (x >>= k) log z R := by
  obtain ⟨b, b', hlog, hz, hr⟩ := hk
  unfold Along
  rw [bind_apply, hx]
  exact ⟨added ++ b, b', hlog.trans (List.append_assoc _ _ _), hz, hr⟩

/-- A step of the second alone, which returns. -/
theorem Along.bind_right {b : β} {added' : List ε'} (hy : ∀ log', y log' = (log' ++ added', .ok b))
    {z : Traced ε err γ} (hl : Along g z log (l b) fun a a' r => R a (added' ++ a') r) :
    Along g z log (y >>= l) R := by
  obtain ⟨a, a', hlog, hz, hr⟩ := hl
  refine ⟨a, added' ++ a', hlog, fun log' => ?_, hr⟩
  rw [bind_apply, hy, ← List.append_assoc, ← hz]

/-- A step of both fails, and only the first has logged. -/
theorem along_error {e : err} {added : List ε} (hx : x log = (log ++ added, .error e))
    (h : R added [] (.error e)) : Along g (x >>= k) log (lift (.error e) >>= l) R := by
  unfold Along
  rw [bind_apply, hx]
  exact ⟨added, [], rfl, fun log' => by rw [List.append_nil]; rfl, h⟩

/-- A step that may fail with `e`, which the first then does too, and not at once. -/
theorem Along.attempt_bind [DecidableEq err] {e : err} {k : Option α → Traced ε err γ}
    (hx : Along f x log y Q)
    (hok : ∀ added added' a, Q added added' (.ok a) →
      Along g (k (some a)) (log ++ added) (l (f a)) fun b b' r => R (added ++ b) (added' ++ b') r)
    (hnone : ∀ added added', Q added added' (.error e) →
      (k none).Spec (log ++ added) fun b r => r = .error e ∧ R (added ++ b) added' r)
    (herror : ∀ added added' e', e' ≠ e → Q added added' (.error e') → R added added' (.error e')) :
    Along g (x.attempt e >>= k) log (y >>= l) R := by
  obtain ⟨added, added', hlog, hy, hq⟩ := hx
  unfold Along
  rw [bind_apply]
  unfold attempt
  cases hr : (x log).2 with
  | ok a =>
    obtain ⟨b, b', hlog', hk, hr'⟩ := hok added added' a (hr ▸ hq)
    dsimp only
    rw [hlog]
    refine ⟨added ++ b, added' ++ b', hlog'.trans (List.append_assoc _ _ _), fun log' => ?_, hr'⟩
    rw [bind_apply, hy, hr, ← List.append_assoc, ← hk]
    rfl
  | error e' =>
    rw [hr] at hq
    have hfail : ∀ log', (y >>= l) log' = (log' ++ added', .error e') := fun log' => by
      rw [bind_apply, hy, hr]
      rfl
    dsimp only
    split_ifs with he
    · rw [he] at hq hfail
      obtain ⟨b, hlog', hb, hr'⟩ := hnone _ _ hq
      dsimp only
      rw [hlog]
      exact ⟨added ++ b, added', hlog'.trans (List.append_assoc _ _ _), fun log' => by
        rw [hfail, hb]; rfl, hr'⟩
    · exact ⟨added, added', hlog, hfail, herror _ _ e' he hq⟩

end Along

end Traced
