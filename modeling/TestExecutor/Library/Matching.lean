import Mathlib.Logic.Basic

/-!
# Matching results

Two computations that may fail, side by side: they fail alike, or both return, and what they return
is related.

* `Matches`, `Matches.bind` — the relation, and the rule for one computation behind another;
* `Matches.ok`, `Matches.exists_ok` — what one of them returns, the other does.
-/

namespace TestExecutor.Library

variable {E A A' B B' C : Type}

/-- Both fail with the same error, or both return related values. -/
inductive Matches (R : A → B → Prop) : Except E A → Except E B → Prop
  | error (e : E) : Matches R (.error e) (.error e)
  | ok {a : A} {b : B} : R a b → Matches R (.ok a) (.ok b)

variable {R : A → B → Prop} {R' : A' → B' → Prop} {x : Except E A} {y : Except E B}

/-- One computation behind another, with what the first one has returned. -/
theorem Matches.bind_ok {f : A → Except E A'} {g : B → Except E B'} (h : Matches R x y)
    (hnext : ∀ a b, x = .ok a → R a b → Matches R' (f a) (g b)) :
    Matches R' (x >>= f) (y >>= g) := by
  cases h with
  | error e => exact .error e
  | ok hab => exact hnext _ _ rfl hab

theorem Matches.bind {f : A → Except E A'} {g : B → Except E B'} (h : Matches R x y)
    (hnext : ∀ a b, R a b → Matches R' (f a) (g b)) : Matches R' (x >>= f) (y >>= g) :=
  h.bind_ok fun a b _ hab => hnext a b hab

/-- A last step on one side only. -/
theorem Matches.bind_left {f : A → A'} {Q : A' → B → Prop} (h : Matches R x y)
    (hnext : ∀ a b, R a b → Q (f a) b) : Matches Q (x >>= fun a => pure (f a)) y := by
  cases h with
  | error e => exact .error e
  | ok hab => exact .ok (hnext _ _ hab)

/-- A computation matches itself. -/
theorem Matches.refl (x : Except E A) : Matches Eq x x := by
  cases x with
  | error e => exact .error e
  | ok a => exact .ok rfl

/-- The same computation before both. -/
theorem Matches.bind_refl {z : Except E C} {f : C → Except E A} {g : C → Except E B}
    (hnext : ∀ c, z = .ok c → Matches R (f c) (g c)) : Matches R (z >>= f) (z >>= g) := by
  cases z with
  | error e => exact .error e
  | ok c => exact hnext c rfl

theorem Matches.exists_right (h : Matches R x y) {a : A} (ha : x = .ok a) :
    ∃ b, y = .ok b ∧ R a b := by
  cases h with
  | error e => cases ha
  | ok hab =>
      obtain rfl := Except.ok.inj ha
      exact ⟨_, rfl, hab⟩

theorem Matches.exists_left (h : Matches R x y) {b : B} (hb : y = .ok b) :
    ∃ a, x = .ok a ∧ R a b := by
  cases h with
  | error e => cases hb
  | ok hab =>
      obtain rfl := Except.ok.inj hb
      exact ⟨_, rfl, hab⟩

end TestExecutor.Library
