import Mathlib.Data.List.Basic

/-!
# How a computation with errors ends

A postcondition for the result of an `Except` computation, and one for its error.

* `Ends` — both together;
* `Ends.bind`, `Ends.mapM`, `Ends.ite` — how they compose;
* `Ends.of_ok`, `Ends.of_error` — reading them off.
-/

namespace TestExecutor.Library

variable {ε α β : Type}

/-- A result satisfies `P`, an error satisfies `E`. -/
def Ends (P : α → Prop) (E : ε → Prop) : Except ε α → Prop
  | .ok a => P a
  | .error e => E e

variable {P : α → Prop} {Q : β → Prop} {E : ε → Prop} {x : Except ε α}

theorem Ends.of_ok {a : α} (h : Ends P E x) (hx : x = .ok a) : P a := by
  subst hx
  exact h

theorem Ends.of_error {e : ε} (h : Ends P E x) (hx : x = .error e) : E e := by
  subst hx
  exact h

theorem Ends.mono {P' : α → Prop} {E' : ε → Prop} (h : Ends P E x) (hP : ∀ a, P a → P' a)
    (hE : ∀ e, E e → E' e) : Ends P' E' x := by
  cases x with
  | ok a => exact hP a h
  | error e => exact hE e h

theorem Ends.bind {f : α → Except ε β} (h : Ends P E x) (hf : ∀ a, P a → Ends Q E (f a)) :
    Ends Q E (x >>= f) := by
  cases x with
  | ok a => exact hf a h
  | error e => exact h

theorem Ends.ite {c : Prop} [Decidable c] {y : Except ε α} (hx : c → Ends P E x)
    (hy : ¬c → Ends P E y) : Ends P E (if c then x else y) := by
  by_cases hc : c
  · rw [if_pos hc]
    exact hx hc
  · rw [if_neg hc]
    exact hy hc

/-- A traversal ends with an error only where one of its rounds does. -/
theorem Ends.mapM {f : α → Except ε β} (hf : ∀ a, Ends Q E (f a)) (as : List α) :
    Ends (fun _ => True) E (as.mapM f) := by
  induction as with
  | nil => exact trivial
  | cons a as ih =>
      rw [List.mapM_cons]
      apply (hf a).bind
      intro b _
      apply ih.bind
      intro bs _
      exact trivial

end TestExecutor.Library
