import Mathlib.Data.List.Basic

/-!
# Loops over lists

A loop of a program over a list, whose body may fail or may not, and the invariants that carry it.
An invariant speaks of the part of the list that the loop has passed.

* `foldl_invariant`, `exists_foldlM` — the induction rules for loops that end;
* `exists_of_bind_eq_ok`, `foldlM_invariant` — what holds if a run or a loop returns.
-/

namespace TestExecutor.Library

universe u

variable {A E : Type*} {S : Type u} {as : List A}

/-- What every round keeps holds behind the loop. -/
theorem foldl_invariant {f : S → A → S} (I : List A → S → Prop)
    (hstep : ∀ pre a post s, as = pre ++ a :: post → I pre s → I (pre ++ [a]) (f s a))
    {s : S} (hs : I [] s) : I as (as.foldl f s) := by
  have hrest : ∀ (rest pre : List A) (s : S), as = pre ++ rest → I pre s →
      I as (rest.foldl f s) := by
    intro rest
    induction rest with
    | nil =>
        intro pre s has hI
        rw [List.append_nil] at has
        rwa [has]
    | cons a rest ih =>
        intro pre s has hI
        exact ih (pre ++ [a]) (f s a) (by simpa using has) (hstep pre a rest s has hI)
  exact hrest as [] s rfl hs

/-- If no round fails, then the loop does not, and what every round keeps holds behind it. -/
theorem exists_foldlM {f : S → A → Except E S} (I : List A → S → Prop)
    (hstep : ∀ pre a post s, as = pre ++ a :: post → I pre s →
      ∃ s', f s a = .ok s' ∧ I (pre ++ [a]) s')
    {s : S} (hs : I [] s) : ∃ s', as.foldlM f s = .ok s' ∧ I as s' := by
  have hrest : ∀ (rest pre : List A) (s : S), as = pre ++ rest → I pre s →
      ∃ s', rest.foldlM f s = .ok s' ∧ I as s' := by
    intro rest
    induction rest with
    | nil =>
        intro pre s has hI
        rw [List.append_nil] at has
        rw [has]
        exact ⟨s, rfl, hI⟩
    | cons a rest ih =>
        intro pre s has hI
        obtain ⟨next, hnext, hI'⟩ := hstep pre a rest s has hI
        obtain ⟨s', hs', hI''⟩ := ih (pre ++ [a]) next (by simpa using has) hI'
        refine ⟨s', ?_, hI''⟩
        rw [List.foldlM_cons, hnext]
        exact hs'
  exact hrest as [] s rfl hs

/-- A run that returns has returned from its first part. -/
theorem exists_of_bind_eq_ok {B : Type u} {x : Except E B} {f : B → Except E S} {s : S}
    (hrun : (x >>= f) = .ok s) : ∃ b, x = .ok b ∧ f b = .ok s := by
  cases x with
  | error e => cases hrun
  | ok b => exact ⟨b, rfl, hrun⟩

theorem eq_ok_of_toOption {x : Except E S} {s : S} (h : x.toOption = some s) : x = .ok s := by
  cases x with
  | error e => cases h
  | ok s' => exact congrArg Except.ok (Option.some.inj h)

/-- If the loop returns, then what every round that returns keeps holds behind it. -/
theorem foldlM_invariant {f : S → A → Except E S} (I : List A → S → Prop)
    (hstep : ∀ pre a post s s', as = pre ++ a :: post → I pre s → f s a = .ok s' →
      I (pre ++ [a]) s')
    {s s' : S} (hs : I [] s) (hrun : as.foldlM f s = .ok s') : I as s' := by
  have hrest : ∀ (rest pre : List A) (s : S), as = pre ++ rest → I pre s →
      rest.foldlM f s = .ok s' → I as s' := by
    intro rest
    induction rest with
    | nil =>
        intro pre s has hI hrun
        rw [List.append_nil] at has
        rw [has, ← Except.ok.inj hrun]
        exact hI
    | cons a rest ih =>
        intro pre s has hI hrun
        rw [List.foldlM_cons] at hrun
        obtain ⟨next, hnext, hrun⟩ := exists_of_bind_eq_ok hrun
        exact ih (pre ++ [a]) next (by simpa using has)
          (hstep pre a rest s next has hI hnext) hrun
  exact hrest as [] s rfl hs hrun

end TestExecutor.Library
