import Mathlib.Data.List.Basic

/-!
# Runs of a guarded step function

A system is a function that takes a state and an action to the next state, or to `none` where the
action is not enabled.  A schedule is a list of actions, and every interleaving of several parties
is one.

* `run` — the state behind a schedule;
* `run_invariant`, `run_invariant_behind` — what every step keeps holds behind every run;
* `Always`, `Along` — a property of all states of a run, a condition on all of its steps;
* `always_of_invariant`, `always_of_along`, `always_iff_along` — a property that every step keeps,
  one that the condition keeps, and one that fails as soon as the condition does;
* `run_of_not_along` — a step against the condition leaves a mark that stays.
-/

namespace TestExecutor.Library

variable {S A : Type*} (step : S → A → Option S)

/-- The state behind a schedule, if every action was enabled. -/
def run (s : S) (acts : List A) : Option S := acts.foldlM step s

/-- The property holds in every state that the schedule reaches. -/
def Always (Q : S → Prop) : S → List A → Prop
  | s, [] => Q s
  | s, a :: acts => Q s ∧ ∀ s', step s a = some s' → Always Q s' acts

/-- The condition holds of every step that the schedule takes. -/
def Along (P : S → A → Prop) : S → List A → Prop
  | _, [] => True
  | s, a :: acts => P s a ∧ ∀ s', step s a = some s' → Along P s' acts

variable {step} {I Q : S → Prop} {P : S → A → Prop}

instance Along.decidable [∀ s a, Decidable (P s a)] :
    ∀ (s : S) (acts : List A), Decidable (Along step P s acts)
  | _, [] => isTrue trivial
  | s, a :: acts =>
      match h : step s a with
      | none => decidable_of_iff (P s a)
          ⟨fun hP => ⟨hP, fun _ hstep => nomatch h.symm.trans hstep⟩, And.left⟩
      | some s' =>
          have := Along.decidable s' acts
          decidable_of_iff (P s a ∧ Along step P s' acts)
            ⟨fun hP => ⟨hP.1, fun _ hstep => Option.some.inj (h.symm.trans hstep) ▸ hP.2⟩,
              fun hP => ⟨hP.1, hP.2 s' h⟩⟩

@[simp] theorem run_nil (s : S) : run step s [] = some s := rfl

theorem run_cons (s : S) (a : A) (acts : List A) :
    run step s (a :: acts) = (step s a).bind fun s' => run step s' acts := rfl

/-- What every step keeps holds behind every run. -/
theorem run_invariant (hstep : ∀ s a s', I s → step s a = some s' → I s') {acts : List A} :
    ∀ {s s' : S}, I s → run step s acts = some s' → I s' := by
  induction acts with
  | nil =>
      intro s s' hs hrun
      obtain rfl := Option.some.inj hrun
      exact hs
  | cons a acts ih =>
      intro s s' hs hrun
      rw [run_cons] at hrun
      obtain ⟨next, hnext, hrest⟩ := Option.bind_eq_some_iff.mp hrun
      exact ih (hstep s a next hs hnext) hrest

theorem run_append (s : S) (acts acts' : List A) :
    run step s (acts ++ acts') = (run step s acts).bind fun s' => run step s' acts' := by
  rw [run, List.foldlM_append]
  rfl

/-- What every step keeps, of the state and of the schedule in front of it, holds behind every run. -/
theorem run_invariant_behind {I : List A → S → Prop}
    (hstep : ∀ done s a s', I done s → step s a = some s' → I (done ++ [a]) s') {acts : List A} :
    ∀ {done : List A} {s s' : S}, I done s → run step s acts = some s' → I (done ++ acts) s' := by
  induction acts with
  | nil =>
      intro done s s' hs hrun
      obtain rfl := Option.some.inj hrun
      rwa [List.append_nil]
  | cons a acts ih =>
      intro done s s' hs hrun
      rw [run_cons] at hrun
      obtain ⟨next, hnext, hrest⟩ := Option.bind_eq_some_iff.mp hrun
      rw [List.append_cons]
      exact ih (hstep done s a next hs hnext) hrest

theorem Always.head {s : S} {acts : List A} (h : Always step Q s acts) : Q s := by
  cases acts with
  | nil => exact h
  | cons a acts => exact h.1

theorem Always.behind {acts : List A} : ∀ {s s' : S}, Always step Q s acts →
    run step s acts = some s' → Q s' := by
  induction acts with
  | nil =>
      intro s s' h hrun
      obtain rfl := Option.some.inj hrun
      exact h
  | cons a acts ih =>
      intro s s' h hrun
      rw [run_cons] at hrun
      obtain ⟨next, hnext, hrest⟩ := Option.bind_eq_some_iff.mp hrun
      exact ih (h.2 next hnext) hrest

/-- The condition holds of what comes behind a part of the schedule. -/
theorem Along.behind {acts acts' : List A} : ∀ {s s' : S}, Along step P s (acts ++ acts') →
    run step s acts = some s' → Along step P s' acts' := by
  induction acts with
  | nil =>
      intro s s' h hrun
      obtain rfl := Option.some.inj hrun
      exact h
  | cons a acts ih =>
      intro s s' h hrun
      rw [run_cons] at hrun
      obtain ⟨next, hnext, hrest⟩ := Option.bind_eq_some_iff.mp hrun
      exact ih (h.2 next hnext) hrest

/-- A property that an invariant implies, which the condition keeps. -/
theorem always_of_along (hI : ∀ s, I s → Q s)
    (hkeep : ∀ s a s', I s → P s a → step s a = some s' → I s') {acts : List A} :
    ∀ {s : S}, I s → Along step P s acts → Always step Q s acts := by
  induction acts with
  | nil =>
      intro s hs _
      exact hI s hs
  | cons a acts ih =>
      intro s hs halong
      exact ⟨hI s hs, fun s' hstep => ih (hkeep s a s' hs halong.1 hstep) (halong.2 s' hstep)⟩

/-- A property that an invariant implies. -/
theorem always_of_invariant (hI : ∀ s, I s → Q s)
    (hkeep : ∀ s a s', I s → step s a = some s' → I s') {acts : List A} :
    ∀ {s : S}, I s → Always step Q s acts := by
  induction acts with
  | nil =>
      intro s hs
      exact hI s hs
  | cons a acts ih =>
      intro s hs
      exact ⟨hI s hs, fun s' hstep => ih (hkeep s a s' hs hstep)⟩

/-- What every step against the condition leaves, and every step keeps, is there behind every run with
such a step. -/
theorem run_of_not_along {B : S → Prop} (hbreak : ∀ s a s', ¬P s a → step s a = some s' → B s')
    (hkeep : ∀ s a s', B s → step s a = some s' → B s') {acts : List A} :
    ∀ {s s' : S}, ¬Along step P s acts → run step s acts = some s' → B s' := by
  induction acts with
  | nil =>
      intro s s' hnot _
      exact absurd trivial hnot
  | cons a acts ih =>
      intro s s' hnot hrun
      rw [run_cons] at hrun
      obtain ⟨next, hnext, hrest⟩ := Option.bind_eq_some_iff.mp hrun
      by_cases hP : P s a
      · refine ih (fun halong => hnot ⟨hP, fun s'' hstep => ?_⟩) hrest
        obtain rfl := Option.some.inj (hnext.symm.trans hstep)
        exact halong
      · exact run_invariant hkeep (hbreak s a next hP hnext) hrest

/-- A property that the condition keeps, and that fails behind every step against it. -/
theorem always_iff_along (hI : ∀ s, I s → Q s)
    (hkeep : ∀ s a s', I s → P s a → step s a = some s' → I s')
    (hbreak : ∀ s a, I s → ¬P s a → ∃ s', step s a = some s' ∧ ¬Q s') {acts : List A} :
    ∀ {s : S}, I s → (Always step Q s acts ↔ Along step P s acts) := by
  intro s hs
  refine ⟨?_, always_of_along hI hkeep hs⟩
  induction acts generalizing s with
  | nil =>
      intro _
      trivial
  | cons a acts ih =>
      intro halways
      have hP : P s a := by
        by_contra hnot
        obtain ⟨s', hstep, hbroken⟩ := hbreak s a hs hnot
        exact hbroken (halways.2 s' hstep).head
      exact ⟨hP, fun s' hstep => ih (hkeep s a s' hs hP hstep) (halways.2 s' hstep)⟩

end TestExecutor.Library
