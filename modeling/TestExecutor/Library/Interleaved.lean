import Mathlib.Data.Fintype.Basic
import Mathlib.Logic.Function.Basic
import TestExecutor.Library.Runs

/-!
# Programs that share a state

A program of atomic steps on a state that others step on too.  Alone it is a function; together with
others it is one thread of an interleaving.

* `Program`, `Program.alone` — programs, a monad with exceptions, and what they do alone;
* `alone_bind`, `alone_mapError` — alone, programs compose as functions do;
* `Threads`, `Threads.step` — calls of programs, interleaved step by step;
* `run_alone` — a call that is not interrupted does what it does alone;
* `StartsAlone`, `returned_of_startsAlone` — calls that start alone end as if there were no others.
-/

namespace TestExecutor.Library

/-- A program has ended, or takes a step and goes on according to the state that it has found. -/
inductive Program (σ ε α : Type)
  | ended (result : Except ε α)
  | step (effect : σ → σ) (next : σ → Program σ ε α)

namespace Program

variable {σ ε ε' α β : Type}

def bind : Program σ ε α → (α → Program σ ε β) → Program σ ε β
  | ended (.ok a), f => f a
  | ended (.error e), _ => ended (.error e)
  | step effect next, f => step effect fun s => (next s).bind f

instance : Monad (Program σ ε) where
  pure a := ended (.ok a)
  bind := bind

def throw (e : ε) : Program σ ε α := ended (.error e)

def mapError (f : ε → ε') : Program σ ε α → Program σ ε' α
  | ended result => ended (result.mapError f)
  | step effect next => step effect fun s => (next s).mapError f

/-- Reads from the state. -/
def get (f : σ → α) : Program σ ε α := step id fun s => ended (.ok (f s))

/-- Writes to the state. -/
def modify (f : σ → σ) : Program σ ε Unit := step f fun _ => ended (.ok ())

/-- `n` times the same program. -/
def many (p : Program σ ε α) : ℕ → Program σ ε (List α)
  | 0 => pure []
  | n + 1 => do
      let a ← p
      let as ← many p n
      pure (a :: as)

/-- The result of a program and the state behind it when nobody else takes a step. -/
def alone : Program σ ε α → σ → Except ε α × σ
  | ended result, s => (result, s)
  | step effect next, s => (next s).alone (effect s)

/-- The number of steps that a program takes alone. -/
def steps : Program σ ε α → σ → ℕ
  | ended _, _ => 0
  | step effect next, s => (next s).steps (effect s) + 1

def Ended : Program σ ε α → Prop
  | ended _ => True
  | step _ _ => False

instance : ∀ p : Program σ ε α, Decidable p.Ended
  | ended _ => isTrue trivial
  | step _ _ => isFalse id

@[simp] theorem alone_pure (a : α) (s : σ) :
    (Pure.pure a : Program σ ε α).alone s = (.ok a, s) := rfl

@[simp] theorem alone_throw (e : ε) (s : σ) :
    (throw e : Program σ ε α).alone s = (.error e, s) := rfl

@[simp] theorem alone_get (f : σ → α) (s : σ) : (get f : Program σ ε α).alone s = (.ok (f s), s) := rfl

@[simp] theorem alone_modify (f : σ → σ) (s : σ) :
    (modify f : Program σ ε Unit).alone s = (.ok (), f s) := rfl

/-- Alone, a program in front of another one leaves it its result and its state. -/
theorem alone_bind (p : Program σ ε α) (f : α → Program σ ε β) (s : σ) :
    (p >>= f).alone s = match p.alone s with
      | (.ok a, s') => (f a).alone s'
      | (.error e, s') => (.error e, s') := by
  show (p.bind f).alone s = _
  induction p generalizing s with
  | ended result => cases result <;> rfl
  | step effect next ih => exact ih s (effect s)

theorem alone_bind_of_ok {p : Program σ ε α} {f : α → Program σ ε β} {s s' : σ} {a : α}
    (h : p.alone s = (.ok a, s')) : (p >>= f).alone s = (f a).alone s' := by
  rw [alone_bind, h]

theorem alone_bind_of_error {p : Program σ ε α} {f : α → Program σ ε β} {s : σ} {e : ε}
    (h : (p.alone s).1 = .error e) : ((p >>= f).alone s).1 = .error e := by
  rw [alone_bind]
  cases hp : p.alone s with
  | mk result s' =>
      rw [hp] at h
      obtain rfl : result = .error e := h
      rfl

theorem alone_mapError (f : ε → ε') (p : Program σ ε α) (s : σ) :
    (p.mapError f).alone s = ((p.alone s).1.mapError f, (p.alone s).2) := by
  induction p generalizing s with
  | ended result => rfl
  | step effect next ih => exact ih s (effect s)

end Program

/-! ### Threads -/

/-- The state, and the calls that were made. -/
structure Threads (ι σ ε α : Type) where
  shared : σ
  thread : ι → Option (Program σ ε α)

namespace Threads

variable {ι σ ε α : Type} [DecidableEq ι] (start : ι → Program σ ε α)

/-- A call is made, or takes its next step. -/
def step (w : Threads ι σ ε α) (i : ι) : Option (Threads ι σ ε α) :=
  match w.thread i with
  | none => some { w with thread := Function.update w.thread i (some (start i)) }
  | some (.ended _) => none
  | some (.step effect next) =>
      some ⟨effect w.shared, Function.update w.thread i (some (next w.shared))⟩

/-- The call was made and has not ended. -/
def UnderWay (w : Threads ι σ ε α) (i : ι) : Prop := ∃ p, w.thread i = some p ∧ ¬p.Ended

/-- No call is made while another one is under way. -/
def StartsAlone (w : Threads ι σ ε α) (i : ι) : Prop := w.thread i = none → ∀ j, ¬w.UnderWay j

instance (w : Threads ι σ ε α) (i : ι) : Decidable (w.UnderWay i) :=
  decidable_of_iff (∃ p ∈ w.thread i, ¬p.Ended) Iff.rfl

instance [Fintype ι] (w : Threads ι σ ε α) (i : ι) : Decidable (w.StartsAlone i) :=
  inferInstanceAs (Decidable (_ → _))

variable {start} {w w' : Threads ι σ ε α} {i j : ι} {p : Program σ ε α}

theorem step_of_none (h : w.thread i = none) : w.step start i
    = some { w with thread := Function.update w.thread i (some (start i)) } := by
  rw [step, h]

theorem step_of_step {effect : σ → σ} {next : σ → Program σ ε α}
    (h : w.thread i = some (.step effect next)) : w.step start i
      = some ⟨effect w.shared, Function.update w.thread i (some (next w.shared))⟩ := by
  rw [step, h]

/-- **A call that is not interrupted** does what it does alone. -/
theorem run_alone : ∀ (p : Program σ ε α) {w : Threads ι σ ε α}, w.thread i = some p →
    run (step start) w (List.replicate (p.steps w.shared) i)
      = some ⟨(p.alone w.shared).2,
        Function.update w.thread i (some (.ended (p.alone w.shared).1))⟩ := by
  intro p
  induction p with
  | ended result =>
      intro w h
      show some w = _
      rw [Program.alone, ← h, Function.update_eq_self]
  | step effect next ih =>
      intro w h
      rw [Program.steps, List.replicate_succ, run_cons, step_of_step h, Option.bind_some]
      refine (ih w.shared (w := ⟨effect w.shared, _⟩) (Function.update_self i _ _)).trans ?_
      rw [Function.update_idem]
      rfl

/-! ### One call at a time -/

/-- At most one call is under way, and it is going to return what the calls that have ended have
returned. -/
structure Exclusive (result : ι → Except ε α) (w : Threads ι σ ε α) : Prop where
  returns : ∀ i p, w.thread i = some p → (p.alone w.shared).1 = result i
  unique : ∀ i j, w.UnderWay i → w.UnderWay j → i = j

theorem Exclusive.step {result : ι → Except ε α} (h : Exclusive result w)
    (hresult : ∀ i s, ((start i).alone s).1 = result i) (halone : w.StartsAlone i)
    (hstep : w.step start i = some w') : Exclusive result w' := by
  have hothers : ∀ {thread : Option (Program σ ε α)} {s : σ} {j : ι}, j ≠ i →
      (⟨s, Function.update w.thread i thread⟩ : Threads ι σ ε α).UnderWay j → w.UnderWay j := by
    rintro thread s j hji ⟨p, hp, hnot⟩
    dsimp only at hp
    rw [Function.update_of_ne hji] at hp
    exact ⟨p, hp, hnot⟩
  -- nobody else is under way
  have hquiet : (∀ j, j ≠ i → ¬w.UnderWay j) → ∀ {thread : Option (Program σ ε α)} {s : σ},
      (∀ p, thread = some p → (p.alone s).1 = result i) →
        Exclusive result ⟨s, Function.update w.thread i thread⟩ := by
    intro hquiet thread s hthread
    refine ⟨fun j p hp => ?_, fun j k hj hk => ?_⟩
    · dsimp only at hp ⊢
      by_cases hji : j = i
      · subst hji
        rw [Function.update_self] at hp
        exact hthread p hp
      · rw [Function.update_of_ne hji] at hp
        cases p with
        | ended r => exact h.returns j _ hp
        | step effect next => exact absurd ⟨_, hp, id⟩ (hquiet j hji)
    · by_cases hji : j = i
      · by_cases hki : k = i
        · exact hji.trans hki.symm
        · exact absurd (hothers hki hk) (hquiet k hki)
      · exact absurd (hothers hji hj) (hquiet j hji)
  cases hthread : w.thread i with
  | none =>
      rw [step_of_none hthread] at hstep
      obtain rfl := Option.some.inj hstep
      refine hquiet (fun j _ => halone hthread j) fun p hp => ?_
      obtain rfl := Option.some.inj hp
      exact hresult i w.shared
  | some p =>
      cases p with
      | ended r =>
          rw [Threads.step, hthread] at hstep
          cases hstep
      | step effect next =>
          rw [step_of_step hthread] at hstep
          obtain rfl := Option.some.inj hstep
          have hunder : w.UnderWay i := ⟨_, hthread, id⟩
          refine hquiet (fun j hji hj => hji (h.unique j i hj hunder)) fun p hp => ?_
          obtain rfl := Option.some.inj hp
          exact h.returns i _ hthread

/-- **Calls that start alone** end as if there were no others, when their results do not depend on the
state that they find. -/
theorem returned_of_startsAlone {result : ι → Except ε α}
    (hresult : ∀ i s, ((start i).alone s).1 = result i) {acts : List ι} {s : σ}
    (halone : Along (step start) StartsAlone ⟨s, fun _ => none⟩ acts) :
    Always (step start) (fun w => ∀ i r, w.thread i = some (.ended r) → r = result i)
      ⟨s, fun _ => none⟩ acts := by
  refine always_of_along (I := Exclusive result) (fun w h i r hr => h.returns i _ hr)
    (fun _ _ _ h halone hstep => h.step hresult halone hstep) ⟨?_, ?_⟩ halone
  · rintro i p ⟨⟩
  · rintro i j ⟨p, hp, -⟩
    cases hp

end Threads

end TestExecutor.Library
