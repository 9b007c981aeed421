import Mathlib.Data.Finset.Card
import Mathlib.Logic.Function.Basic
import TestExecutor.Library.Runs

/-!
# Shutdown and the requests it waits for

`corProfiler.cpp` and `api.cpp`: `JITCompilationStarted` and `GetHistory` count themselves in
`shutdownBlockingRequestsCount`, and `Shutdown` sets `isFinished` and waits until the count is zero.
Every access to the flag or to the count is one step; the calls, any number of them, and `Shutdown`
interleave.

* `RequestKind`, `RequestPc`, `ShutdownPc` — the calls and where they stand;
* `ShutdownState.step` — one step of a call, or of `Shutdown`;
* `WaitedForAll` — once `Shutdown` has left its loop, no call runs its body or will run it;
* `RaisedInTime` — no call raises the count too late;
* `waitedForAll_iff`.
-/

namespace TestExecutor

open TestExecutor.Library

/-! ### The calls -/

inductive RequestKind where
  | jitCompilationStarted | getHistory
  deriving DecidableEq, Repr

inductive RequestPc where
  | called
  -- `JITCompilationStarted` behind its test of `isFinished`, in front of `fetch_add`
  | tested
  -- between `fetch_add` and `fetch_sub`: in `instrument`, or serializing the history
  | body
  | returned
  deriving DecidableEq, Repr

inductive ShutdownPc where
  | called | waiting | left
  deriving DecidableEq, Repr

structure ShutdownState (ι : Type) where
  isFinished : Bool
  shutdownBlockingRequestsCount : ℤ
  pc : ι → RequestPc
  shutdown : ShutdownPc

/-- Who takes the next step. -/
inductive ShutdownAct (ι : Type) where
  | request (i : ι)
  | shutdown

namespace ShutdownState

variable {ι : Type} [DecidableEq ι] (kind : ι → RequestKind)

def init : ShutdownState ι := ⟨false, 0, fun _ => .called, .called⟩

def setPc (w : ShutdownState ι) (i : ι) (pc : RequestPc) : ShutdownState ι :=
  { w with pc := Function.update w.pc i pc }

/-- `std::atomic_fetch_add(&shutdownBlockingRequestsCount, 1)`. -/
def raise (w : ShutdownState ι) : ShutdownState ι :=
  { w with shutdownBlockingRequestsCount := w.shutdownBlockingRequestsCount + 1 }

def lower (w : ShutdownState ι) : ShutdownState ι :=
  { w with shutdownBlockingRequestsCount := w.shutdownBlockingRequestsCount - 1 }

def requestStep (w : ShutdownState ι) (i : ι) : Option (ShutdownState ι) :=
  match kind i, w.pc i with
  | .jitCompilationStarted, .called =>
      some (w.setPc i (if w.isFinished then .returned else .tested))
  | .jitCompilationStarted, .tested => some (w.raise.setPc i .body)
  | .getHistory, .called => some (w.raise.setPc i .body)
  | _, .body => some (w.lower.setPc i .returned)
  | .getHistory, .tested => none
  | _, .returned => none

def shutdownStep (w : ShutdownState ι) : Option (ShutdownState ι) :=
  match w.shutdown with
  | .called => some { w with isFinished := true, shutdown := .waiting }
  | .waiting =>
      if w.shutdownBlockingRequestsCount > 0 then some w else some { w with shutdown := .left }
  | .left => none

def step (w : ShutdownState ι) : ShutdownAct ι → Option (ShutdownState ι)
  | .request i => w.requestStep kind i
  | .shutdown => w.shutdownStep

/-! ### What `Shutdown` waits for -/

/-- Once `Shutdown` has left its loop, no call runs its body, and none is past the test in front of
it. -/
def WaitedForAll (w : ShutdownState ι) : Prop :=
  w.shutdown = .left → ∀ i, w.pc i ≠ .body ∧ w.pc i ≠ .tested

/-- When `Shutdown` reads that the count is zero, no call stands between its test of `isFinished`
and its `fetch_add`; and no `GetHistory` begins after that. -/
def RaisedInTime (w : ShutdownState ι) : ShutdownAct ι → Prop
  | .shutdown => w.shutdown = .waiting → w.shutdownBlockingRequestsCount ≤ 0 →
      ∀ i, w.pc i ≠ .tested
  | .request i => kind i = .getHistory → w.pc i = .called → w.shutdown ≠ .left

/-- The count is the number of the calls in their bodies. -/
structure Counts (w : ShutdownState ι) : Prop where
  count_eq : ∃ bodies : Finset ι, (∀ i, i ∈ bodies ↔ w.pc i = .body)
    ∧ w.shutdownBlockingRequestsCount = bodies.card
  finished : w.shutdown ≠ .called → w.isFinished = true
  waited : WaitedForAll w

variable {kind} {w w' : ShutdownState ι} {i : ι}

theorem setPc_pc (w : ShutdownState ι) (i j : ι) (pc : RequestPc) :
    (w.setPc i pc).pc j = if j = i then pc else w.pc j := Function.update_apply _ _ _ _

/-! ### One step -/

/-- A call that enters or leaves no body leaves the count as it is. -/
theorem Counts.setPc (h : Counts w) {pc : RequestPc} (hold : w.pc i ≠ .body) (hnew : pc ≠ .body)
    (hwaited : WaitedForAll (w.setPc i pc)) : Counts (w.setPc i pc) := by
  refine ⟨?_, h.finished, hwaited⟩
  obtain ⟨bodies, hbodies, hcount⟩ := h.count_eq
  refine ⟨bodies, fun j => ?_, hcount⟩
  rw [hbodies, setPc_pc]
  by_cases hj : j = i
  · subst hj
    rw [if_pos rfl]
    exact iff_of_false hold hnew
  · rw [if_neg hj]

/-- A call that raises the count enters its body; `Shutdown` must not have left its loop. -/
theorem Counts.raise (h : Counts w) (hold : w.pc i ≠ .body) (hleft : w.shutdown ≠ .left) :
    Counts (w.raise.setPc i .body) := by
  refine ⟨?_, h.finished, fun hleft' => absurd hleft' hleft⟩
  obtain ⟨bodies, hbodies, hcount⟩ := h.count_eq
  refine ⟨insert i bodies, fun j => ?_, ?_⟩
  · rw [Finset.mem_insert, hbodies, setPc_pc]
    by_cases hj : j = i
    · simp [hj]
    · rw [if_neg hj]
      exact or_iff_right hj
  · rw [Finset.card_insert_of_notMem fun hmem => hold ((hbodies i).mp hmem)]
    show w.shutdownBlockingRequestsCount + 1 = _
    rw [hcount]
    push_cast
    rfl

/-- A call that lowers the count has left its body. -/
theorem Counts.lower (h : Counts w) (hold : w.pc i = .body) :
    Counts (w.lower.setPc i .returned) := by
  refine ⟨?_, h.finished, fun hleft => absurd hold (h.waited hleft i).1⟩
  obtain ⟨bodies, hbodies, hcount⟩ := h.count_eq
  refine ⟨bodies.erase i, fun j => ?_, ?_⟩
  · rw [Finset.mem_erase, hbodies, setPc_pc]
    by_cases hj : j = i
    · simp [hj]
    · rw [if_neg hj]
      exact and_iff_right hj
  · have hcard := Finset.card_erase_add_one ((hbodies i).mpr hold)
    show w.shutdownBlockingRequestsCount - 1 = _
    omega

theorem Counts.requestStep (h : Counts w) (hP : RaisedInTime kind w (.request i))
    (hstep : w.requestStep kind i = some w') : Counts w' := by
  cases hkind : kind i with
  | jitCompilationStarted =>
      cases hpc : w.pc i with
      | called =>
          rw [ShutdownState.requestStep, hkind, hpc] at hstep
          obtain rfl := Option.some.inj hstep
          refine h.setPc (by rw [hpc]; decide) (by split <;> decide) fun hleft j => ?_
          -- the flag was set before `Shutdown` left, so the test ends the call
          have hfinished : w.isFinished = true := h.finished (by
            rw [show w.shutdown = .left from hleft]
            decide)
          rw [if_pos hfinished, setPc_pc]
          split
          · decide
          · exact h.waited hleft j
      | tested =>
          rw [ShutdownState.requestStep, hkind, hpc] at hstep
          obtain rfl := Option.some.inj hstep
          exact h.raise (by rw [hpc]; decide) fun hleft => (h.waited hleft i).2 hpc
      | body =>
          rw [ShutdownState.requestStep, hkind, hpc] at hstep
          obtain rfl := Option.some.inj hstep
          exact h.lower hpc
      | returned =>
          rw [ShutdownState.requestStep, hkind, hpc] at hstep
          cases hstep
  | getHistory =>
      cases hpc : w.pc i with
      | called =>
          rw [ShutdownState.requestStep, hkind, hpc] at hstep
          obtain rfl := Option.some.inj hstep
          exact h.raise (by rw [hpc]; decide) (hP hkind hpc)
      | tested =>
          rw [ShutdownState.requestStep, hkind, hpc] at hstep
          cases hstep
      | body =>
          rw [ShutdownState.requestStep, hkind, hpc] at hstep
          obtain rfl := Option.some.inj hstep
          exact h.lower hpc
      | returned =>
          rw [ShutdownState.requestStep, hkind, hpc] at hstep
          cases hstep

omit [DecidableEq ι] in
theorem Counts.shutdownStep (h : Counts w) (hP : RaisedInTime kind w .shutdown)
    (hstep : w.shutdownStep = some w') : Counts w' := by
  cases hpc : w.shutdown with
  | called =>
      rw [ShutdownState.shutdownStep, hpc] at hstep
      obtain rfl := Option.some.inj hstep
      refine ⟨h.count_eq, fun _ => rfl, fun hleft => ?_⟩
      cases hleft
  | waiting =>
      simp only [ShutdownState.shutdownStep, hpc] at hstep
      split at hstep
      · obtain rfl := Option.some.inj hstep
        exact h
      · rename_i hcount
        obtain rfl := Option.some.inj hstep
        refine ⟨h.count_eq, fun _ => h.finished (by rw [hpc]; decide), fun _ j => ⟨?_, ?_⟩⟩
        · -- the count is zero, so no call is in its body
          intro hbody
          obtain ⟨bodies, hbodies, hcard⟩ := h.count_eq
          have hpos := Finset.card_pos.mpr ⟨j, (hbodies j).mpr hbody⟩
          omega
        · exact hP hpc (by omega) j
  | left =>
      rw [ShutdownState.shutdownStep, hpc] at hstep
      cases hstep

theorem Counts.step (h : Counts w) {a : ShutdownAct ι} (hP : RaisedInTime kind w a)
    (hstep : w.step kind a = some w') : Counts w' := by
  cases a with
  | request i => exact h.requestStep hP hstep
  | shutdown => exact h.shutdownStep hP hstep

/-- A call that raises the count too late runs its body behind `Shutdown`. -/
theorem not_waitedForAll {a : ShutdownAct ι} (hP : ¬RaisedInTime kind w a) :
    ∃ w', w.step kind a = some w' ∧ ¬WaitedForAll w' := by
  cases a with
  | request i =>
      simp only [RaisedInTime, not_forall, not_not] at hP
      obtain ⟨hkind, hpc, hleft⟩ := hP
      refine ⟨w.raise.setPc i .body, ?_, fun hwaited => (hwaited hleft i).1 ?_⟩
      · rw [ShutdownState.step, ShutdownState.requestStep, hkind, hpc]
      · rw [setPc_pc, if_pos rfl]
  | shutdown =>
      simp only [RaisedInTime, not_forall, not_not] at hP
      obtain ⟨hpc, hcount, i, htested⟩ := hP
      refine ⟨{ w with shutdown := .left }, ?_, fun hwaited => (hwaited rfl i).2 htested⟩
      simp only [ShutdownState.step, ShutdownState.shutdownStep, hpc]
      rw [if_neg (by omega)]

omit [DecidableEq ι] in
theorem counts_init : Counts (ShutdownState.init : ShutdownState ι) where
  count_eq := ⟨∅, fun i => by simp [ShutdownState.init], rfl⟩
  finished := fun h => absurd rfl h
  waited := fun hleft => by cases hleft

end ShutdownState

open ShutdownState

/-- **When `Shutdown` waits for all requests.**  In every interleaving of any number of calls with
`Shutdown`, no call runs its body once `Shutdown` has left its loop, or is bound to run it, exactly
when no `JITCompilationStarted` stands between its test of the flag and its `fetch_add` at the
moment `Shutdown` reads a zero count, and no `GetHistory` begins after that moment. -/
theorem waitedForAll_iff {ι : Type} [DecidableEq ι] (kind : ι → RequestKind)
    (acts : List (ShutdownAct ι)) :
    Always (ShutdownState.step kind) WaitedForAll .init acts
      ↔ Along (ShutdownState.step kind) (RaisedInTime kind) .init acts :=
  always_iff_along (fun _ h => h.waited) (fun _ _ _ h hP hstep => h.step hP hstep)
    (fun _ _ _ hP => not_waitedForAll hP) counts_init

/-- A call has tested the flag before `Shutdown` sets it, and raises the count after `Shutdown` has
read it. -/
theorem instrument_runs_behind_shutdown :
    ¬Always (ShutdownState.step fun _ : Unit => .jitCompilationStarted) WaitedForAll .init
      [.request (), .shutdown, .shutdown, .request ()] := by
  intro h
  have hlast := ((((h.2 _ rfl).2 _ rfl).2 _ rfl).2 _ rfl)
  exact (hlast rfl ()).1 rfl

end TestExecutor
