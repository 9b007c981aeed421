import TestExecutor.Profiler.ThreadTracker

/-!
# Probes and exception callbacks

The entry points of the profiler: `probes.cpp`, whose functions the rewritten methods call, and
the exception callbacks of `corProfiler.cpp`.

* `Probe` — the probes a rewritten method can call, and `Probe.run`, what each call does;
* `exceptionUnwindFunctionEnter`, `exceptionUnwindFunctionLeave`, `exceptionSearchFilterEnter`,
  `exceptionSearchFilterLeave` — the callbacks that reach `ThreadTracker`;
* `trackEnterMain_untracked`, `trackEnterMain_tracked`, `trackLeaveMain_tracked`,
  `trackTailcall_tracked`, `trackPlain_tracked` — the probes of a main method, one by one;
* `Probe.run_untracked` — on a thread outside every invocation only `EnterMain` does anything.
-/

namespace TestExecutor

open TestExecutor.Library

/-- The members of `CoverageProbes` that a rewritten method calls. -/
inductive Probe where
  | coverage | branch | enter | enterMain | leave | leaveMain | call | tailcall | stsfld | throw
  deriving DecidableEq, Repr

namespace ProfilerState

variable (s : ProfilerState) (thread : ThreadID) (offset : UInt32) (methodId : Int32)

/-! ### The probe functions -/

/-- The body that the record-only probes share. -/
def trackPlain (event : CoverageEvent) : Except Fault ProfilerState :=
  if !s.isCurrentThreadTracked thread then .ok s
  else s.addCoverage thread offset event methodId

def trackCoverage : Except Fault ProfilerState := s.trackPlain thread offset methodId .trackCoverage

def trackStsfld : Except Fault ProfilerState := s.trackPlain thread offset methodId .stsfldHit

def branch : Except Fault ProfilerState := s.trackPlain thread offset methodId .branchHit

def trackCall : Except Fault ProfilerState := s.trackPlain thread offset methodId .call

/-- `Track_Throw` records a `Leave`. -/
def trackThrow : Except Fault ProfilerState := s.trackPlain thread offset methodId .leave

/-- `Track_Tailcall`: the frame is popped before the tail call, whatever the new balance is. -/
def trackTailcall : Except Fault ProfilerState :=
  if !s.isCurrentThreadTracked thread then .ok s
  else
    let (_, s) := s.stackBalanceDown thread
    s.addCoverage thread offset .tailcall methodId

def trackEnter : Except Fault ProfilerState :=
  if !s.isCurrentThreadTracked thread then .ok s
  else do
    let s ← if !s.collectMainOnly then s.addCoverage thread offset .enter methodId else .ok s
    pure (s.stackBalanceUp thread)

def trackEnterMain : Except Fault ProfilerState :=
  if s.isCurrentThreadTracked thread then
    -- recursive enter
    .ok (s.stackBalanceUp thread)
  else
    let s := s.trackCurrentThread thread
    let s := s.stackBalanceUp thread
    s.addCoverage thread offset .enterMain methodId

def trackLeave : Except Fault ProfilerState :=
  if !s.isCurrentThreadTracked thread then .ok s
  else do
    let s ← if !s.collectMainOnly then s.addCoverage thread offset .leave methodId else .ok s
    let (_, s) := s.stackBalanceDown thread
    pure s

def trackLeaveMain : Except Fault ProfilerState :=
  if !s.isCurrentThreadTracked thread then .ok s
  else do
    let s ← s.addCoverage thread offset .leaveMain methodId
    let (notEmpty, s) := s.stackBalanceDown thread
    -- first main frame is not yet reached
    if notEmpty then pure s else s.loseCurrentThread thread

/-! ### The exception callbacks -/

def exceptionUnwindFunctionEnter (functionId : FunctionID) : ProfilerState :=
  if s.isCurrentThreadTracked thread then s.unwindFunctionEnter thread functionId else s

def exceptionUnwindFunctionLeave : Except Fault ProfilerState :=
  if s.isFinished || !s.isCurrentThreadTracked thread then .ok s
  else s.unwindFunctionLeave thread

def exceptionSearchFilterEnter : ProfilerState :=
  if s.isFinished || !s.isCurrentThreadTracked thread then s else s.filterEnter thread

def exceptionSearchFilterLeave : ProfilerState :=
  if s.isFinished || !s.isCurrentThreadTracked thread then s else s.filterLeave thread

end ProfilerState

/-- What calling the probe does. -/
def Probe.run (s : ProfilerState) (thread : ThreadID) (offset : UInt32) (methodId : Int32) :
    Probe → Except Fault ProfilerState
  | .coverage => s.trackCoverage thread offset methodId
  | .branch => s.branch thread offset methodId
  | .enter => s.trackEnter thread offset methodId
  | .enterMain => s.trackEnterMain thread offset methodId
  | .leave => s.trackLeave thread offset methodId
  | .leaveMain => s.trackLeaveMain thread offset methodId
  | .call => s.trackCall thread offset methodId
  | .tailcall => s.trackTailcall thread offset methodId
  | .stsfld => s.trackStsfld thread offset methodId
  | .throw => s.trackThrow thread offset methodId

/-- What a record-only probe records. -/
def Probe.plainEvent : Probe → Option CoverageEvent
  | .coverage => some .trackCoverage
  | .branch => some .branchHit
  | .call => some .call
  | .stsfld => some .stsfldHit
  | .throw => some .leave
  | .enter | .enterMain | .leave | .leaveMain | .tailcall => none

theorem Probe.run_plain {probe : Probe} {event : CoverageEvent} (h : probe.plainEvent = some event)
    (s : ProfilerState) (thread : ThreadID) (offset : UInt32) (methodId : Int32) :
    probe.run s thread offset methodId = s.trackPlain thread offset methodId event := by
  cases probe <;> cases h <;> rfl

namespace ProfilerState

variable {s : ProfilerState} {thread : ThreadID} {balance filters : ℤ} {history : CoverageHistory}
variable {offset : UInt32} {methodId : Int32}

/-! ### The probes of a main method on a tracked thread -/

/-- A record-only probe appends its record and changes nothing else. -/
theorem trackPlain_tracked (h : Tracked s thread balance filters history) (event : CoverageEvent) :
    s.trackPlain thread offset methodId event
      = .ok { s with
          trackedCoverage := s.trackedCoverage.insert thread
            (some (history.addCoverage thread offset event methodId)) } := by
  simp only [trackPlain, h.isCurrentThreadTracked, Bool.not_true, Bool.false_eq_true, if_false]
  exact addCoverage_append h.isCurrentThreadTracked h.history_eq

theorem trackPlain_untracked (h : Untracked s thread) (event : CoverageEvent) :
    s.trackPlain thread offset methodId event = .ok s := by
  simp [trackPlain, h.isCurrentThreadTracked]

/-- The first `EnterMain` of a thread starts the invocation: balance one, no filter, a history
that holds the enter record. -/
theorem trackEnterMain_untracked (h : Untracked s thread) :
    s.trackEnterMain thread offset methodId
      = .ok { s with
          stackBalances := (s.stackBalances.insert thread 0).insert thread 1
          inFilterMapping := s.inFilterMapping.insert thread 0
          trackedCoverage :=
            s.trackedCoverage.insert thread (some (.new thread offset methodId)) } := by
  have hbalance : ThreadStorage.exist s.stackBalances thread = false :=
    ThreadStorage.exist_eq_false.mpr h.balance_eq
  have hfilters : ThreadStorage.exist s.inFilterMapping thread = false :=
    ThreadStorage.exist_eq_false.mpr h.filters_eq
  have htrack : s.trackCurrentThread thread
      = { s with
          stackBalances := s.stackBalances.insert thread 0
          inFilterMapping := s.inFilterMapping.insert thread 0 } := by
    simp [trackCurrentThread, hbalance, hfilters, ThreadStorage.store]
  have hload : ThreadStorage.load (s.stackBalances.insert thread 0) thread = 0 :=
    ThreadStorage.load_of_lookup (OrderedMap.lookup_insert_self _ _ _)
  have hexist : ThreadStorage.exist (s.stackBalances.insert thread 0) thread = true :=
    ThreadStorage.exist_eq_true.mpr ⟨0, OrderedMap.lookup_insert_self _ _ _⟩
  simp only [trackEnterMain, h.isCurrentThreadTracked, Bool.false_eq_true, if_false, htrack]
  simp only [stackBalanceUp, ProfilerState.isCurrentThreadTracked, hexist, profilerAssert_true,
    ThreadStorage.update, hload, Int.zero_add]
  refine addCoverage_new ?_ h.history_eq
  exact ThreadStorage.exist_eq_true.mpr ⟨1, OrderedMap.lookup_insert_self _ _ _⟩

/-- A recursive `EnterMain` only raises the balance. -/
theorem trackEnterMain_tracked (h : Tracked s thread balance filters history) :
    s.trackEnterMain thread offset methodId
      = .ok { s with stackBalances := s.stackBalances.insert thread (balance + 1) } := by
  simp [trackEnterMain, h.isCurrentThreadTracked, stackBalanceUp_tracked h]

/-- Recording keeps a tracked thread tracked, with the longer history. -/
theorem Tracked.addCoverage (h : Tracked s thread balance filters history)
    (offset : UInt32) (methodId : Int32) (event : CoverageEvent) :
    Tracked
      { s with
        trackedCoverage := s.trackedCoverage.insert thread
          (some (history.addCoverage thread offset event methodId)) }
      thread balance filters (history.addCoverage thread offset event methodId) :=
  ⟨h.balance_eq, h.filters_eq, OrderedMap.lookup_insert_self _ _ _⟩

/-- Storing a new balance keeps a tracked thread tracked, with that balance. -/
theorem Tracked.setBalance (h : Tracked s thread balance filters history) (newBalance : ℤ) :
    Tracked { s with stackBalances := s.stackBalances.insert thread newBalance } thread newBalance
      filters history :=
  ⟨OrderedMap.lookup_insert_self _ _ _, h.filters_eq, h.history_eq⟩

/-- Storing a new filter count keeps a tracked thread tracked, with that count. -/
theorem Tracked.setFilters (h : Tracked s thread balance filters history) (newFilters : ℤ) :
    Tracked { s with inFilterMapping := s.inFilterMapping.insert thread newFilters } thread balance
      newFilters history :=
  ⟨h.balance_eq, OrderedMap.lookup_insert_self _ _ _, h.history_eq⟩

/-- The state behind a main frame that was left with other main frames below it. -/
def leftMain (s : ProfilerState) (thread : ThreadID) (balance : ℤ) (history : CoverageHistory) :
    ProfilerState :=
  { s with
    stackBalances := s.stackBalances.insert thread balance
    trackedCoverage := s.trackedCoverage.insert thread (some history) }

theorem Tracked.leftMain (h : Tracked s thread balance filters history) (newBalance : ℤ)
    (newHistory : CoverageHistory) :
    Tracked (s.leftMain thread newBalance newHistory) thread newBalance filters newHistory :=
  ⟨OrderedMap.lookup_insert_self _ _ _, h.filters_eq, OrderedMap.lookup_insert_self _ _ _⟩

/-- `LeaveMain` records the leave and pops the frame; the last frame ends the invocation. -/
theorem trackLeaveMain_tracked (h : Tracked s thread balance filters history)
    (hpos : 1 ≤ balance) (hfilters : balance = 1 → filters = 0) :
    s.trackLeaveMain thread offset methodId
      = .ok (if balance = 1 then
          (s.leftMain thread 0 (history.addCoverage thread offset .leaveMain methodId)).finished
            thread (history.addCoverage thread offset .leaveMain methodId)
        else
          s.leftMain thread (balance - 1)
            (history.addCoverage thread offset .leaveMain methodId)) := by
  have hadd : s.addCoverage thread offset .leaveMain methodId = .ok _ :=
    addCoverage_append h.isCurrentThreadTracked h.history_eq
  have htracked := h.addCoverage offset methodId .leaveMain
  have hdown := stackBalanceDown_tracked htracked hpos
  simp only [trackLeaveMain, h.isCurrentThreadTracked, Bool.not_true, Bool.false_eq_true, if_false,
    hadd, bind, Except.bind, hdown]
  by_cases hone : balance = 1
  · subst hone
    rw [hfilters rfl] at h
    have hlost := loseCurrentThread_tracked
      (h.leftMain 0 (history.addCoverage thread offset .leaveMain methodId))
    rw [if_pos rfl]
    exact hlost
  · have hne : balance - 1 ≠ 0 := by omega
    simp [hone, hne, ProfilerState.leftMain, pure, Except.pure]

/-- `Tailcall` pops the frame and records the tail call; it never ends the invocation. -/
theorem trackTailcall_tracked (h : Tracked s thread balance filters history) (hpos : 1 ≤ balance) :
    s.trackTailcall thread offset methodId
      = .ok (s.leftMain thread (balance - 1)
          (history.addCoverage thread offset .tailcall methodId)) := by
  have htracked := h.setBalance (balance - 1)
  simp only [trackTailcall, h.isCurrentThreadTracked, Bool.not_true, Bool.false_eq_true, if_false,
    stackBalanceDown_tracked h hpos]
  exact addCoverage_append htracked.isCurrentThreadTracked htracked.history_eq

/-- On a thread outside every invocation only `EnterMain` does anything. -/
theorem Probe.run_untracked (h : Untracked s thread) {probe : Probe} (hp : probe ≠ .enterMain) :
    probe.run s thread offset methodId = .ok s := by
  cases probe with
  | enterMain => exact absurd rfl hp
  | coverage => exact trackPlain_untracked h _
  | branch => exact trackPlain_untracked h _
  | call => exact trackPlain_untracked h _
  | stsfld => exact trackPlain_untracked h _
  | throw => exact trackPlain_untracked h _
  | enter => simp [Probe.run, trackEnter, h.isCurrentThreadTracked]
  | leave => simp [Probe.run, trackLeave, h.isCurrentThreadTracked]
  | leaveMain => simp [Probe.run, trackLeaveMain, h.isCurrentThreadTracked]
  | tailcall => simp [Probe.run, trackTailcall, h.isCurrentThreadTracked]

end ProfilerState

end TestExecutor
