import TestExecutor.Profiler.FrameBalance

/-!
# Aborted invocations

`CorProfiler::ExceptionThrown`: an exception that aborts the thread ends the invocation with an
empty report.  `invocationAborted` stores a null history, and `invocationFinished` reads the
visited methods through it before it tests it.

* `exceptionThrown` — the callback;
* `AbortsCleanly` — what the end of an aborted invocation should be;
* `exceptionThrown_abort` — what it is, and `not_abortsCleanly`.
-/

namespace TestExecutor

open TestExecutor.Library

/-- The name that the callback compares with. -/
def threadAbortException : String := "System.Threading.ThreadAbortException"

namespace ProfilerState

variable (s : ProfilerState) (thread : ThreadID)

def exceptionThrown (exceptionName : String) : Except Fault ProfilerState :=
  if s.isCurrentThreadTracked thread then
    if exceptionName = threadAbortException then
      (s.invocationAborted thread).abortCurrentThread thread
    else .ok s
  else .ok s

/-- The abort ends the invocation with one empty report, and touches no other thread. -/
def AbortsCleanly (s : ProfilerState) (thread : ThreadID) : Prop :=
  ∃ s', s.exceptionThrown thread threadAbortException = .ok s'
    ∧ s'.serializedCoverage = s.serializedCoverage ++ [reportBuffer (s.mappedId thread) none]
    ∧ s'.isCurrentThreadTracked thread = false
    ∧ s'.trackedCoverage.lookup thread = none
    ∧ SameOthers s s' thread

variable {s thread}

/-- A null history is read through. -/
theorem invocationFinished_null (hnull : s.trackedCoverage.lookup thread = some none) :
    s.invocationFinished thread = .error .nullHistory := by
  have hexist : ThreadStorage.exist s.trackedCoverage thread = true :=
    ThreadStorage.exist_eq_true.mpr ⟨_, hnull⟩
  simp only [invocationFinished, hexist, profilerAssert_true, ThreadStorage.load_of_lookup hnull]

theorem invocationAborted_null (s : ProfilerState) (thread : ThreadID) :
    (s.invocationAborted thread).trackedCoverage.lookup thread = some none := by
  rw [invocationAborted]
  exact OrderedMap.lookup_insert_self _ _ _

/-- On every tracked thread the abort dereferences null. -/
theorem exceptionThrown_abort (htracked : s.isCurrentThreadTracked thread = true) :
    s.exceptionThrown thread threadAbortException = .error .nullHistory := by
  rw [exceptionThrown, if_pos htracked, if_pos rfl, abortCurrentThread, onCurrentThreadFinished,
    invocationFinished_null (invocationAborted_null s thread)]
  rfl

/-- **No abort is clean**: `invocationFinished` reads through the null history that
`invocationAborted` has just stored. -/
theorem not_abortsCleanly (s : ProfilerState) (thread : ThreadID)
    (htracked : s.isCurrentThreadTracked thread = true) : ¬AbortsCleanly s thread := by
  rintro ⟨s', hrun, -⟩
  rw [exceptionThrown_abort htracked] at hrun
  cases hrun

/-- The state of a thread that has entered main and recorded a branch. -/
def branchHitState : ProfilerState :=
  { init false true with
    stackBalances := OrderedMap.empty.insert 0 1
    inFilterMapping := OrderedMap.empty.insert 0 0
    trackedCoverage := OrderedMap.empty.insert 0
      (some ⟨[⟨0, .enterMain, 0, 0⟩, ⟨4, .branchHit, 0, 0⟩], {0}⟩) }

theorem not_abortsCleanly_branchHit : ¬AbortsCleanly branchHitState 0 :=
  not_abortsCleanly branchHitState 0 (by decide)

/-- The first abort of a process crashes it. -/
theorem abort_dereferences_null :
    ∃ s, (init false true).trackEnterMain 0 0 0 = .ok s ∧ s.isCurrentThreadTracked 0 = true
      ∧ s.exceptionThrown 0 threadAbortException = .error .nullHistory ∧ ¬AbortsCleanly s 0 := by
  obtain ⟨s, hrun, hframes, -⟩ := trackEnterMain_hasFrames
    (hasFrames_zero.mpr (untracked_init false true 0)) (fun _ => rfl) 0 0
  have htracked : s.isCurrentThreadTracked 0 = true := hframes.tracked_iff.mpr Nat.one_pos
  refine ⟨s, hrun, htracked, exceptionThrown_abort htracked, ?_⟩
  rintro ⟨s', hrun', -⟩
  rw [exceptionThrown_abort htracked] at hrun'
  cases hrun'

end ProfilerState

end TestExecutor
