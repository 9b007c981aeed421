import TestExecutor.Profiler.CoverageTracker

/-!
# Tracking threads

`threadTracker.cpp`: which threads are inside an invocation, how many frames each has and how
many exception filters it runs.

* the operations of `ThreadTracker`, each with its `profiler_assert`s;
* `Tracked s thread balance filters` — the thread is tracked with that stack balance and that
  number of open filters, and its invocation has a history;
* one lemma per operation on a tracked thread: `stackBalanceUp_tracked`,
  `stackBalanceDown_tracked`, `filterEnter_tracked`, `filterLeave_tracked`,
  `isInFilter_tracked`, `stackBalance_tracked`, `loseCurrentThread_tracked`;
* `finished` — the state behind the end of an invocation.
-/

namespace TestExecutor

open TestExecutor.Library

namespace ProfilerState

variable (s : ProfilerState) (thread : ThreadID)

/-! ### The operations -/

def trackCurrentThread : ProfilerState :=
  let s := s.profilerAssert .threadStorage !(ThreadStorage.exist s.stackBalances thread)
  let s := { s with stackBalances := ThreadStorage.store s.stackBalances thread 0 }
  let s := s.profilerAssert .threadStorage !(ThreadStorage.exist s.inFilterMapping thread)
  { s with inFilterMapping := ThreadStorage.store s.inFilterMapping thread 0 }

def stackBalanceUp : ProfilerState :=
  let s := s.profilerAssert .threadTracker (s.isCurrentThreadTracked thread)
  let s := s.profilerAssert .threadStorage (ThreadStorage.exist s.stackBalances thread)
  { s with stackBalances := ThreadStorage.update s.stackBalances thread fun value => value + 1 }

/-- `stackBalance`: the balance, and the state behind the read. -/
def stackBalance : ℤ × ProfilerState :=
  let s := s.profilerAssert .threadTracker (s.isCurrentThreadTracked thread)
  let s := s.profilerAssert .threadStorage (ThreadStorage.exist s.stackBalances thread)
  let balance := ThreadStorage.load s.stackBalances thread
  let s := { s with stackBalances := ThreadStorage.touch s.stackBalances thread }
  (balance, s.profilerAssert .threadTracker (decide (0 ≤ balance)))

/-- `stackBalanceDown`: `true` if the stack is not empty. -/
def stackBalanceDown : Bool × ProfilerState :=
  let s := s.profilerAssert .threadTracker (s.isCurrentThreadTracked thread)
  let s := s.profilerAssert .threadStorage (ThreadStorage.exist s.stackBalances thread)
  let s :=
    { s with stackBalances := ThreadStorage.update s.stackBalances thread fun value => value - 1 }
  let newBalance := ThreadStorage.load s.stackBalances thread
  (decide (newBalance ≠ 0), s.profilerAssert .threadTracker (decide (0 ≤ newBalance)))

def onCurrentThreadFinished : Except Fault ProfilerState := do
  let s ← s.invocationFinished thread
  let s := s.profilerAssert .threadStorage (ThreadStorage.exist s.stackBalances thread)
  let s := { s with stackBalances := ThreadStorage.remove s.stackBalances thread }
  let s := s.profilerAssert .threadStorage (ThreadStorage.exist s.inFilterMapping thread)
  let s := { s with inFilterMapping := ThreadStorage.remove s.inFilterMapping thread }
  if s.isPassiveRun then pure s
  else
    let s := s.profilerAssert .threadStorage (ThreadStorage.exist s.threadIdMapping thread)
    pure { s with threadIdMapping := ThreadStorage.remove s.threadIdMapping thread }

def loseCurrentThread : Except Fault ProfilerState :=
  let s := s.profilerAssert .threadTracker (s.isCurrentThreadTracked thread)
  let s := s.profilerAssert .threadTracker
    (decide (ThreadStorage.load s.stackBalances thread = 0))
  let s := s.profilerAssert .threadTracker
    (decide (ThreadStorage.load s.inFilterMapping thread = 0))
  s.onCurrentThreadFinished thread

def abortCurrentThread : Except Fault ProfilerState := s.onCurrentThreadFinished thread

def filterEnter : ProfilerState :=
  let s := s.profilerAssert .threadTracker (s.isCurrentThreadTracked thread)
  let s := s.profilerAssert .threadStorage (ThreadStorage.exist s.inFilterMapping thread)
  { s with
    inFilterMapping := ThreadStorage.update s.inFilterMapping thread fun value => value + 1 }

def filterLeave : ProfilerState :=
  let s := s.profilerAssert .threadTracker (s.isCurrentThreadTracked thread)
  let s := s.profilerAssert .threadStorage (ThreadStorage.exist s.inFilterMapping thread)
  { s with
    inFilterMapping := ThreadStorage.update s.inFilterMapping thread fun value => value - 1 }

/-- `isInFilter`: the answer, and the state behind the read. -/
def isInFilter : Bool × ProfilerState :=
  let s := s.profilerAssert .threadTracker (s.isCurrentThreadTracked thread)
  let s := s.profilerAssert .threadStorage (ThreadStorage.exist s.inFilterMapping thread)
  (decide (ThreadStorage.load s.inFilterMapping thread > 0),
    { s with inFilterMapping := ThreadStorage.touch s.inFilterMapping thread })

/-- `isCorrectFunctionId`: `incorrectFunctionId` is `0`. -/
def isCorrectFunctionId (functionId : FunctionID) : Bool := decide (0 ≠ functionId)

def unwindFunctionEnter (functionId : FunctionID) : ProfilerState :=
  let s := s.profilerAssert .threadTracker (s.isCurrentThreadTracked thread)
  let s := s.profilerAssert .threadTracker (isCorrectFunctionId functionId)
  { s with
    unwindFunctionIds := ThreadStorage.storeOrUpdate s.unwindFunctionIds thread functionId }

def unwindFunctionLeave : Except Fault ProfilerState :=
  let s := s.profilerAssert .threadTracker (s.isCurrentThreadTracked thread)
  let s := s.profilerAssert .threadStorage (ThreadStorage.exist s.unwindFunctionIds thread)
  let functionId := ThreadStorage.load s.unwindFunctionIds thread
  let s := { s with unwindFunctionIds := ThreadStorage.remove s.unwindFunctionIds thread }
  if s.collectMainOnly && decide (s.mainFunctionId ≠ functionId) then .ok s
  else
    let (inFilter, s) := s.isInFilter thread
    -- `stackBalance` is only called inside a filter
    let (popped, s) :=
      if inFilter then
        let (balance, s) := s.stackBalance thread
        (decide (balance > 1), s)
      else (true, s)
    if popped then
      let (notEmpty, s) := s.stackBalanceDown thread
      if notEmpty then .ok s else s.loseCurrentThread thread
    else .ok s

def mapCurrentThread (mapId : Int32) : ProfilerState :=
  let s := s.profilerAssert .threadStorage !(ThreadStorage.exist s.threadIdMapping thread)
  { s with threadIdMapping := ThreadStorage.store s.threadIdMapping thread mapId }

/-- `ThreadTracker::clear`. -/
def clearThreads : ProfilerState :=
  { s with
    threadIdMapping := OrderedMap.empty
    stackBalances := OrderedMap.empty
    unwindFunctionIds := OrderedMap.empty
    inFilterMapping := OrderedMap.empty }

/-! ### Tracked threads -/

/-- The thread is inside an invocation: it has a stack balance, a filter count and a history. -/
structure Tracked (s : ProfilerState) (thread : ThreadID) (balance filters : ℤ)
    (history : CoverageHistory) : Prop where
  balance_eq : s.stackBalances.lookup thread = some balance
  filters_eq : s.inFilterMapping.lookup thread = some filters
  history_eq : s.trackedCoverage.lookup thread = some (some history)

/-- The thread is outside every invocation. -/
structure Untracked (s : ProfilerState) (thread : ThreadID) : Prop where
  balance_eq : s.stackBalances.lookup thread = none
  filters_eq : s.inFilterMapping.lookup thread = none
  history_eq : s.trackedCoverage.lookup thread = none

/-- The other threads have what they had. -/
structure SameOthers (s s' : ProfilerState) (thread : ThreadID) : Prop where
  mapping : ∀ t ≠ thread, s'.threadIdMapping.lookup t = s.threadIdMapping.lookup t
  balances : ∀ t ≠ thread, s'.stackBalances.lookup t = s.stackBalances.lookup t
  unwinding : ∀ t ≠ thread, s'.unwindFunctionIds.lookup t = s.unwindFunctionIds.lookup t
  filters : ∀ t ≠ thread, s'.inFilterMapping.lookup t = s.inFilterMapping.lookup t
  histories : ∀ t ≠ thread, s'.trackedCoverage.lookup t = s.trackedCoverage.lookup t

variable {s thread} {s' : ProfilerState} {balance filters : ℤ} {history : CoverageHistory}

theorem Tracked.isCurrentThreadTracked (h : Tracked s thread balance filters history) :
    s.isCurrentThreadTracked thread = true :=
  ThreadStorage.exist_eq_true.mpr ⟨_, h.balance_eq⟩

theorem Untracked.isCurrentThreadTracked (h : Untracked s thread) :
    s.isCurrentThreadTracked thread = false := ThreadStorage.exist_eq_false.mpr h.balance_eq

theorem Tracked.exist_balance (h : Tracked s thread balance filters history) :
    ThreadStorage.exist s.stackBalances thread = true :=
  ThreadStorage.exist_eq_true.mpr ⟨_, h.balance_eq⟩

theorem Tracked.exist_filters (h : Tracked s thread balance filters history) :
    ThreadStorage.exist s.inFilterMapping thread = true :=
  ThreadStorage.exist_eq_true.mpr ⟨_, h.filters_eq⟩

theorem SameOthers.tracked (h : SameOthers s s' thread) {t : ThreadID} (ht : t ≠ thread)
    (htr : Tracked s t balance filters history) :
    Tracked s' t balance filters history :=
  ⟨(h.balances t ht).trans htr.balance_eq, (h.filters t ht).trans htr.filters_eq,
    (h.histories t ht).trans htr.history_eq⟩

theorem SameOthers.untracked (h : SameOthers s s' thread) {t : ThreadID} (ht : t ≠ thread)
    (hun : Untracked s t) : Untracked s' t :=
  ⟨(h.balances t ht).trans hun.balance_eq, (h.filters t ht).trans hun.filters_eq,
    (h.histories t ht).trans hun.history_eq⟩

/-! ### One lemma per operation -/

theorem stackBalanceUp_tracked (h : Tracked s thread balance filters history) :
    s.stackBalanceUp thread
      = { s with stackBalances := s.stackBalances.insert thread (balance + 1) } := by
  simp [stackBalanceUp, h.isCurrentThreadTracked, h.exist_balance, ThreadStorage.update,
    ThreadStorage.load_of_lookup h.balance_eq]

theorem stackBalanceDown_tracked (h : Tracked s thread balance filters history)
    (hpos : 1 ≤ balance) :
    s.stackBalanceDown thread
      = (decide (balance - 1 ≠ 0),
          { s with stackBalances := s.stackBalances.insert thread (balance - 1) }) := by
  have hload : ThreadStorage.load (s.stackBalances.insert thread (balance - 1)) thread
      = balance - 1 := ThreadStorage.load_of_lookup (OrderedMap.lookup_insert_self _ _ _)
  have hnonneg : decide (0 ≤ balance - 1) = true := by simpa using (by omega : 0 ≤ balance - 1)
  simp only [stackBalanceDown, h.isCurrentThreadTracked, h.exist_balance, ThreadStorage.update,
    ThreadStorage.load_of_lookup h.balance_eq, profilerAssert_true, hload, hnonneg]

theorem filterEnter_tracked (h : Tracked s thread balance filters history) :
    s.filterEnter thread
      = { s with inFilterMapping := s.inFilterMapping.insert thread (filters + 1) } := by
  simp [filterEnter, h.isCurrentThreadTracked, h.exist_filters, ThreadStorage.update,
    ThreadStorage.load_of_lookup h.filters_eq]

theorem filterLeave_tracked (h : Tracked s thread balance filters history) :
    s.filterLeave thread
      = { s with inFilterMapping := s.inFilterMapping.insert thread (filters - 1) } := by
  simp [filterLeave, h.isCurrentThreadTracked, h.exist_filters, ThreadStorage.update,
    ThreadStorage.load_of_lookup h.filters_eq]

theorem isInFilter_tracked (h : Tracked s thread balance filters history) :
    s.isInFilter thread = (decide (filters > 0), s) := by
  have htouch : ThreadStorage.touch s.inFilterMapping thread = s.inFilterMapping := by
    rw [ThreadStorage.touch, ThreadStorage.load_of_lookup h.filters_eq]
    exact OrderedMap.insert_of_lookup h.filters_eq
  simp only [isInFilter, h.isCurrentThreadTracked, h.exist_filters, profilerAssert_true,
    ThreadStorage.load_of_lookup h.filters_eq, htouch]

theorem stackBalance_tracked (h : Tracked s thread balance filters history) (hnonneg : 0 ≤ balance) :
    s.stackBalance thread = (balance, s) := by
  have htouch : ThreadStorage.touch s.stackBalances thread = s.stackBalances := by
    rw [ThreadStorage.touch, ThreadStorage.load_of_lookup h.balance_eq]
    exact OrderedMap.insert_of_lookup h.balance_eq
  have hdec : decide (0 ≤ balance) = true := by simpa using hnonneg
  simp only [stackBalance, h.isCurrentThreadTracked, h.exist_balance, profilerAssert_true,
    ThreadStorage.load_of_lookup h.balance_eq, htouch, hdec]

/-- The state behind the end of an invocation: one report more, the thread in none of the
per-thread maps; removing the mapping of an unmapped thread fails an assertion. -/
def finished (s : ProfilerState) (thread : ThreadID) (history : CoverageHistory) : ProfilerState :=
  { s with
    stackBalances := s.stackBalances.erase thread
    inFilterMapping := s.inFilterMapping.erase thread
    trackedCoverage := s.trackedCoverage.erase thread
    threadIdMapping := if s.isPassiveRun then s.threadIdMapping else s.threadIdMapping.erase thread
    visitedMethods := s.visitedMethods ∪ history.visitedMethods
    serializedCoverageThreadIds := s.serializedCoverageThreadIds ++ [s.mappedId thread]
    serializedCoverage :=
      s.serializedCoverage ++ [reportBuffer (s.mappedId thread) (some history)]
    failedAsserts :=
      if s.isPassiveRun || s.hasMapping thread then s.failedAsserts
      else s.failedAsserts ++ [.threadStorage] }

theorem onCurrentThreadFinished_tracked (h : Tracked s thread balance filters history) :
    s.onCurrentThreadFinished thread = .ok (s.finished thread history) := by
  have hfilters : ThreadStorage.exist s.inFilterMapping thread = true := h.exist_filters
  have hbalance : ThreadStorage.exist s.stackBalances thread = true := h.exist_balance
  cases hpassive : s.isPassiveRun with
  | true =>
      simp [onCurrentThreadFinished, invocationFinished_spec h.history_eq, hfilters, hbalance,
        hpassive, finished, ThreadStorage.remove, bind, Except.bind, pure, Except.pure]
  | false =>
      cases hmap : s.hasMapping thread with
      | true =>
          have hmap' : ThreadStorage.exist s.threadIdMapping thread = true := hmap
          simp [onCurrentThreadFinished, invocationFinished_spec h.history_eq, hfilters, hbalance,
            hpassive, hmap, hmap', finished, ThreadStorage.remove, bind, Except.bind, pure,
            Except.pure]
      | false =>
          have hmap' : ThreadStorage.exist s.threadIdMapping thread = false := hmap
          simp [onCurrentThreadFinished, invocationFinished_spec h.history_eq, hfilters, hbalance,
            hpassive, hmap, hmap', finished, ThreadStorage.remove, bind, Except.bind, pure,
            Except.pure, profilerAssert]

theorem loseCurrentThread_tracked (h : Tracked s thread 0 0 history) :
    s.loseCurrentThread thread = .ok (s.finished thread history) := by
  simp only [loseCurrentThread, h.isCurrentThreadTracked, profilerAssert_true,
    ThreadStorage.load_of_lookup h.balance_eq, ThreadStorage.load_of_lookup h.filters_eq,
    decide_true]
  exact onCurrentThreadFinished_tracked h

theorem finished_untracked (s : ProfilerState) (thread : ThreadID) (history : CoverageHistory) :
    Untracked (s.finished thread history) thread :=
  ⟨OrderedMap.lookup_erase_self _ _, OrderedMap.lookup_erase_self _ _,
    OrderedMap.lookup_erase_self _ _⟩

/-- No assertion of `ThreadTracker` fails when an invocation ends. -/
theorem finished_failedAsserts (hs : AssertSite.threadTracker ∉ s.failedAsserts) :
    AssertSite.threadTracker ∉ (s.finished thread history).failedAsserts := by
  unfold finished
  dsimp only
  split
  · exact hs
  · simpa using hs

end ProfilerState

end TestExecutor
