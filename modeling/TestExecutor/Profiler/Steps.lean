import TestExecutor.Library.Runs
import TestExecutor.Profiler.Probes

/-!
# The profiler one operation at a time

Threads call the profiler while others do.  A step is one operation on a `ThreadStorage`, which
holds its own lock, or on the data that a mutex of `CoverageTracker` protects; between two steps of
a thread any number of steps of other threads may come.

* `Task`, `Task.step` — the operations of the calls that work on the entries of their own thread;
* `Call`, `Call.start` — the calls, and their first operation;
* `HistoryPc`, `World.historyStep` — the operations of `GetHistory`;
* `World`, `World.step` — all threads, with the mutexes that `GetHistory` holds;
* `Bookkeeping`, `Task.step_bookkeeping` — what a step of a task leaves as it was.

Three fields of `World` are records of what has happened, which no step reads: the results of
`GetHistory`, the buffers that finished invocations pushed, and the threads that have stored no
history since the last `trackedCoverage->clear()`.
-/

namespace TestExecutor

open TestExecutor.Library ProfilerState

/-! ### The calls of a thread -/

/-- What a probe does behind `addCoverage`. -/
inductive AfterAdd where
  | stop
  -- `stackBalanceUp` of `Track_Enter`, `stackBalanceDown` of `Track_Leave` and `Track_LeaveMain`
  | up | down | mainDown
  deriving DecidableEq

/-- The next operation of a thread.  A history that was loaded belongs to its thread, so what is
read from it or appended to it later needs no step of its own. -/
inductive Task where
  -- probes
  | stackUp
  | stackDown
  | mainDown
  | tailcallDown (offset : UInt32) (methodId : Int32)
  | trackBalances (offset : UInt32) (methodId : Int32)
  | trackFilters (offset : UInt32) (methodId : Int32)
  | trackUp (offset : UInt32) (methodId : Int32)
  -- `addCoverage`
  | add (offset : UInt32) (event : CoverageEvent) (methodId : Int32) (after : AfterAdd)
  | addStore (offset : UInt32) (methodId : Int32) (after : AfterAdd)
  | addLoad (offset : UInt32) (event : CoverageEvent) (methodId : Int32) (after : AfterAdd)
  -- exception callbacks
  | filterUp
  | filterDown
  | unwindStore (functionId : FunctionID)
  | unwindLoad
  | unwindRemove (functionId : FunctionID)
  | unwindFilter
  | unwindBalance
  | abort
  -- `loseCurrentThread`, `onCurrentThreadFinished` and `invocationFinished`
  | lose
  | finishLoad
  | finishMapping (coverage : Option CoverageHistory)
  | finishMappedId (coverage : Option CoverageHistory)
  | finishVisit (coverage : Option CoverageHistory) (threadId : Int32)
  | finishRemove (history : CoverageHistory) (threadId : Int32)
  | finishPush (history : CoverageHistory) (threadId : Int32)
  | finishBalances
  | finishFilters
  | finishUnmap
  deriving DecidableEq

def AfterAdd.task : AfterAdd → Option Task
  | .stop => none
  | .up => some .stackUp
  | .down => some .stackDown
  | .mainDown => some .mainDown

/-- One operation: the state behind it, and the next operation of the thread, if any. -/
def Task.step (s : ProfilerState) (thread : ThreadID) :
    Task → Except Fault (ProfilerState × Option Task)
  | .stackUp => .ok (s.stackBalanceUp thread, none)
  | .stackDown => .ok ((s.stackBalanceDown thread).2, none)
  | .mainDown =>
      let (notEmpty, s) := s.stackBalanceDown thread
      .ok (s, if notEmpty then none else some .lose)
  | .tailcallDown offset methodId =>
      .ok ((s.stackBalanceDown thread).2, some (.add offset .tailcall methodId .stop))
  | .trackBalances offset methodId =>
      let s := s.profilerAssert .threadStorage !(ThreadStorage.exist s.stackBalances thread)
      .ok ({ s with stackBalances := ThreadStorage.store s.stackBalances thread 0 },
        some (.trackFilters offset methodId))
  | .trackFilters offset methodId =>
      let s := s.profilerAssert .threadStorage !(ThreadStorage.exist s.inFilterMapping thread)
      .ok ({ s with inFilterMapping := ThreadStorage.store s.inFilterMapping thread 0 },
        some (.trackUp offset methodId))
  | .trackUp offset methodId =>
      .ok (s.stackBalanceUp thread, some (.add offset .enterMain methodId .stop))
  | .add offset event methodId after =>
      let s := s.profilerAssert .coverageTracker (s.isCurrentThreadTracked thread)
      let mainOnly := s.collectMainOnly
      if ((event = .enterMain && mainOnly) || !mainOnly)
          && !ThreadStorage.exist s.trackedCoverage thread then
        .ok (s, some (.addStore offset methodId after))
      else .ok (s, some (.addLoad offset event methodId after))
  | .addStore offset methodId after =>
      .ok ({ s with
        trackedCoverage :=
          ThreadStorage.store s.trackedCoverage thread (some (.new thread offset methodId)) },
        after.task)
  | .addLoad offset event methodId after =>
      let s := s.profilerAssert .threadStorage (ThreadStorage.exist s.trackedCoverage thread)
      match ThreadStorage.load s.trackedCoverage thread with
      | none => .error .nullHistory
      | some history => .ok ({ s with
          trackedCoverage :=
            s.trackedCoverage.insert thread (history.addCoverage thread offset event methodId) },
          after.task)
  | .filterUp => .ok (s.filterEnter thread, none)
  | .filterDown => .ok (s.filterLeave thread, none)
  | .unwindStore functionId => .ok (s.unwindFunctionEnter thread functionId, none)
  | .unwindLoad =>
      let s := s.profilerAssert .threadTracker (s.isCurrentThreadTracked thread)
      let s := s.profilerAssert .threadStorage (ThreadStorage.exist s.unwindFunctionIds thread)
      .ok ({ s with unwindFunctionIds := ThreadStorage.touch s.unwindFunctionIds thread },
        some (.unwindRemove (ThreadStorage.load s.unwindFunctionIds thread)))
  | .unwindRemove functionId =>
      let s := s.profilerAssert .threadStorage (ThreadStorage.exist s.unwindFunctionIds thread)
      let s := { s with unwindFunctionIds := ThreadStorage.remove s.unwindFunctionIds thread }
      .ok (s, if s.collectMainOnly && decide (s.mainFunctionId ≠ functionId) then none
        else some .unwindFilter)
  | .unwindFilter =>
      let (inFilter, s) := s.isInFilter thread
      .ok (s, some (if inFilter then .unwindBalance else .mainDown))
  | .unwindBalance =>
      let (balance, s) := s.stackBalance thread
      .ok (s, if balance > 1 then some .mainDown else none)
  | .abort => .ok (s.invocationAborted thread, some .finishLoad)
  | .lose =>
      let s := s.profilerAssert .threadTracker (s.isCurrentThreadTracked thread)
      let s := s.profilerAssert .threadTracker
        (decide (ThreadStorage.load s.stackBalances thread = 0))
      let s := s.profilerAssert .threadTracker
        (decide (ThreadStorage.load s.inFilterMapping thread = 0))
      .ok (s, some .finishLoad)
  | .finishLoad =>
      let s := s.profilerAssert .threadStorage (ThreadStorage.exist s.trackedCoverage thread)
      .ok (s, some (.finishMapping (ThreadStorage.load s.trackedCoverage thread)))
  | .finishMapping coverage =>
      .ok (s, some (if s.hasMapping thread then .finishMappedId coverage
        else .finishVisit coverage 0))
  | .finishMappedId coverage =>
      let s := s.profilerAssert .threadStorage (ThreadStorage.exist s.threadIdMapping thread)
      .ok ({ s with threadIdMapping := ThreadStorage.touch s.threadIdMapping thread },
        some (.finishVisit coverage (ThreadStorage.load s.threadIdMapping thread)))
  | .finishVisit coverage threadId =>
      match coverage with
      | none => .error .nullHistory
      | some history =>
          .ok ({ s with visitedMethods := s.visitedMethods ∪ history.visitedMethods },
            some (.finishRemove history threadId))
  | .finishRemove history threadId =>
      let s := s.profilerAssert .threadStorage (ThreadStorage.exist s.trackedCoverage thread)
      .ok ({ s with trackedCoverage := ThreadStorage.remove s.trackedCoverage thread },
        some (.finishPush history threadId))
  | .finishPush history threadId =>
      .ok ({ s with
        serializedCoverageThreadIds := s.serializedCoverageThreadIds ++ [threadId]
        serializedCoverage := s.serializedCoverage ++ [reportBuffer threadId (some history)] },
        some .finishBalances)
  | .finishBalances =>
      let s := s.profilerAssert .threadStorage (ThreadStorage.exist s.stackBalances thread)
      .ok ({ s with stackBalances := ThreadStorage.remove s.stackBalances thread },
        some .finishFilters)
  | .finishFilters =>
      let s := s.profilerAssert .threadStorage (ThreadStorage.exist s.inFilterMapping thread)
      .ok ({ s with inFilterMapping := ThreadStorage.remove s.inFilterMapping thread },
        if s.isPassiveRun then none else some .finishUnmap)
  | .finishUnmap =>
      let s := s.profilerAssert .threadStorage (ThreadStorage.exist s.threadIdMapping thread)
      .ok ({ s with threadIdMapping := ThreadStorage.remove s.threadIdMapping thread }, none)

/-- The next operation of `GetHistory`: `serializeCoverageReport` up to the unlocking, then the two
`clear`s. -/
inductive HistoryPc where
  | lockCollected
  | lockSerialized
  -- the loop over the collected methods, at an index
  | methods (i : ℕ) (methodsToSerialize : List (Int32 × MethodInfo))
  | mapping (methodsToSerialize : List (Int32 × MethodInfo))
  | notEntered (methodsToSerialize : List (Int32 × MethodInfo))
      (threadMapping : List (ThreadID × Int32))
  | serialize (methodsToSerialize : List (Int32 × MethodInfo))
  | clearTracked
  | clearSerialized
  | unlockSerialized
  | unlockCollected
  | clearCoverage
  | clearMapping
  | clearBalances
  | clearUnwinds
  | clearFilters
  deriving DecidableEq

/-- What a thread is doing. -/
inductive Pc where
  | idle
  | task (task : Task)
  | history (pc : HistoryPc)
  deriving DecidableEq

def Pc.ofTask : Option Task → Pc
  | none => .idle
  | some t => .task t

/-- The calls that a thread can make. -/
inductive Call where
  | probe (probe : Probe) (offset : UInt32) (methodId : Int32)
  | filterEnter
  | filterLeave
  | unwindEnter (functionId : FunctionID)
  | unwindLeave
  | abort
  | setCurrentThreadId (mapId : Int32)
  | collectMethod (info : MethodInfo)
  | getHistory

/-- What a probe does behind its test of `isCurrentThreadTracked`. -/
def probeTask (s : ProfilerState) (tracked : Bool) (offset : UInt32) (methodId : Int32) :
    Probe → Option Task
  | .enterMain => some (if tracked then .stackUp else .trackBalances offset methodId)
  | .coverage => if tracked then some (.add offset .trackCoverage methodId .stop) else none
  | .stsfld => if tracked then some (.add offset .stsfldHit methodId .stop) else none
  | .branch => if tracked then some (.add offset .branchHit methodId .stop) else none
  | .call => if tracked then some (.add offset .call methodId .stop) else none
  | .throw => if tracked then some (.add offset .leave methodId .stop) else none
  | .tailcall => if tracked then some (.tailcallDown offset methodId) else none
  | .enter =>
      if !tracked then none
      else some (if !s.collectMainOnly then .add offset .enter methodId .up else .stackUp)
  | .leave =>
      if !tracked then none
      else some (if !s.collectMainOnly then .add offset .leave methodId .down else .stackDown)
  | .leaveMain => if tracked then some (.add offset .leaveMain methodId .mainDown) else none

/-- The first operation of a call: the test of `isCurrentThreadTracked`, `mapCurrentThread`, or the
locked part of `collectMethod`. -/
def Call.start (s : ProfilerState) (thread : ThreadID) : Call → ProfilerState × Pc
  | .probe p offset methodId =>
      (s, .ofTask (probeTask s (s.isCurrentThreadTracked thread) offset methodId p))
  | .filterEnter =>
      (s, if s.isFinished || !s.isCurrentThreadTracked thread then .idle else .task .filterUp)
  | .filterLeave =>
      (s, if s.isFinished || !s.isCurrentThreadTracked thread then .idle else .task .filterDown)
  | .unwindEnter functionId =>
      (s, if s.isCurrentThreadTracked thread then .task (.unwindStore functionId) else .idle)
  | .unwindLeave =>
      (s, if s.isFinished || !s.isCurrentThreadTracked thread then .idle else .task .unwindLoad)
  | .abort => (s, if s.isCurrentThreadTracked thread then .task .abort else .idle)
  | .setCurrentThreadId mapId => (s.mapCurrentThread thread mapId, .idle)
  | .collectMethod info => ((s.collectMethod info).2, .idle)
  | .getHistory => (s, .history .lockCollected)

/-- Does the first operation need `collectedMethodsMutex`? -/
def Call.needsCollected : Call → Bool
  | .collectMethod _ => true
  | _ => false

/-- Does the operation need `serializedCoverageMutex`? -/
def Task.needsSerialized : Task → Bool
  | .finishPush _ _ => true
  | _ => false

/-! ### All threads -/

/-- What `GetHistory` returns: the method table and the thread reports. -/
structure HistoryResult where
  methods : List (Int32 × MethodInfo)
  reports : List (List UInt8)

def HistoryResult.bytes (result : HistoryResult) : List UInt8 :=
  serializeMethods result.methods ++ serializeBuffers result.reports

structure World where
  profiler : ProfilerState
  pc : ThreadID → Pc
  collectedMethodsMutex : Option ThreadID
  serializedCoverageMutex : Option ThreadID
  -- the operation that went through a null history
  crashed : Option Task
  results : List HistoryResult
  pushed : List (List UInt8)
  cleared : ThreadID → Bool

namespace World

def init (isPassiveRun collectMainOnly : Bool) : World where
  profiler := .init isPassiveRun collectMainOnly
  pc := fun _ => .idle
  collectedMethodsMutex := none
  serializedCoverageMutex := none
  crashed := none
  results := []
  pushed := []
  cleared := fun _ => false

def setPc (w : World) (thread : ThreadID) (pc : Pc) : World :=
  { w with pc := Function.update w.pc thread pc }

/-- The records that a task leaves. -/
def note (w : World) (thread : ThreadID) : Task → World
  | .addStore _ _ _ => { w with cleared := Function.update w.cleared thread false }
  | .finishPush history threadId =>
      { w with pushed := w.pushed ++ [reportBuffer threadId (some history)] }
  | _ => w

def taskStep (w : World) (thread : ThreadID) (task : Task) : Option World :=
  if task.needsSerialized && w.serializedCoverageMutex.isSome then none
  else match task.step w.profiler thread with
    | .error _ => some { w with crashed := some task }
    | .ok (profiler, next) =>
        some ({ w with profiler }.note thread task |>.setPc thread (.ofTask next))

def historyStep (w : World) (thread : ThreadID) : HistoryPc → Option World
  | .lockCollected =>
      if w.collectedMethodsMutex.isSome then none
      else some ({ w with collectedMethodsMutex := some thread }.setPc thread
        (.history .lockSerialized))
  | .lockSerialized =>
      if w.serializedCoverageMutex.isSome then none
      else some ({ w with serializedCoverageMutex := some thread }.setPc thread
        (.history (.methods 0 [])))
  | .methods i found =>
      -- the loop counter is an `int`
      match (w.profiler.collectedMethods.take (2 ^ 31))[i]? with
      | none => some (w.setPc thread (.history (.mapping found)))
      | some info => some (w.setPc thread (.history (.methods (i + 1)
          (if Int32.ofNat i ∈ w.profiler.visitedMethods then found ++ [(Int32.ofNat i, info)]
          else found))))
  | .mapping found =>
      some (w.setPc thread (.history (.notEntered found w.profiler.getMapping)))
  | .notEntered found threadMapping =>
      some ({ w with profiler := addNotEntered threadMapping w.profiler }.setPc thread
        (.history (.serialize found)))
  | .serialize found =>
      let result : HistoryResult := ⟨found, w.profiler.serializedCoverage⟩
      some ({ w with results := w.results ++ [result] }.setPc thread (.history .clearTracked))
  | .clearTracked =>
      some ({ w with
        profiler := w.profiler.clearCoverage
        cleared := fun _ => true }.setPc thread (.history .clearSerialized))
  | .clearSerialized =>
      some ({ w with profiler := { w.profiler with serializedCoverage := [] } }.setPc thread
        (.history .unlockSerialized))
  | .unlockSerialized =>
      some ({ w with serializedCoverageMutex := none }.setPc thread (.history .unlockCollected))
  | .unlockCollected =>
      some ({ w with collectedMethodsMutex := none }.setPc thread (.history .clearCoverage))
  | .clearCoverage =>
      some ({ w with
        profiler := w.profiler.clearCoverage
        cleared := fun _ => true }.setPc thread (.history .clearMapping))
  | .clearMapping =>
      some ({ w with profiler := { w.profiler with threadIdMapping := OrderedMap.empty } }.setPc
        thread (.history .clearBalances))
  | .clearBalances =>
      some ({ w with profiler := { w.profiler with stackBalances := OrderedMap.empty } }.setPc
        thread (.history .clearUnwinds))
  | .clearUnwinds =>
      some ({ w with profiler := { w.profiler with unwindFunctionIds := OrderedMap.empty } }.setPc
        thread (.history .clearFilters))
  | .clearFilters =>
      some ({ w with profiler := { w.profiler with inFilterMapping := OrderedMap.empty } }.setPc
        thread .idle)

def callStep (w : World) (thread : ThreadID) (call : Call) : Option World :=
  if call.needsCollected && w.collectedMethodsMutex.isSome then none
  else
    let (profiler, next) := call.start w.profiler thread
    some ({ w with profiler }.setPc thread next)

end World

/-- A thread that is idle makes a call, or a thread takes the next step of its call. -/
inductive Act where
  | call (thread : ThreadID) (call : Call)
  | step (thread : ThreadID)

/-- One step of one thread; a crash ends the process. -/
def World.step (w : World) (act : Act) : Option World :=
  if w.crashed.isSome then none
  else match act with
    | .call thread call =>
        match w.pc thread with
        | .idle => w.callStep thread call
        | _ => none
    | .step thread =>
        match w.pc thread with
        | .idle => none
        | .task task => w.taskStep thread task
        | .history pc => w.historyStep thread pc

/-! ### What a step leaves as it was -/

/-- The tasks that change histories, visited methods or reports. -/
def Task.IsCoverage : Task → Prop
  | .addStore _ _ _ | .addLoad _ _ _ _ | .abort | .finishVisit _ _ | .finishRemove _ _
  | .finishPush _ _ => True
  | _ => False

/-- Only balances, filters, unwindings and mappings of the thread have changed. -/
structure Bookkeeping (s s' : ProfilerState) (thread : ThreadID) : Prop where
  others : SameOthers s s' thread
  histories_eq : s'.trackedCoverage = s.trackedCoverage
  visited_eq : s'.visitedMethods = s.visitedMethods
  collected_eq : s'.collectedMethods = s.collectedMethods
  reports_eq : s'.serializedCoverage = s.serializedCoverage
  mainOnly_eq : s'.collectMainOnly = s.collectMainOnly

namespace Bookkeeping

variable {s s' s'' : ProfilerState} {thread : ThreadID}

theorem refl (s : ProfilerState) (thread : ThreadID) : Bookkeeping s s thread :=
  ⟨⟨fun _ _ => rfl, fun _ _ => rfl, fun _ _ => rfl, fun _ _ => rfl, fun _ _ => rfl⟩, rfl, rfl, rfl,
    rfl, rfl⟩

theorem trans (h : Bookkeeping s s' thread) (h' : Bookkeeping s' s'' thread) :
    Bookkeeping s s'' thread where
  others := ⟨fun t ht => (h'.others.mapping t ht).trans (h.others.mapping t ht),
    fun t ht => (h'.others.balances t ht).trans (h.others.balances t ht),
    fun t ht => (h'.others.unwinding t ht).trans (h.others.unwinding t ht),
    fun t ht => (h'.others.filters t ht).trans (h.others.filters t ht),
    fun t ht => (h'.others.histories t ht).trans (h.others.histories t ht)⟩
  histories_eq := h'.histories_eq.trans h.histories_eq
  visited_eq := h'.visited_eq.trans h.visited_eq
  collected_eq := h'.collected_eq.trans h.collected_eq
  reports_eq := h'.reports_eq.trans h.reports_eq
  mainOnly_eq := h'.mainOnly_eq.trans h.mainOnly_eq

theorem assert (h : Bookkeeping s s' thread) (site : AssertSite) (e : Bool) :
    Bookkeeping s (s'.profilerAssert site e) thread := by
  obtain ⟨asserts, heq⟩ := profilerAssert_eq s' site e
  rw [heq]
  exact ⟨⟨h.others.mapping, h.others.balances, h.others.unwinding, h.others.filters,
    h.others.histories⟩, h.histories_eq, h.visited_eq, h.collected_eq, h.reports_eq, h.mainOnly_eq⟩

theorem mapping (h : Bookkeeping s s' thread) {m : ThreadStorage Int32}
    (hm : ∀ t ≠ thread, m.lookup t = s'.threadIdMapping.lookup t) :
    Bookkeeping s { s' with threadIdMapping := m } thread :=
  h.trans ⟨⟨hm, fun _ _ => rfl, fun _ _ => rfl, fun _ _ => rfl, fun _ _ => rfl⟩, rfl, rfl, rfl, rfl,
    rfl⟩

theorem balances (h : Bookkeeping s s' thread) {m : ThreadStorage ℤ}
    (hm : ∀ t ≠ thread, m.lookup t = s'.stackBalances.lookup t) :
    Bookkeeping s { s' with stackBalances := m } thread :=
  h.trans ⟨⟨fun _ _ => rfl, hm, fun _ _ => rfl, fun _ _ => rfl, fun _ _ => rfl⟩, rfl, rfl, rfl, rfl,
    rfl⟩

theorem unwinding (h : Bookkeeping s s' thread) {m : ThreadStorage FunctionID}
    (hm : ∀ t ≠ thread, m.lookup t = s'.unwindFunctionIds.lookup t) :
    Bookkeeping s { s' with unwindFunctionIds := m } thread :=
  h.trans ⟨⟨fun _ _ => rfl, fun _ _ => rfl, hm, fun _ _ => rfl, fun _ _ => rfl⟩, rfl, rfl, rfl, rfl,
    rfl⟩

theorem filters (h : Bookkeeping s s' thread) {m : ThreadStorage ℤ}
    (hm : ∀ t ≠ thread, m.lookup t = s'.inFilterMapping.lookup t) :
    Bookkeeping s { s' with inFilterMapping := m } thread :=
  h.trans ⟨⟨fun _ _ => rfl, fun _ _ => rfl, fun _ _ => rfl, hm, fun _ _ => rfl⟩, rfl, rfl, rfl, rfl,
    rfl⟩

theorem stackBalanceUp (s : ProfilerState) (thread : ThreadID) :
    Bookkeeping s (s.stackBalanceUp thread) thread :=
  (((refl s thread).assert _ _).assert _ _).balances
    fun _ ht => OrderedMap.lookup_insert_of_ne _ _ ht

theorem stackBalanceDown (s : ProfilerState) (thread : ThreadID) :
    Bookkeeping s (s.stackBalanceDown thread).2 thread :=
  ((((refl s thread).assert _ _).assert _ _).balances
    fun _ ht => OrderedMap.lookup_insert_of_ne _ _ ht).assert _ _

end Bookkeeping

open Bookkeeping

variable {s s' s'' : ProfilerState} {thread : ThreadID}

/-- A task that is about no coverage changes entries of its own thread only. -/
theorem Task.step_bookkeeping {task : Task} {next : Option Task}
    (h : task.step s thread = .ok (s', next)) (hplain : ¬task.IsCoverage) :
    Bookkeeping s s' thread := by
  have inserted : ∀ {V : Type} (m : ThreadStorage V) (v : V), ∀ t ≠ thread,
      (m.insert thread v).lookup t = m.lookup t := fun _ _ _ ht =>
    OrderedMap.lookup_insert_of_ne _ _ ht
  have erased : ∀ {V : Type} (m : ThreadStorage V), ∀ t ≠ thread,
      (m.erase thread).lookup t = m.lookup t := fun _ _ ht =>
    OrderedMap.lookup_erase_of_ne _ ht
  have done : ∀ {a : ProfilerState} {n : Option Task},
      (Except.ok (a, n) : Except Fault (ProfilerState × Option Task)) = .ok (s', next) →
      Bookkeeping s a thread → Bookkeeping s s' thread := by
    intro a n heq hb
    obtain ⟨rfl, rfl⟩ := Prod.mk.inj (Except.ok.inj heq)
    exact hb
  cases task with
  | stackUp => exact done h (.stackBalanceUp s thread)
  | stackDown => exact done h (.stackBalanceDown s thread)
  | mainDown => exact done h (.stackBalanceDown s thread)
  | tailcallDown offset methodId => exact done h (.stackBalanceDown s thread)
  | trackUp offset methodId => exact done h (.stackBalanceUp s thread)
  | trackBalances offset methodId =>
      exact done h (((refl s thread).assert _ _).balances (inserted _ _))
  | trackFilters offset methodId =>
      exact done h (((refl s thread).assert _ _).filters (inserted _ _))
  | filterUp =>
      exact done h ((((refl s thread).assert _ _).assert _ _).filters (inserted _ _))
  | filterDown =>
      exact done h ((((refl s thread).assert _ _).assert _ _).filters (inserted _ _))
  | unwindStore functionId =>
      exact done h ((((refl s thread).assert _ _).assert _ _).unwinding (inserted _ _))
  | unwindLoad =>
      exact done h ((((refl s thread).assert _ _).assert _ _).unwinding (inserted _ _))
  | unwindRemove functionId =>
      exact done h (((refl s thread).assert _ _).unwinding (erased _))
  | unwindFilter =>
      exact done h ((((refl s thread).assert _ _).assert _ _).filters (inserted _ _))
  | unwindBalance =>
      exact done h (((((refl s thread).assert _ _).assert _ _).balances (inserted _ _)).assert _ _)
  | lose => exact done h ((((refl s thread).assert _ _).assert _ _).assert _ _)
  | finishLoad => exact done h ((refl s thread).assert _ _)
  | finishMapping coverage => exact done h (refl s thread)
  | finishMappedId coverage =>
      exact done h (((refl s thread).assert _ _).mapping (inserted _ _))
  | finishBalances => exact done h (((refl s thread).assert _ _).balances (erased _))
  | finishFilters => exact done h (((refl s thread).assert _ _).filters (erased _))
  | finishUnmap => exact done h (((refl s thread).assert _ _).mapping (erased _))
  | add offset event methodId after =>
      simp only [Task.step] at h
      split at h
      · exact done h ((refl s thread).assert _ _)
      · exact done h ((refl s thread).assert _ _)
  | addStore offset methodId after => exact absurd trivial hplain
  | addLoad offset event methodId after => exact absurd trivial hplain
  | abort => exact absurd trivial hplain
  | finishVisit coverage threadId => exact absurd trivial hplain
  | finishRemove history threadId => exact absurd trivial hplain
  | finishPush history threadId => exact absurd trivial hplain

/-- No task adds a method, and only the push changes the buffers. -/
theorem Task.step_lists {task : Task} {next : Option Task}
    (hok : task.step s thread = .ok (s', next)) : s'.collectedMethods = s.collectedMethods
      ∧ (task.needsSerialized = false → s'.serializedCoverage = s.serializedCoverage) := by
  have goes : ∀ {a : ProfilerState} {n : Option Task},
      (Except.ok (a, n) : Except Fault (ProfilerState × Option Task)) = .ok (s', next) →
      a = s' := fun heq => (Prod.mk.inj (Except.ok.inj heq)).1
  obtain ⟨asserts, hassert⟩ := profilerAssert_eq s .threadStorage
    (ThreadStorage.exist s.trackedCoverage thread)
  by_cases hplain : task.IsCoverage
  · cases task with
    | addStore offset methodId after =>
        obtain rfl := goes hok
        exact ⟨rfl, fun _ => rfl⟩
    | addLoad offset event methodId after =>
        simp only [Task.step, hassert] at hok
        split at hok
        · cases hok
        · obtain rfl := goes hok
          exact ⟨rfl, fun _ => rfl⟩
    | abort =>
        simp only [Task.step, invocationAborted, hassert] at hok
        obtain rfl := goes hok
        exact ⟨rfl, fun _ => rfl⟩
    | finishVisit coverage threadId =>
        cases coverage with
        | none => cases hok
        | some history =>
            obtain rfl := goes hok
            exact ⟨rfl, fun _ => rfl⟩
    | finishRemove history threadId =>
        simp only [Task.step, hassert] at hok
        obtain rfl := goes hok
        exact ⟨rfl, fun _ => rfl⟩
    | finishPush history threadId =>
        obtain rfl := goes hok
        exact ⟨rfl, fun hpush => by cases hpush⟩
    | _ => exact absurd hplain id
  · have hbook := Task.step_bookkeeping hok hplain
    exact ⟨hbook.collected_eq, fun _ => hbook.reports_eq⟩

/-! ### What a step of the world is -/

variable {w w' : World}

/-- A step is the first one of a call, or the next one of a task or of a collection. -/
theorem World.step_cases {act : Act} (h : w.step act = some w') : w.crashed = none
    ∧ ((∃ thread call, act = .call thread call ∧ w.pc thread = .idle
        ∧ w.callStep thread call = some w')
      ∨ (∃ thread task, act = .step thread ∧ w.pc thread = .task task
        ∧ w.taskStep thread task = some w')
      ∨ ∃ thread pc, act = .step thread ∧ w.pc thread = .history pc
        ∧ w.historyStep thread pc = some w') := by
  unfold World.step at h
  split at h
  · cases h
  · rename_i hcrash
    refine ⟨by simpa using hcrash, ?_⟩
    cases act with
    | call thread call =>
        dsimp only at h
        split at h
        · rename_i hpc
          exact Or.inl ⟨thread, call, rfl, hpc, h⟩
        · cases h
    | step thread =>
        dsimp only at h
        split at h
        · cases h
        · rename_i task hpc
          exact Or.inr (Or.inl ⟨thread, task, rfl, hpc, h⟩)
        · rename_i pc hpc
          exact Or.inr (Or.inr ⟨thread, pc, rfl, hpc, h⟩)

/-- A task crashes, or takes its step; the push waits for the mutex. -/
theorem World.taskStep_cases {task : Task} (h : w.taskStep thread task = some w') :
    w' = { w with crashed := some task }
      ∨ ∃ s' next, task.step w.profiler thread = .ok (s', next)
        ∧ (task.needsSerialized = true → w.serializedCoverageMutex = none)
        ∧ w' = ({ w with profiler := s' }.note thread task).setPc thread (.ofTask next) := by
  rw [World.taskStep] at h
  split at h
  · cases h
  · rename_i hwaits
    split at h
    · exact Or.inl (Option.some.inj h).symm
    · rename_i s' next hok
      refine Or.inr ⟨s', next, hok, fun hneeds => ?_, (Option.some.inj h).symm⟩
      simpa [hneeds] using hwaits

/-- The step of a task that is about no coverage. -/
theorem World.note_of_plain {task : Task} (h : ¬task.IsCoverage) (w : World) :
    w.note thread task = w := by
  cases task <;> first | rfl | exact absurd trivial h

@[simp] theorem World.note_profiler (w : World) (thread : ThreadID) (task : Task) :
    (w.note thread task).profiler = w.profiler := by
  cases task <;> rfl

/-- Only the push is recorded beside the results. -/
theorem World.note_records (w : World) (thread : ThreadID) {task : Task}
    (hpush : task.needsSerialized = false) :
    (w.note thread task).results = w.results ∧ (w.note thread task).pushed = w.pushed := by
  cases task with
  | finishPush history threadId => cases hpush
  | _ => exact ⟨rfl, rfl⟩

/-- The first step of a call adds a method under its mutex, or changes the mapping of its thread at
most. -/
theorem World.callStep_cases {call : Call} (h : w.callStep thread call = some w') :
    (∃ info, call = .collectMethod info ∧ w.collectedMethodsMutex = none
      ∧ w' = { w with profiler := (w.profiler.collectMethod info).2 }.setPc thread .idle)
    ∨ ∃ s', Bookkeeping w.profiler s' thread ∧ s'.stackBalances = w.profiler.stackBalances
      ∧ w' = { w with profiler := s' }.setPc thread (call.start w.profiler thread).2 := by
  rw [World.callStep] at h
  split at h
  · cases h
  · rename_i hwaits
    obtain rfl := Option.some.inj h
    cases call with
    | collectMethod info =>
        exact Or.inl ⟨info, rfl, by simpa [Call.needsCollected] using hwaits, rfl⟩
    | setCurrentThreadId mapId =>
        refine Or.inr ⟨w.profiler.mapCurrentThread thread mapId,
          ((refl w.profiler thread).assert _ _).mapping
            fun _ hu => OrderedMap.lookup_insert_of_ne _ _ hu, ?_, rfl⟩
        obtain ⟨asserts, hassert⟩ := profilerAssert_eq w.profiler .threadStorage
          (!(ThreadStorage.exist w.profiler.threadIdMapping thread))
        rw [mapCurrentThread, hassert]
    | _ => exact Or.inr ⟨w.profiler, refl _ _, rfl, rfl⟩

@[simp] theorem World.setPc_pc_self (w : World) (thread : ThreadID) (pc : Pc) :
    (w.setPc thread pc).pc thread = pc := Function.update_self _ _ _

theorem World.setPc_pc_of_ne (w : World) {u : ThreadID} (pc : Pc) (h : u ≠ thread) :
    (w.setPc thread pc).pc u = w.pc u := Function.update_of_ne h _ _

end TestExecutor
