import TestExecutor.Library.Utf16
import TestExecutor.Profiler.State

/-!
# Recording and serializing coverage

`coverageTracker.cpp` over `ProfilerState`: a probe's record is appended to the history of its
thread, a finished invocation turns the history into a byte buffer, and
`serializeCoverageReport` packs the collected methods and the pending buffers into one array.

* `MethodInfo.serialize`, `CoverageRecord.serialize`, `CoverageHistory.serialize` — the layouts;
* `addCoverage`, `invocationFinished`, `invocationAborted`, `collectMethod`,
  `serializeCoverageReport`, `clearCoverage` — the operations of `CoverageTracker`;
* `addCoverage_append`, `invocationFinished_spec` — what they do on a thread that has a history;
* `reportBuffer` — the bytes of one thread report, of a finished or of an aborted invocation.
-/

namespace TestExecutor

open TestExecutor.Library

/-! ### Layouts -/

/-- `serializePrimitive` of an `int`. -/
def serializeInt (x : Int32) : List UInt8 := leBytes 4 x.toBitVec.toNat

/-- `serializePrimitive` of an unsigned 32-bit word. -/
def serializeUInt32 (x : UInt32) : List UInt8 := leBytes 4 x.toNat

/-- `serializePrimitiveArray` of a `WCHAR` array. -/
def serializeWchars (name : List UInt16) : List UInt8 := utf16Bytes name

def MethodInfo.serialize (info : MethodInfo) : List UInt8 :=
  serializeUInt32 info.token
    ++ (serializeUInt32 info.assemblyNameLength ++ serializeWchars info.assemblyName)
    ++ (serializeUInt32 info.moduleNameLength ++ serializeWchars info.moduleName)

def CoverageRecord.serialize (record : CoverageRecord) : List UInt8 :=
  serializeUInt32 record.offset ++ (serializeInt record.event.value
    ++ (serializeInt record.methodId ++ leBytes 8 record.thread.val))

def CoverageHistory.serialize (history : CoverageHistory) : List UInt8 :=
  serializeInt (Int32.ofNat history.records.length)
    ++ history.records.flatMap CoverageRecord.serialize

/-- One thread report: the mapped thread id, then `1` for an aborted (or never started)
invocation, or `0` and the history. -/
def reportBuffer (threadId : Int32) : Option CoverageHistory → List UInt8
  | none => serializeInt threadId ++ serializeInt 1
  | some history => serializeInt threadId ++ (serializeInt 0 ++ history.serialize)

/-! ### Histories -/

/-- The constructor of `CoverageHistory`: its first record is always an `EnterMain`. -/
def CoverageHistory.new (thread : ThreadID) (offset : UInt32) (methodId : Int32) :
    CoverageHistory where
  records := [⟨offset, .enterMain, thread, methodId⟩]
  visitedMethods := {methodId}

def CoverageHistory.addCoverage (history : CoverageHistory) (thread : ThreadID) (offset : UInt32)
    (event : CoverageEvent) (methodId : Int32) : CoverageHistory where
  records := history.records ++ [⟨offset, event, thread, methodId⟩]
  visitedMethods := insert methodId history.visitedMethods

namespace ProfilerState

variable (s : ProfilerState) (thread : ThreadID)

/-! ### The part of `ThreadTracker` that `CoverageTracker` reads -/

def isCurrentThreadTracked : Bool := ThreadStorage.exist s.stackBalances thread

def hasMapping : Bool := ThreadStorage.exist s.threadIdMapping thread

def getMapping : List (ThreadID × Int32) := s.threadIdMapping.entries

/-- The mapped id that reports carry: `0` for a thread without a mapping. -/
def mappedId : Int32 :=
  if s.hasMapping thread then ThreadStorage.load s.threadIdMapping thread else 0

/-! ### The operations -/

def addCoverage (offset : UInt32) (event : CoverageEvent) (methodId : Int32) :
    Except Fault ProfilerState :=
  let s := s.profilerAssert .coverageTracker (s.isCurrentThreadTracked thread)
  let mainOnly := s.collectMainOnly
  if ((event = .enterMain && mainOnly) || !mainOnly)
      && !ThreadStorage.exist s.trackedCoverage thread then
    .ok { s with
      trackedCoverage :=
        ThreadStorage.store s.trackedCoverage thread (some (.new thread offset methodId)) }
  else
    let s := s.profilerAssert .threadStorage (ThreadStorage.exist s.trackedCoverage thread)
    match ThreadStorage.load s.trackedCoverage thread with
    | none => .error .nullHistory
    | some history => .ok { s with
        trackedCoverage :=
          s.trackedCoverage.insert thread (history.addCoverage thread offset event methodId) }

/-- `invocationFinished`.  The visited methods are read through `coverage` before the test that
would have found it null. -/
def invocationFinished : Except Fault ProfilerState :=
  let s := s.profilerAssert .threadStorage (ThreadStorage.exist s.trackedCoverage thread)
  let coverage := ThreadStorage.load s.trackedCoverage thread
  let threadId := s.mappedId thread
  match coverage with
  | none => .error .nullHistory
  | some history =>
      .ok { s with
        visitedMethods := s.visitedMethods ∪ history.visitedMethods
        trackedCoverage := ThreadStorage.remove s.trackedCoverage thread
        serializedCoverageThreadIds := s.serializedCoverageThreadIds ++ [threadId]
        serializedCoverage := s.serializedCoverage ++ [reportBuffer threadId coverage] }

def invocationAborted : ProfilerState :=
  let s := s.profilerAssert .threadStorage (ThreadStorage.exist s.trackedCoverage thread)
  { s with trackedCoverage := ThreadStorage.update s.trackedCoverage thread fun _ => none }

/-- `collectMethod`: the new method's id is its index. -/
def collectMethod (info : MethodInfo) : ℕ × ProfilerState :=
  (s.collectedMethods.length, { s with collectedMethods := s.collectedMethods ++ [info] })

/-- The collected methods that were visited, with their ids.  The loop counter is an `int`. -/
def methodsToSerialize : List (Int32 × MethodInfo) :=
  ((s.collectedMethods.take (2 ^ 31)).zipIdx.filter
    fun e => Int32.ofNat e.2 ∈ s.visitedMethods).map fun e => (Int32.ofNat e.2, e.1)

/-- The loop of `serializeCoverageReport` over the thread mapping: a mapped thread without a
pending report gets an empty one. -/
def addNotEntered : List (ThreadID × Int32) → ProfilerState → ProfilerState
  | [], s => s
  | mapping :: rest, s =>
      if mapping.2 ∈ s.serializedCoverageThreadIds then addNotEntered rest s
      else addNotEntered rest { s with
        serializedCoverageThreadIds := s.serializedCoverageThreadIds ++ [mapping.2]
        serializedCoverage := s.serializedCoverage ++ [reportBuffer mapping.2 none] }

def serializeMethods (methods : List (Int32 × MethodInfo)) : List UInt8 :=
  serializeInt (Int32.ofNat methods.length)
    ++ methods.flatMap fun el => serializeInt el.1 ++ el.2.serialize

def serializeBuffers (buffers : List (List UInt8)) : List UInt8 :=
  serializeInt (Int32.ofNat buffers.length) ++ buffers.flatten

/-- `serializeCoverageReport`: the bytes of the report and the state behind it.  The list of the
reported thread ids is not cleared. -/
def serializeCoverageReport : List UInt8 × ProfilerState :=
  let r := addNotEntered s.getMapping s
  (serializeMethods s.methodsToSerialize ++ serializeBuffers r.serializedCoverage,
    { r with trackedCoverage := OrderedMap.empty, serializedCoverage := [] })

/-- `CoverageTracker::clear`. -/
def clearCoverage : ProfilerState := { s with trackedCoverage := OrderedMap.empty }

/-- The loop over the thread mapping changes the reports only. -/
theorem addNotEntered_eq (mapping : List (ThreadID × Int32)) : ∀ (s : ProfilerState),
    ∃ ids reports, addNotEntered mapping s
      = { s with serializedCoverageThreadIds := ids, serializedCoverage := reports } := by
  induction mapping with
  | nil => exact fun s => ⟨_, _, rfl⟩
  | cons entry rest ih =>
      intro s
      rw [addNotEntered]
      split
      · exact ih s
      · obtain ⟨ids, reports, heq⟩ := ih { s with
          serializedCoverageThreadIds := s.serializedCoverageThreadIds ++ [entry.2]
          serializedCoverage := s.serializedCoverage ++ [reportBuffer entry.2 none] }
        exact ⟨ids, reports, heq⟩

/-! ### What the operations do on a tracked thread -/

variable {s thread}

@[simp] theorem profilerAssert_trackedCoverage (s : ProfilerState) (site : AssertSite) (e : Bool) :
    (s.profilerAssert site e).trackedCoverage = s.trackedCoverage := by
  unfold profilerAssert; split <;> rfl

/-- The first probe of an invocation stores a new history. -/
theorem addCoverage_new {offset : UInt32} {methodId : Int32}
    (htracked : s.isCurrentThreadTracked thread = true)
    (hnone : s.trackedCoverage.lookup thread = none) :
    s.addCoverage thread offset .enterMain methodId
      = .ok { s with
          trackedCoverage :=
            s.trackedCoverage.insert thread (some (.new thread offset methodId)) } := by
  have hexist : ThreadStorage.exist s.trackedCoverage thread = false :=
    ThreadStorage.exist_eq_false.mpr hnone
  simp [addCoverage, htracked, hexist, ThreadStorage.store]

/-- Every later probe appends its record. -/
theorem addCoverage_append {history : CoverageHistory} {offset : UInt32} {event : CoverageEvent}
    {methodId : Int32} (htracked : s.isCurrentThreadTracked thread = true)
    (hsome : s.trackedCoverage.lookup thread = some (some history)) :
    s.addCoverage thread offset event methodId
      = .ok { s with
          trackedCoverage := s.trackedCoverage.insert thread
            (some (history.addCoverage thread offset event methodId)) } := by
  have hexist : ThreadStorage.exist s.trackedCoverage thread = true :=
    ThreadStorage.exist_eq_true.mpr ⟨_, hsome⟩
  simp [addCoverage, htracked, hexist, ThreadStorage.load_of_lookup hsome]

/-- Finishing an invocation appends exactly one report and drops the history. -/
theorem invocationFinished_spec {history : CoverageHistory}
    (hsome : s.trackedCoverage.lookup thread = some (some history)) :
    s.invocationFinished thread = .ok { s with
      visitedMethods := s.visitedMethods ∪ history.visitedMethods
      trackedCoverage := s.trackedCoverage.erase thread
      serializedCoverageThreadIds := s.serializedCoverageThreadIds ++ [s.mappedId thread]
      serializedCoverage :=
        s.serializedCoverage ++ [reportBuffer (s.mappedId thread) (some history)] } := by
  have hexist : ThreadStorage.exist s.trackedCoverage thread = true :=
    ThreadStorage.exist_eq_true.mpr ⟨_, hsome⟩
  simp [invocationFinished, hexist, ThreadStorage.load_of_lookup hsome, ThreadStorage.remove]

end ProfilerState

end TestExecutor
