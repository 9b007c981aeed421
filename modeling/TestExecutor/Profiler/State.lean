import Mathlib.Algebra.GroupWithZero.Nat
import Mathlib.Order.Fin.Basic
import Mathlib.Data.Finset.Basic
import TestExecutor.Library.OrderedMap

/-!
# The profiler's state

The data the native profiler keeps between probe calls: the per-thread storages of
`ThreadTracker` and `CoverageTracker`, the collected methods, the serialized reports and the
flags of `ProfilerState`.

* `ThreadStorage` — one value per thread, with `store` / `load` / `update` / `remove` as in
  `threadStorage.h`; a missing key reads as the default value and is created by the read;
* `MethodInfo`, `CoverageRecord`, `CoverageHistory` — what is recorded;
* `ProfilerState` — everything together.  `failedAsserts` collects the `profiler_assert`s that
  failed: a release build compiles them out and goes on, which is what the model does, a debug
  build aborts at the first one;
* `Fault` — what no build survives: a read through a null `CoverageHistory *`.

Every operation takes the calling thread as an argument (`threadInfo->getCurrentThread()`).
-/

namespace TestExecutor

open TestExecutor.Library

/-- A `ThreadID`: `std::hash` of the native thread id, a 64-bit word. -/
abbrev ThreadID : Type := Fin (2 ^ 64)

instance threadID_neZero : NeZero (2 ^ 64) := ⟨by decide⟩

/-- A `FunctionID` of the CLR. -/
abbrev FunctionID : Type := ℕ

/-! ### Per-thread storage -/

/-- `ThreadStorage<T>`: a `std::map` from threads to values. -/
abbrev ThreadStorage (T : Type) : Type := OrderedMap ThreadID T

namespace ThreadStorage

variable {T : Type}

def exist (m : ThreadStorage T) (thread : ThreadID) : Bool := (m.lookup thread).isSome

/-- `store`; it asserts that the thread has no value yet. -/
def store (m : ThreadStorage T) (thread : ThreadID) (data : T) : ThreadStorage T :=
  m.insert thread data

def storeOrUpdate (m : ThreadStorage T) (thread : ThreadID) (data : T) : ThreadStorage T :=
  m.insert thread data

variable [Inhabited T]

/-- `innerStorage[thread]`, read: a missing value is the default. -/
def load (m : ThreadStorage T) (thread : ThreadID) : T := (m.lookup thread).getD default

/-- What `load` leaves behind: `operator[]` creates the entry it reads. -/
def touch (m : ThreadStorage T) (thread : ThreadID) : ThreadStorage T :=
  m.insert thread (m.load thread)

def update (m : ThreadStorage T) (thread : ThreadID) (f : T → T) : ThreadStorage T :=
  m.insert thread (f (m.load thread))

omit [Inhabited T] in
def remove (m : ThreadStorage T) (thread : ThreadID) : ThreadStorage T := m.erase thread

omit [Inhabited T] in
theorem exist_eq_true {m : ThreadStorage T} {thread : ThreadID} :
    m.exist thread = true ↔ ∃ v, m.lookup thread = some v := Option.isSome_iff_exists

omit [Inhabited T] in
theorem exist_eq_false {m : ThreadStorage T} {thread : ThreadID} :
    m.exist thread = false ↔ m.lookup thread = none := by
  unfold exist; cases m.lookup thread <;> simp

theorem load_of_lookup {m : ThreadStorage T} {thread : ThreadID} {v : T}
    (h : m.lookup thread = some v) : m.load thread = v := by rw [load, h]; rfl

end ThreadStorage

/-! ### What is recorded -/

/-- `CoverageEvent`, in the order of the enumeration. -/
inductive CoverageEvent where
  | enterMain | enter | leaveMain | leave | branchHit | call | tailcall | trackCoverage
  | stsfldHit
  deriving DecidableEq, Repr

/-- The value of the enumeration constant. -/
def CoverageEvent.value : CoverageEvent → Int32
  | .enterMain => 0 | .enter => 1 | .leaveMain => 2 | .leave => 3 | .branchHit => 4
  | .call => 5 | .tailcall => 6 | .trackCoverage => 7 | .stsfldHit => 8

/-- A collected method; the two names are `WCHAR` arrays of the stored lengths. -/
structure MethodInfo where
  token : UInt32
  assemblyNameLength : UInt32
  assemblyName : List UInt16
  moduleNameLength : UInt32
  moduleName : List UInt16
  assemblyName_length : assemblyName.length = assemblyNameLength.toNat
  moduleName_length : moduleName.length = moduleNameLength.toNat
  deriving DecidableEq

structure CoverageRecord where
  offset : UInt32
  event : CoverageEvent
  thread : ThreadID
  methodId : Int32
  deriving DecidableEq

/-- The records of one invocation, in order, and the methods they belong to. -/
structure CoverageHistory where
  records : List CoverageRecord
  visitedMethods : Finset Int32
  deriving DecidableEq

/-! ### The state -/

/-- Where a `profiler_assert` stands. -/
inductive AssertSite where
  | threadStorage | threadTracker | coverageTracker
  deriving DecidableEq, Repr

/-- A dereferenced null pointer. -/
inductive Fault where
  | nullHistory
  deriving DecidableEq, Repr

/-- The state of the profiler.  The two counters of a thread are `int`s in the source: that they
overflow, at `2 ^ 31` frames of main or filters on one stack, is left out. -/
structure ProfilerState where
  -- ThreadTracker
  threadIdMapping : ThreadStorage Int32
  stackBalances : ThreadStorage ℤ
  unwindFunctionIds : ThreadStorage FunctionID
  inFilterMapping : ThreadStorage ℤ
  -- CoverageTracker; a stored `none` is a null `CoverageHistory *`
  trackedCoverage : ThreadStorage (Option CoverageHistory)
  visitedMethods : Finset Int32
  collectedMethods : List MethodInfo
  serializedCoverage : List (List UInt8)
  serializedCoverageThreadIds : List Int32
  -- ProfilerState
  isPassiveRun : Bool
  collectMainOnly : Bool
  isFinished : Bool
  mainFunctionId : FunctionID
  failedAsserts : List AssertSite

namespace ProfilerState

/-- The state after construction, for the given run mode; `mainFunctionId` is `-1`. -/
def init (isPassiveRun collectMainOnly : Bool) : ProfilerState where
  threadIdMapping := OrderedMap.empty
  stackBalances := OrderedMap.empty
  unwindFunctionIds := OrderedMap.empty
  inFilterMapping := OrderedMap.empty
  trackedCoverage := OrderedMap.empty
  visitedMethods := ∅
  collectedMethods := []
  serializedCoverage := []
  serializedCoverageThreadIds := []
  isPassiveRun := isPassiveRun
  collectMainOnly := collectMainOnly
  isFinished := false
  mainFunctionId := 2 ^ 64 - 1
  failedAsserts := []

/-- `profiler_assert(e)`. -/
def profilerAssert (s : ProfilerState) (site : AssertSite) (e : Bool) : ProfilerState :=
  if e then s else { s with failedAsserts := s.failedAsserts ++ [site] }

@[simp] theorem profilerAssert_true (s : ProfilerState) (site : AssertSite) :
    s.profilerAssert site true = s := rfl

/-- An assertion changes nothing but the record of the failed ones. -/
theorem profilerAssert_eq (s : ProfilerState) (site : AssertSite) (e : Bool) :
    ∃ asserts, s.profilerAssert site e = { s with failedAsserts := asserts } := by
  cases e with
  | true => exact ⟨s.failedAsserts, rfl⟩
  | false => exact ⟨s.failedAsserts ++ [site], rfl⟩

end ProfilerState

end TestExecutor
