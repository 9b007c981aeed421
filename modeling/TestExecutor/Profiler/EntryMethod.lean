import TestExecutor.Profiler.ExceptionBalance
import TestExecutor.Profiler.Instrumenter

/-!
# Changing the method under test

`ConcreteExecutorService.Execute`: each test sets the method under test and runs it once.  A method
is compiled, and so instrumented, before its first run only; the id of main is set there, while the
end of an unwinding is compared with it in every run.

* `Invocation`, `Session`, `Invocation.run` — one run, and what it leaves behind;
* `EachRunReported` — every run ends with its report;
* `ThrowsOnlyFromLatest` — an exception ends only runs of the method that was compiled last;
* `eachRunReported_iff`.
-/

namespace TestExecutor

open TestExecutor.Library ProfilerState

/-! ### Runs -/

/-- How a run ends: by `ret`, or by an exception that unwinds the frame of main. -/
inductive Ending where
  | returns (offset : UInt32)
  | throws
  deriving DecidableEq

/-- A run of a method under test, whose probes carry a method id; `body` are the record-only
probes between the enter probe and the end. -/
structure Invocation where
  method : TestedMethod
  methodId : Int32
  enterOffset : UInt32
  body : List (CoverageEvent × UInt32)
  ending : Ending

/-- The process, and the functions that were compiled. -/
structure Session where
  process : Process
  compiled : List FunctionID

/-- The record-only probes of a run, one after the other. -/
def runBody (thread : ThreadID) (methodId : Int32) (s : ProfilerState)
    (body : List (CoverageEvent × UInt32)) : Except Fault ProfilerState :=
  body.foldlM (fun s call => s.trackPlain thread call.2 methodId call.1) s

namespace Invocation

variable (inv : Invocation)

/-- The process in front of the run. -/
def prepare (session : Session) : Process :=
  let p := session.process.setEntryMain inv.method.entry
  if inv.method.functionId ∈ session.compiled then p
  else p.instrument inv.method.functionId inv.method.function

def finish (thread : ThreadID) (s : ProfilerState) : Except Fault ProfilerState :=
  match inv.ending with
  | .returns offset => s.trackLeaveMain thread offset inv.methodId
  | .throws =>
      (s.exceptionUnwindFunctionEnter thread inv.method.functionId).exceptionUnwindFunctionLeave
        thread

def run (thread : ThreadID) (session : Session) : Except Fault Session := do
  let p := inv.prepare session
  let s ← p.profiler.trackEnterMain thread inv.enterOffset inv.methodId
  let s ← runBody thread inv.methodId s inv.body
  let s ← inv.finish thread s
  pure ⟨{ p with profiler := s }, inv.method.functionId :: session.compiled⟩

/-- The history of the run behind its body. -/
def bodyHistory (thread : ThreadID) : CoverageHistory :=
  inv.body.foldl (fun history call => history.addCoverage thread call.2 call.1 inv.methodId)
    (.new thread inv.enterOffset inv.methodId)

/-- The history that the run should report. -/
def history (thread : ThreadID) : CoverageHistory :=
  match inv.ending with
  | .returns offset => (inv.bodyHistory thread).addCoverage thread offset .leaveMain inv.methodId
  | .throws => inv.bodyHistory thread

end Invocation

/-- Behind every run the thread is not tracked, and one report was appended: that of the run. -/
def EachRunReported (thread : ThreadID) : Session → List Invocation → Prop
  | _, [] => True
  | session, inv :: invs => ∃ session', inv.run thread session = .ok session'
      ∧ session'.process.profiler.isCurrentThreadTracked thread = false
      ∧ (∃ threadId, session'.process.profiler.serializedCoverage
        = session.process.profiler.serializedCoverage
          ++ [reportBuffer threadId (some (inv.history thread))])
      ∧ EachRunReported thread session' invs

/-- The method that was compiled last, behind the compilation that a run may need. -/
def latestFor (inv : Invocation) (compiled : List FunctionID) (latest : FunctionID) : FunctionID :=
  if inv.method.functionId ∈ compiled then latest else inv.method.functionId

/-- Every run that ends by an exception runs the method that was compiled last. -/
def ThrowsOnlyFromLatest : List FunctionID → FunctionID → List Invocation → Prop
  | _, _, [] => True
  | compiled, latest, inv :: invs =>
      (inv.ending = .throws → latestFor inv compiled latest = inv.method.functionId)
        ∧ ThrowsOnlyFromLatest (inv.method.functionId :: compiled) (latestFor inv compiled latest)
          invs

/-! ### One run -/

/-- Between two runs the thread is outside every invocation. -/
structure Session.Ready (session : Session) (thread : ThreadID) (latest : FunctionID) : Prop where
  untracked : Untracked session.process.profiler thread
  running : session.process.profiler.isFinished = false
  mainOnly : session.process.profiler.collectMainOnly = true
  latest_eq : session.process.profiler.mainFunctionId = latest

variable {session session' : Session} {thread : ThreadID} {latest : FunctionID} {inv : Invocation}

/-- Instrumenting the method under test sets the id of main. -/
theorem instrument_profiler (p : Process) (m : TestedMethod)
    (hmode : p.profiler.collectMainOnly = true) :
    ∃ collected, ((p.setEntryMain m.entry).instrument m.functionId m.function).profiler
      = { p.profiler with mainFunctionId := m.functionId, collectedMethods := collected } := by
  have hneeded : (p.setEntryMain m.entry).instrumentationIsNeeded m.function.info = true := by
    rw [Process.instrumentationIsNeeded, m.isMain, Bool.true_or]
  have hset : (p.setEntryMain m.entry).setMainFunction m.functionId
      = { p.setEntryMain m.entry with
          profiler := { p.profiler with mainFunctionId := m.functionId } } := if_pos hmode
  simp only [Process.instrument, hneeded, Bool.not_true, Bool.false_eq_true, if_false, hset]
  split
  · exact ⟨p.profiler.collectedMethods, rfl⟩
  · exact ⟨p.profiler.collectedMethods ++ [m.function.info], rfl⟩

/-- In front of a run the thread is still outside every invocation, and the id of main is that of
the method that was compiled last. -/
theorem Invocation.prepare_ready (h : session.Ready thread latest) (inv : Invocation) :
    Session.Ready ⟨inv.prepare session, session.compiled⟩ thread
        (latestFor inv session.compiled latest)
      ∧ (inv.prepare session).profiler.serializedCoverage
        = session.process.profiler.serializedCoverage := by
  simp only [Invocation.prepare, latestFor]
  split
  · exact ⟨⟨h.untracked, h.running, h.mainOnly, h.latest_eq⟩, rfl⟩
  · obtain ⟨collected, heq⟩ := instrument_profiler session.process inv.method h.mainOnly
    refine ⟨⟨?_, ?_, ?_, ?_⟩, ?_⟩
    · rw [heq]
      exact ⟨h.untracked.balance_eq, h.untracked.filters_eq, h.untracked.history_eq⟩
    · rw [heq]
      exact h.running
    · rw [heq]
      exact h.mainOnly
    · rw [heq]
    · rw [heq]

/-- The record-only probes of a tracked thread append to its history. -/
theorem runBody_tracked (methodId : Int32) (body : List (CoverageEvent × UInt32)) :
    ∀ {s : ProfilerState} {balance filters : ℤ} {history : CoverageHistory},
      Tracked s thread balance filters history →
      ∃ coverage, runBody thread methodId s body = .ok { s with trackedCoverage := coverage }
        ∧ Tracked { s with trackedCoverage := coverage } thread balance filters
          (body.foldl (fun history call =>
            history.addCoverage thread call.2 call.1 methodId) history) := by
  induction body with
  | nil =>
      intro s balance filters history h
      exact ⟨s.trackedCoverage, rfl, h⟩
  | cons call body ih =>
      intro s balance filters history h
      obtain ⟨coverage, hrun, htracked⟩ := ih (h.addCoverage call.2 methodId call.1)
      refine ⟨coverage, ?_, htracked⟩
      rw [runBody, List.foldlM_cons, trackPlain_tracked h]
      exact hrun

/-- The state in front of the end of a run. -/
structure AtEnd (s : ProfilerState) (thread : ThreadID) (latest : FunctionID)
    (history : CoverageHistory) : Prop where
  tracked : Tracked s thread 1 0 history
  running : s.isFinished = false
  mainOnly : s.collectMainOnly = true
  latest_eq : s.mainFunctionId = latest

theorem Invocation.run_atEnd (h : session.Ready thread latest) (inv : Invocation) :
    ∃ s, AtEnd s thread (latestFor inv session.compiled latest) (inv.bodyHistory thread)
      ∧ s.serializedCoverage = session.process.profiler.serializedCoverage
      ∧ inv.run thread session = (inv.finish thread s).map fun s' =>
        ⟨{ inv.prepare session with profiler := s' },
          inv.method.functionId :: session.compiled⟩ := by
  obtain ⟨hready, hreports⟩ := inv.prepare_ready h
  have henter : (inv.prepare session).profiler.trackEnterMain thread inv.enterOffset inv.methodId
      = .ok _ := trackEnterMain_untracked hready.untracked
  obtain ⟨coverage, hbody, htracked⟩ := runBody_tracked inv.methodId inv.body
    (s := { (inv.prepare session).profiler with
      stackBalances := ((inv.prepare session).profiler.stackBalances.insert thread 0).insert thread 1
      inFilterMapping := (inv.prepare session).profiler.inFilterMapping.insert thread 0
      trackedCoverage := (inv.prepare session).profiler.trackedCoverage.insert thread
        (some (.new thread inv.enterOffset inv.methodId)) })
    ⟨OrderedMap.lookup_insert_self _ _ _, OrderedMap.lookup_insert_self _ _ _,
      OrderedMap.lookup_insert_self _ _ _⟩
  refine ⟨_, ⟨htracked, hready.running, hready.mainOnly, hready.latest_eq⟩, hreports, ?_⟩
  rw [Invocation.run, henter]
  show (runBody thread inv.methodId _ inv.body >>= _) = _
  rw [hbody]
  show (inv.finish thread _ >>= _) = _
  cases inv.finish thread _ with
  | error e => rfl
  | ok s' => rfl

/-- What a run that is reported leaves behind. -/
structure Reported (s s' : ProfilerState) (thread : ThreadID) (latest : FunctionID)
    (history : CoverageHistory) : Prop where
  untracked : Untracked s' thread
  running : s'.isFinished = false
  mainOnly : s'.collectMainOnly = true
  latest_eq : s'.mainFunctionId = latest
  report : ∃ threadId, s'.serializedCoverage
    = s.serializedCoverage ++ [reportBuffer threadId (some history)]

variable {s : ProfilerState} {history : CoverageHistory}

/-- A return is reported. -/
theorem AtEnd.returns (h : AtEnd s thread latest history) (offset : UInt32) (methodId : Int32) :
    ∃ s', s.trackLeaveMain thread offset methodId = .ok s'
      ∧ Reported s s' thread latest (history.addCoverage thread offset .leaveMain methodId) := by
  have hleave : s.trackLeaveMain thread offset methodId = .ok _ :=
    trackLeaveMain_tracked h.tracked le_rfl fun _ => rfl
  rw [if_pos rfl] at hleave
  exact ⟨_, hleave, finished_untracked _ _ _, h.running, h.mainOnly, h.latest_eq, _, rfl⟩

/-- The unwinding of a frame begins: its function is remembered. -/
theorem AtEnd.unwindEnter (h : AtEnd s thread latest history) {functionId : FunctionID}
    (hid : functionId ≠ 0) :
    ∃ s', s.exceptionUnwindFunctionEnter thread functionId = s' ∧ AtEnd s' thread latest history
      ∧ s'.unwindFunctionIds.lookup thread = some functionId
      ∧ s'.serializedCoverage = s.serializedCoverage := by
  refine ⟨{ s with unwindFunctionIds := s.unwindFunctionIds.insert thread functionId }, ?_,
    ⟨⟨h.tracked.balance_eq, h.tracked.filters_eq, h.tracked.history_eq⟩, h.running, h.mainOnly,
      h.latest_eq⟩, OrderedMap.lookup_insert_self _ _ _, rfl⟩
  rw [exceptionUnwindFunctionEnter, if_pos h.tracked.isCurrentThreadTracked,
    unwindFunctionEnter_tracked h.tracked hid]

theorem AtEnd.unwindLeave (h : AtEnd s thread latest history) :
    s.exceptionUnwindFunctionLeave thread = s.unwindFunctionLeave thread := by
  rw [exceptionUnwindFunctionLeave, h.running, h.tracked.isCurrentThreadTracked]
  exact if_neg (by simp)

/-- An exception out of the method that was compiled last is reported. -/
theorem AtEnd.throws (h : AtEnd s thread latest history) (hid : latest ≠ 0) :
    ∃ s', (s.exceptionUnwindFunctionEnter thread latest).exceptionUnwindFunctionLeave thread
        = .ok s'
      ∧ Reported s s' thread latest history := by
  obtain ⟨s₁, henter, hend, hids, hreports⟩ := h.unwindEnter hid
  have hleave : s₁.unwindFunctionLeave thread = .ok _ :=
    unwindFunctionLeave_main hend.tracked (by rw [hend.latest_eq]; exact hids) le_rfl le_rfl
      fun _ => rfl
  rw [henter, hend.unwindLeave, hleave]
  refine ⟨_, rfl, ?_⟩
  rw [if_pos rfl]
  exact ⟨finished_untracked _ _ _, hend.running, hend.mainOnly, hend.latest_eq, _,
    by rw [← hreports]; rfl⟩

/-- An exception out of another method leaves the thread tracked. -/
theorem AtEnd.throws_other (h : AtEnd s thread latest history) {functionId : FunctionID}
    (hid : functionId ≠ 0) (hother : latest ≠ functionId) :
    ∃ s', (s.exceptionUnwindFunctionEnter thread functionId).exceptionUnwindFunctionLeave thread
        = .ok s'
      ∧ s'.isCurrentThreadTracked thread = true := by
  obtain ⟨s₁, henter, hend, hids, -⟩ := h.unwindEnter hid
  have hleave := unwindFunctionLeave_other hend.tracked hend.mainOnly hids
    (by rw [hend.latest_eq]; exact hother)
  rw [henter, hend.unwindLeave, hleave]
  exact ⟨_, rfl, hend.tracked.isCurrentThreadTracked⟩

/-- A run that ends by a return, or by an exception out of the method that was compiled last, is
reported. -/
theorem Invocation.run_reported (h : session.Ready thread latest) (inv : Invocation)
    (hends : inv.ending = .throws →
      latestFor inv session.compiled latest = inv.method.functionId) :
    ∃ session', inv.run thread session = .ok session'
      ∧ session'.Ready thread (latestFor inv session.compiled latest)
      ∧ session'.compiled = inv.method.functionId :: session.compiled
      ∧ ∃ threadId, session'.process.profiler.serializedCoverage
        = session.process.profiler.serializedCoverage
          ++ [reportBuffer threadId (some (inv.history thread))] := by
  obtain ⟨s, hend, hreports, hrun⟩ := inv.run_atEnd h
  obtain ⟨s', hfinish, hreported⟩ : ∃ s', inv.finish thread s = .ok s'
      ∧ Reported s s' thread (latestFor inv session.compiled latest) (inv.history thread) := by
    rw [Invocation.finish, Invocation.history]
    cases hending : inv.ending with
    | returns offset => exact hend.returns offset inv.methodId
    | throws =>
        have hlatest := hends hending
        rw [hlatest] at hend ⊢
        exact hend.throws inv.method.functionId_ne
  rw [hfinish] at hrun
  refine ⟨_, hrun, ⟨hreported.untracked, hreported.running, hreported.mainOnly,
    hreported.latest_eq⟩, rfl, ?_⟩
  rw [← hreports]
  exact hreported.report

/-- A run that ends by an exception out of another method leaves the thread tracked. -/
theorem Invocation.run_tracked (h : session.Ready thread latest) (inv : Invocation)
    (hthrows : inv.ending = .throws)
    (hother : latestFor inv session.compiled latest ≠ inv.method.functionId)
    (hrun : inv.run thread session = .ok session') :
    session'.process.profiler.isCurrentThreadTracked thread = true := by
  obtain ⟨s, hend, -, hrun'⟩ := inv.run_atEnd h
  obtain ⟨s', hfinish, htracked⟩ := hend.throws_other inv.method.functionId_ne hother
  have hfinish' : inv.finish thread s = .ok s' := by
    rw [Invocation.finish, hthrows]
    exact hfinish
  rw [hfinish', hrun] at hrun'
  obtain rfl := Except.ok.inj hrun'
  exact htracked

/-! ### Sequences of runs -/

theorem eachRunReported_of_ready (invs : List Invocation) :
    ∀ (session : Session) (latest : FunctionID), session.Ready thread latest →
      (EachRunReported thread session invs
        ↔ ThrowsOnlyFromLatest session.compiled latest invs) := by
  induction invs with
  | nil => intro session latest _; exact Iff.rfl
  | cons inv invs ih =>
      intro session latest h
      constructor
      · rintro ⟨session', hrun, huntracked, -, hrest⟩
        have hends : inv.ending = .throws →
            latestFor inv session.compiled latest = inv.method.functionId := by
          intro hthrows
          by_contra hother
          rw [Invocation.run_tracked h inv hthrows hother hrun] at huntracked
          cases huntracked
        obtain ⟨session'', hrun', hready, hcompiled, -⟩ := inv.run_reported h hends
        obtain rfl : session' = session'' := Except.ok.inj (hrun.symm.trans hrun')
        refine ⟨hends, ?_⟩
        rw [← hcompiled]
        exact (ih session' _ hready).mp hrest
      · rintro ⟨hends, hrest⟩
        obtain ⟨session', hrun, hready, hcompiled, hreport⟩ := inv.run_reported h hends
        rw [← hcompiled] at hrest
        exact ⟨session', hrun, hready.untracked.isCurrentThreadTracked, hreport,
          (ih session' _ hready).mpr hrest⟩

/-- **When every run is reported.**  In main-only mode, for every sequence of runs of methods under
test, none of which is compiled yet, the thread is untracked behind every run, with one report for
it, exactly when every run that ends by an exception runs the method that was compiled last. -/
theorem eachRunReported_iff (p : Process) (thread : ThreadID) (invs : List Invocation)
    (hs : Untracked p.profiler thread) (hrunning : p.profiler.isFinished = false)
    (hmode : p.profiler.collectMainOnly = true) :
    EachRunReported thread ⟨p, []⟩ invs
      ↔ ThrowsOnlyFromLatest [] p.profiler.mainFunctionId invs :=
  eachRunReported_of_ready invs ⟨p, []⟩ _ ⟨hs, hrunning, hmode, rfl⟩

/-- A process in the beginning, in main-only mode. -/
def freshProcess : Process := ⟨.init false true, none, [], []⟩

/-- The method with token `token` of a module with an empty name. -/
def tokenMethod (functionId : FunctionID) (token : UInt32) (h : functionId ≠ 0) : TestedMethod where
  functionId := functionId
  function := ⟨0, ⟨token, 1, [0], 1, [0], rfl, rfl⟩⟩
  entry := ⟨token, 0, [], 0, [], rfl, rfl⟩
  functionId_ne := h
  token_eq := rfl
  moduleName_eq := rfl

/-- A run of a method that throws at once, and one that returns. -/
def throwingRun (m : TestedMethod) (methodId : Int32) : Invocation := ⟨m, methodId, 0, [], .throws⟩

def returningRun (m : TestedMethod) (methodId : Int32) : Invocation :=
  ⟨m, methodId, 0, [(.branchHit, 2)], .returns 4⟩

/-- Two methods, each of which throws when it is new; the first one then returns. -/
theorem eachRunReported_iff_two :
    EachRunReported 0 ⟨freshProcess, []⟩ [throwingRun (tokenMethod 5 1 (by decide)) 0,
        throwingRun (tokenMethod 6 2 (by decide)) 1, returningRun (tokenMethod 5 1 (by decide)) 0]
      ↔ ThrowsOnlyFromLatest [] (2 ^ 64 - 1) [throwingRun (tokenMethod 5 1 (by decide)) 0,
        throwingRun (tokenMethod 6 2 (by decide)) 1,
        returningRun (tokenMethod 5 1 (by decide)) 0] :=
  eachRunReported_iff freshProcess 0 _ ⟨rfl, rfl, rfl⟩ rfl rfl

/-- A method that returned is tested again after another one, and throws. -/
theorem rerun_that_throws_is_not_reported :
    ¬EachRunReported 0 ⟨freshProcess, []⟩ [returningRun (tokenMethod 5 1 (by decide)) 0,
      returningRun (tokenMethod 6 2 (by decide)) 1,
      throwingRun (tokenMethod 5 1 (by decide)) 0] := by
  intro h
  have hready : Session.Ready ⟨freshProcess, []⟩ 0 (2 ^ 64 - 1) :=
    ⟨⟨rfl, rfl, rfl⟩, rfl, rfl, rfl⟩
  have hthrows := (eachRunReported_of_ready _ _ _ hready).mp h
  exact absurd (hthrows.2.2.1 rfl) (by decide)

end TestExecutor
