import TestExecutor.Profiler.Probes

/-!
# The stack balance over runs without exceptions

Main-only mode: only main methods carry enter and leave probes, so the stack balance of a thread
should be the number of main frames it has live.

* `ProbeEvent`, `framesAfter`, `IsFrameRun` — the frames of a thread: main frames are entered,
  and left by `ret` or by a tail call;
* `HasFrames s thread live filters` — the profiler's view of a thread with `live` main frames, and
  one lemma per probe (`trackEnterMain_hasFrames`, `trackLeaveMain_hasFrames`, …);
* `FollowsFrames`, `AlwaysFollowsFrames` — what the profiler should show after every event, and
  `alwaysFollowsFrames_iff`, when it does.
-/

namespace TestExecutor

open TestExecutor.Library

/-! ### Main frames without exceptions -/

/-- A call of a probe. -/
structure ProbeEvent where
  probe : Probe
  offset : UInt32
  methodId : Int32
  deriving DecidableEq

def ProbeEvent.run (s : ProfilerState) (thread : ThreadID) (e : ProbeEvent) :
    Except Fault ProfilerState := e.probe.run s thread e.offset e.methodId

/-- The number of live main frames behind a probe; the probes of other methods are not called in
main-only mode, and a frame that is left must have been entered. -/
def framesAfter (live : ℕ) : Probe → Option ℕ
  | .enterMain => some (live + 1)
  | .leaveMain | .tailcall => if live = 0 then none else some (live - 1)
  | .enter | .leave => none
  | .coverage | .branch | .call | .stsfld | .throw => some live

/-- The events are those of main frames that are entered and left, from `live` frames on. -/
def IsFrameRun : ℕ → List ProbeEvent → Prop
  | _, [] => True
  | live, e :: es => ∃ live', framesAfter live e.probe = some live' ∧ IsFrameRun live' es

/-- What an event that takes the thread from `live` to `live'` main frames should do: the balance
is `live'`, the thread is tracked exactly when that is positive, and a report is appended for the
thread exactly when the last frame is left. -/
structure FollowsFrames (s s' : ProfilerState) (thread : ThreadID) (live live' : ℕ) : Prop where
  balance_eq : (s'.stackBalances.lookup thread).getD 0 = live'
  tracked_iff : s'.isCurrentThreadTracked thread = true ↔ 0 < live'
  reports : if 0 < live ∧ live' = 0
    then ∃ history, s'.serializedCoverage
      = s.serializedCoverage ++ [reportBuffer (s.mappedId thread) (some history)]
    else s'.serializedCoverage = s.serializedCoverage

/-- Every event of the run does what it should. -/
def AlwaysFollowsFrames (thread : ThreadID) : ProfilerState → ℕ → List ProbeEvent → Prop
  | _, _, [] => True
  | s, live, e :: es => ∃ s' live', e.run s thread = .ok s' ∧ framesAfter live e.probe = some live'
      ∧ FollowsFrames s s' thread live live' ∧ AlwaysFollowsFrames thread s' live' es

/-- No tail call leaves the last main frame of the thread. -/
def NoTailcallFromLastFrame : ℕ → List ProbeEvent → Prop
  | _, [] => True
  | live, e :: es => ¬(e.probe = .tailcall ∧ live = 1)
      ∧ ∀ live', framesAfter live e.probe = some live' → NoTailcallFromLastFrame live' es

namespace ProfilerState

variable {s s' : ProfilerState} {thread : ThreadID}

/-- The thread is inside an invocation of `live` main frames, or outside every invocation. -/
def HasFrames (s : ProfilerState) (thread : ThreadID) (live filters : ℕ) : Prop :=
  if live = 0 then Untracked s thread else ∃ history, Tracked s thread live filters history

theorem hasFrames_zero {filters : ℕ} : HasFrames s thread 0 filters ↔ Untracked s thread := by
  rw [HasFrames, if_pos rfl]

theorem hasFrames_succ {live filters : ℕ} : HasFrames s thread (live + 1) filters
    ↔ ∃ history, Tracked s thread (live + 1) filters history := by
  rw [HasFrames, if_neg (Nat.succ_ne_zero live)]; push_cast; rfl

theorem HasFrames.tracked {live filters : ℕ} (h : HasFrames s thread live filters)
    (hlive : live ≠ 0) : ∃ history, Tracked s thread live filters history := by
  rwa [HasFrames, if_neg hlive] at h

theorem HasFrames.balance_eq {live filters : ℕ} (h : HasFrames s thread live filters) :
    (s.stackBalances.lookup thread).getD 0 = live := by
  cases live with
  | zero => rw [(hasFrames_zero.mp h).balance_eq]; rfl
  | succ live =>
      obtain ⟨history, h⟩ := hasFrames_succ.mp h
      rw [h.balance_eq]; push_cast; rfl

theorem HasFrames.filters_eq {live filters : ℕ} (h : HasFrames s thread live filters)
    (hfilters : live = 0 → filters = 0) :
    (s.inFilterMapping.lookup thread).getD 0 = filters := by
  cases live with
  | zero => rw [(hasFrames_zero.mp h).filters_eq, hfilters rfl]; rfl
  | succ live =>
      obtain ⟨history, h⟩ := hasFrames_succ.mp h
      rw [h.filters_eq]; rfl

theorem HasFrames.tracked_iff {live filters : ℕ} (h : HasFrames s thread live filters) :
    s.isCurrentThreadTracked thread = true ↔ 0 < live := by
  cases live with
  | zero => simp [(hasFrames_zero.mp h).isCurrentThreadTracked]
  | succ live =>
      obtain ⟨history, h⟩ := hasFrames_succ.mp h
      simp [h.isCurrentThreadTracked]

/-- What the probes never touch: the mode flags and the remembered unwindings. -/
structure SameContext (s s' : ProfilerState) : Prop where
  isFinished_eq : s'.isFinished = s.isFinished
  collectMainOnly_eq : s'.collectMainOnly = s.collectMainOnly
  mainFunctionId_eq : s'.mainFunctionId = s.mainFunctionId
  unwindFunctionIds_eq : s'.unwindFunctionIds = s.unwindFunctionIds

/-- `EnterMain` adds a frame, on a thread outside every invocation and inside one. -/
theorem trackEnterMain_hasFrames {live filters : ℕ} (h : HasFrames s thread live filters)
    (hfilters : live = 0 → filters = 0) (offset : UInt32) (methodId : Int32) :
    ∃ s', s.trackEnterMain thread offset methodId = .ok s'
      ∧ HasFrames s' thread (live + 1) filters
      ∧ s'.serializedCoverage = s.serializedCoverage
      ∧ s'.failedAsserts = s.failedAsserts
      ∧ SameContext s s' := by
  cases live with
  | zero =>
      refine ⟨_, trackEnterMain_untracked (hasFrames_zero.mp h),
        hasFrames_succ.mpr ⟨.new thread offset methodId, ?_⟩, rfl, rfl, ⟨rfl, rfl, rfl, rfl⟩⟩
      rw [hfilters rfl]
      exact ⟨OrderedMap.lookup_insert_self _ _ _, OrderedMap.lookup_insert_self _ _ _,
        OrderedMap.lookup_insert_self _ _ _⟩
  | succ live =>
      obtain ⟨history, h⟩ := hasFrames_succ.mp h
      refine ⟨_, trackEnterMain_tracked h, hasFrames_succ.mpr ⟨history, ?_⟩, rfl, rfl,
        ⟨rfl, rfl, rfl, rfl⟩⟩
      exact_mod_cast h.setBalance (live + 1 + 1)

/-- `LeaveMain` removes a frame, and the last one appends a report. -/
theorem trackLeaveMain_hasFrames {live filters : ℕ} (h : HasFrames s thread (live + 1) filters)
    (hfilters : live = 0 → filters = 0) (offset : UInt32) (methodId : Int32) :
    ∃ s', s.trackLeaveMain thread offset methodId = .ok s'
      ∧ HasFrames s' thread live filters
      ∧ (if live = 0
          then ∃ history, s'.serializedCoverage
            = s.serializedCoverage ++ [reportBuffer (s.mappedId thread) (some history)]
          else s'.serializedCoverage = s.serializedCoverage)
      ∧ (.threadTracker ∉ s.failedAsserts → .threadTracker ∉ s'.failedAsserts)
      ∧ SameContext s s' := by
  obtain ⟨history, h⟩ := hasFrames_succ.mp h
  have hleave : s.trackLeaveMain thread offset methodId = .ok _ :=
    trackLeaveMain_tracked h (by omega) (by intro hlive; rw [hfilters (by omega)]; rfl)
  refine ⟨_, hleave, ?_⟩
  cases live with
  | zero =>
      rw [if_pos (by rfl), if_pos rfl]
      exact ⟨hasFrames_zero.mpr (finished_untracked _ _ _), ⟨_, rfl⟩,
        fun hassert => finished_failedAsserts hassert, ⟨rfl, rfl, rfl, rfl⟩⟩
  | succ live =>
      rw [if_neg (by omega), if_neg (by omega)]
      have hleft := h.leftMain (live + 1) (history.addCoverage thread offset .leaveMain methodId)
      exact ⟨hasFrames_succ.mpr ⟨_, by simpa using hleft⟩, rfl, id, ⟨rfl, rfl, rfl, rfl⟩⟩

/-- A record-only probe changes neither the frames nor the reports. -/
theorem trackPlain_hasFrames {live filters : ℕ} (h : HasFrames s thread live filters)
    (offset : UInt32) (methodId : Int32) (event : CoverageEvent) :
    ∃ s', s.trackPlain thread offset methodId event = .ok s'
      ∧ HasFrames s' thread live filters
      ∧ s'.serializedCoverage = s.serializedCoverage
      ∧ s'.failedAsserts = s.failedAsserts := by
  cases live with
  | zero =>
      exact ⟨s, trackPlain_untracked (hasFrames_zero.mp h) event, h, rfl, rfl⟩
  | succ live =>
      obtain ⟨history, h⟩ := hasFrames_succ.mp h
      exact ⟨_, trackPlain_tracked h event, hasFrames_succ.mpr ⟨_, h.addCoverage _ _ event⟩, rfl, rfl⟩

/-- `Tailcall` removes a frame when another one stays live. -/
theorem trackTailcall_hasFrames {live filters : ℕ} (h : HasFrames s thread (live + 1) filters)
    (hlive : live ≠ 0) (offset : UInt32) (methodId : Int32) :
    ∃ s', s.trackTailcall thread offset methodId = .ok s'
      ∧ HasFrames s' thread live filters
      ∧ s'.serializedCoverage = s.serializedCoverage := by
  obtain ⟨history, h⟩ := hasFrames_succ.mp h
  obtain ⟨below, rfl⟩ := Nat.exists_eq_succ_of_ne_zero hlive
  have hleft := h.leftMain (below + 1) (history.addCoverage thread offset .tailcall methodId)
  exact ⟨_, trackTailcall_tracked h (by omega),
    hasFrames_succ.mpr ⟨_, by simpa using hleft⟩, rfl⟩

/-- After `Tailcall` from the last frame the thread is still tracked. -/
theorem trackTailcall_last {filters : ℕ} (h : HasFrames s thread 1 filters) (offset : UInt32)
    (methodId : Int32) (hrun : s.trackTailcall thread offset methodId = .ok s') :
    s'.isCurrentThreadTracked thread = true := by
  obtain ⟨history, h⟩ := hasFrames_succ.mp h
  rw [trackTailcall_tracked h (by omega)] at hrun
  rw [← Except.ok.inj hrun]
  exact (h.leftMain _ _).isCurrentThreadTracked

end ProfilerState

open ProfilerState

variable {s : ProfilerState} {thread : ThreadID}

/-- One event: unless it is a tail call from the last frame, it does what it should. -/
theorem ProbeEvent.run_follows {live live' : ℕ} {e : ProbeEvent} (h : HasFrames s thread live 0)
    (hframes : framesAfter live e.probe = some live')
    (htail : ¬(e.probe = .tailcall ∧ live = 1)) :
    ∃ s', e.run s thread = .ok s' ∧ FollowsFrames s s' thread live live'
      ∧ HasFrames s' thread live' 0 := by
  obtain ⟨probe, offset, methodId⟩ := e
  have plain : ∀ event, live' = live → ∃ s', s.trackPlain thread offset methodId event = .ok s'
      ∧ FollowsFrames s s' thread live live' ∧ HasFrames s' thread live' 0 := by
    rintro event rfl
    obtain ⟨s', hrun, hs', hreports, -⟩ := trackPlain_hasFrames h offset methodId event
    refine ⟨s', hrun, ⟨hs'.balance_eq, hs'.tracked_iff, ?_⟩, hs'⟩
    rw [if_neg (by omega)]
    exact hreports
  cases probe with
  | enterMain =>
      obtain rfl : live + 1 = live' := Option.some.inj hframes
      obtain ⟨s', hrun, hs', hreports, -⟩ :=
        trackEnterMain_hasFrames h (fun _ => rfl) offset methodId
      refine ⟨s', hrun, ⟨hs'.balance_eq, hs'.tracked_iff, ?_⟩, hs'⟩
      rw [if_neg (by omega)]
      exact hreports
  | leaveMain =>
      cases live with
      | zero => simp [framesAfter] at hframes
      | succ live =>
          obtain rfl : live = live' := by simpa [framesAfter] using hframes
          obtain ⟨s', hrun, hs', hreports, -⟩ :=
            trackLeaveMain_hasFrames h (fun _ => rfl) offset methodId
          exact ⟨s', hrun, ⟨hs'.balance_eq, hs'.tracked_iff, by simpa using hreports⟩, hs'⟩
  | tailcall =>
      cases live with
      | zero => simp [framesAfter] at hframes
      | succ live =>
          obtain rfl : live = live' := by simpa [framesAfter] using hframes
          have hlive : live ≠ 0 := fun hzero => htail ⟨rfl, by omega⟩
          obtain ⟨s', hrun, hs', hreports⟩ := trackTailcall_hasFrames h hlive offset methodId
          refine ⟨s', hrun, ⟨hs'.balance_eq, hs'.tracked_iff, ?_⟩, hs'⟩
          rw [if_neg (by omega)]
          exact hreports
  | enter => simp [framesAfter] at hframes
  | leave => simp [framesAfter] at hframes
  | coverage => exact plain _ (Option.some.inj hframes).symm
  | branch => exact plain _ (Option.some.inj hframes).symm
  | call => exact plain _ (Option.some.inj hframes).symm
  | stsfld => exact plain _ (Option.some.inj hframes).symm
  | throw => exact plain _ (Option.some.inj hframes).symm

theorem alwaysFollowsFrames_of_hasFrames (events : List ProbeEvent) :
    ∀ (s : ProfilerState) (live : ℕ), HasFrames s thread live 0 → IsFrameRun live events →
      (AlwaysFollowsFrames thread s live events ↔ NoTailcallFromLastFrame live events) := by
  induction events with
  | nil => intro s live _ _; exact Iff.rfl
  | cons e es ih =>
      intro s live h hrun
      obtain ⟨live', hframes, hes⟩ := hrun
      constructor
      · rintro ⟨s', live'', hstep, hframes', hfollows, hrest⟩
        obtain rfl : live' = live'' := Option.some.inj (hframes.symm.trans hframes')
        have htail : ¬(e.probe = .tailcall ∧ live = 1) := by
          -- the last frame is gone, yet the thread is still tracked
          rintro ⟨hprobe, rfl⟩
          obtain rfl : 0 = live' := by simpa [hprobe, framesAfter] using hframes
          rw [ProbeEvent.run, hprobe] at hstep
          exact absurd (hfollows.tracked_iff.mp (trackTailcall_last h _ _ hstep)) (lt_irrefl 0)
        obtain ⟨s'', hstep', -, hs''⟩ := ProbeEvent.run_follows h hframes htail
        obtain rfl : s' = s'' := Except.ok.inj (hstep.symm.trans hstep')
        refine ⟨htail, fun next hnext => ?_⟩
        obtain rfl : live' = next := Option.some.inj (hframes.symm.trans hnext)
        exact (ih s' live' hs'' hes).mp hrest
      · rintro ⟨htail, hrest⟩
        obtain ⟨s', hstep, hfollows, hs'⟩ := ProbeEvent.run_follows h hframes htail
        exact ⟨s', live', hstep, hframes, hfollows,
          (ih s' live' hs' hes).mpr (hrest live' hframes)⟩

/-- **When the balance follows the main frames.**  On a thread that starts outside every
invocation, every event of a run of main frames does what it should exactly when no tail call
leaves the last frame: `Track_Tailcall` pops the frame without ending the invocation. -/
theorem alwaysFollowsFrames_iff (s : ProfilerState) (thread : ThreadID)
    (events : List ProbeEvent) (hs : Untracked s thread) (hrun : IsFrameRun 0 events) :
    AlwaysFollowsFrames thread s 0 events ↔ NoTailcallFromLastFrame 0 events :=
  alwaysFollowsFrames_of_hasFrames events s 0 (hasFrames_zero.mpr hs) hrun

theorem untracked_init (isPassiveRun collectMainOnly : Bool) (thread : ThreadID) :
    Untracked (.init isPassiveRun collectMainOnly) thread := ⟨rfl, rfl, rfl⟩

/-- Two nested main frames: the inner one tail-calls, the outer one returns. -/
theorem alwaysFollowsFrames_iff_nested :
    AlwaysFollowsFrames 0 (.init false true) 0
        [⟨.enterMain, 0, 0⟩, ⟨.enterMain, 0, 0⟩, ⟨.tailcall, 5, 0⟩, ⟨.leaveMain, 9, 0⟩]
      ↔ NoTailcallFromLastFrame 0
        [⟨.enterMain, 0, 0⟩, ⟨.enterMain, 0, 0⟩, ⟨.tailcall, 5, 0⟩, ⟨.leaveMain, 9, 0⟩] :=
  alwaysFollowsFrames_iff _ _ _ (untracked_init _ _ _)
    ⟨1, rfl, 2, rfl, 1, rfl, 0, rfl, trivial⟩

/-- A main frame that leaves by a tail call keeps its thread tracked. -/
theorem tailcall_keeps_thread_tracked :
    IsFrameRun 0 [⟨.enterMain, 0, 0⟩, ⟨.tailcall, 5, 0⟩]
      ∧ ¬AlwaysFollowsFrames 0 (.init false true) 0 [⟨.enterMain, 0, 0⟩, ⟨.tailcall, 5, 0⟩] := by
  have hrun : IsFrameRun 0 [⟨.enterMain, 0, 0⟩, ⟨.tailcall, 5, 0⟩] := ⟨1, rfl, 0, rfl, trivial⟩
  refine ⟨hrun, fun hfollows => ?_⟩
  have hno := (alwaysFollowsFrames_of_hasFrames _ _ _
    (hasFrames_zero.mpr (untracked_init false true 0)) hrun).mp hfollows
  exact (hno.2 1 rfl).1 ⟨rfl, rfl⟩

end TestExecutor
