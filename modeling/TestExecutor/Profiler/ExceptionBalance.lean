import TestExecutor.Profiler.FrameBalance

/-!
# The stack balance over runs with exceptions

Main-only mode with one main method.  `FrameStack` is what a thread is doing: a stack of main
frames and running exception filters, and the unwinding under way.  The profiler sees only the
events, and decides by `(!inFilter || balance > 1) && !stackBalanceDown` when an unwound main
frame was the last one.

* `FrameEvent`, `FrameStack.step` — the events and what each does to the frames;
* `frames`, `filtersAboveMain` — main frames, and filters above the lowest of them;
* `Balanced` — the invariant: the profiler has these frames and these filters, no assertion of
  `ThreadTracker` has failed, and an unwinding that began on a tracked thread is remembered;
* `FrameEvent.run_balanced` — one event keeps it; `exceptions_keep_balance` — so does a run.
-/

namespace TestExecutor

open TestExecutor.Library

/-! ### The frames of a thread -/

/-- What a thread can have on its stack. -/
inductive Frame where
  | main | filter
  deriving DecidableEq, Repr

/-- The number of main frames. -/
def frames (stack : List Frame) : ℕ := stack.count .main

/-- The number of filters above the lowest main frame; the top of the stack is the head. -/
def filtersAboveMain : List Frame → ℕ
  | [] => 0
  | .main :: below => filtersAboveMain below
  | .filter :: below => filtersAboveMain below + if frames below = 0 then 0 else 1

/-- The stack of a thread and the unwinding under way: the function, and the stack at its start,
to which the thread is back when the unwinding ends. -/
structure FrameStack where
  stack : List Frame
  unwinding : Option (FunctionID × List Frame)
  deriving DecidableEq

def FrameStack.empty : FrameStack := ⟨[], none⟩

/-- The events of a thread.  The id of a function is not `0`. -/
inductive FrameEvent where
  | enterMain (offset : UInt32) (methodId : Int32)
  | leaveMain (offset : UInt32) (methodId : Int32)
  | unwindEnter (functionId : FunctionID) (h : functionId ≠ 0)
  | unwindLeave
  -- the unwinding stops at a function that catches: no leave follows
  | catchEnter (functionId : FunctionID) (h : functionId ≠ 0)
  | filterEnter
  | filterLeave

/-- The top of the stack is above everything that the unwinding under way began with. -/
def FrameStack.CanPop (fs : FrameStack) : Prop := ∀ f base, fs.unwinding = some (f, base) →
  base ≠ fs.stack

instance (fs : FrameStack) : Decidable fs.CanPop :=
  match h : fs.unwinding with
  | none => .isTrue fun _ _ heq => by simp [h] at heq
  | some (f, base) => decidable_of_iff (base ≠ fs.stack) ⟨fun hne f' base' heq => by
      obtain ⟨rfl, rfl⟩ : f = f' ∧ base = base' := by simpa [h] using heq
      exact hne, fun hall => hall f base h⟩

/-- What an event does to the frames; `none` where the event cannot happen.  Only the top element
is removed, and the unwinding of `main` removes the frame that was on top when it began. -/
def FrameStack.step (main : FunctionID) (fs : FrameStack) : FrameEvent → Option FrameStack
  | .enterMain _ _ => some { fs with stack := .main :: fs.stack }
  | .leaveMain _ _ =>
      match fs.stack with
      | .main :: below => if fs.CanPop then some { fs with stack := below } else none
      | _ => none
  | .unwindEnter functionId _ =>
      if fs.unwinding = none ∧ (functionId = main → fs.stack.head? = some .main)
        then some { fs with unwinding := some (functionId, fs.stack) } else none
  | .unwindLeave =>
      match fs.unwinding with
      | some (functionId, base) =>
          if fs.stack = base
            then some ⟨if functionId = main then base.tail else base, none⟩ else none
      | none => none
  | .catchEnter _ _ => if fs.unwinding = none then some fs else none
  | .filterEnter => some { fs with stack := .filter :: fs.stack }
  | .filterLeave =>
      match fs.stack with
      | .filter :: below => if fs.CanPop then some { fs with stack := below } else none
      | _ => none

def FrameStack.run (main : FunctionID) (fs : FrameStack) : List FrameEvent → Option FrameStack
  | [] => some fs
  | e :: es => (fs.step main e).bind fun fs' => fs'.run main es

/-- What the profiler does on an event. -/
def FrameEvent.run (s : ProfilerState) (thread : ThreadID) :
    FrameEvent → Except Fault ProfilerState
  | .enterMain offset methodId => s.trackEnterMain thread offset methodId
  | .leaveMain offset methodId => s.trackLeaveMain thread offset methodId
  | .unwindEnter functionId _ => .ok (s.exceptionUnwindFunctionEnter thread functionId)
  | .unwindLeave => s.exceptionUnwindFunctionLeave thread
  | .catchEnter functionId _ => .ok (s.exceptionUnwindFunctionEnter thread functionId)
  | .filterEnter => .ok (s.exceptionSearchFilterEnter thread)
  | .filterLeave => .ok (s.exceptionSearchFilterLeave thread)

def runFrameEvents (thread : ThreadID) (s : ProfilerState) :
    List FrameEvent → Except Fault ProfilerState
  | [] => .ok s
  | e :: es => do runFrameEvents thread (← e.run s thread) es

@[simp] theorem frames_main (below : List Frame) : frames (.main :: below) = frames below + 1 := by
  simp [frames]

@[simp] theorem frames_filter (below : List Frame) : frames (.filter :: below) = frames below := by
  simp [frames]

/-- Without main frames no filter counts. -/
theorem filtersAboveMain_eq_zero {stack : List Frame} (h : frames stack = 0) :
    filtersAboveMain stack = 0 := by
  induction stack with
  | nil => rfl
  | cons frame below ih =>
      cases frame with
      | main => simp at h
      | filter => rw [frames_filter] at h; simp [filtersAboveMain, h, ih h]

/-! ### The invariant -/

open ProfilerState

/-- The profiler's state is the one for these frames. -/
structure Balanced (main : FunctionID) (s : ProfilerState) (thread : ThreadID) (fs : FrameStack) :
    Prop where
  frames_eq : HasFrames s thread (frames fs.stack) (filtersAboveMain fs.stack)
  running : s.isFinished = false
  mainOnly : s.collectMainOnly = true
  main_eq : s.mainFunctionId = main
  asserts : AssertSite.threadTracker ∉ s.failedAsserts
  -- an unwinding that began on a tracked thread is the one that `ThreadTracker` remembers
  base_suffix : ∀ f base, fs.unwinding = some (f, base) → base <:+ fs.stack
  remembered : ∀ f base, fs.unwinding = some (f, base) → frames base ≠ 0 →
    s.unwindFunctionIds.lookup thread = some f
  main_on_top : ∀ base, fs.unwinding = some (main, base) → base.head? = some .main

variable {main : FunctionID} {s s' : ProfilerState} {thread : ThreadID} {fs fs' : FrameStack}

/-- An event that touches neither the unwinding under way nor what is remembered of it. -/
theorem Balanced.of_sameContext (h : Balanced main s thread fs) (hcontext : SameContext s s')
    (hasserts : AssertSite.threadTracker ∉ s'.failedAsserts) {stack : List Frame}
    (hframes : HasFrames s' thread (frames stack) (filtersAboveMain stack))
    (hsuffix : ∀ f base, fs.unwinding = some (f, base) → base <:+ stack) :
    Balanced main s' thread ⟨stack, fs.unwinding⟩ where
  frames_eq := hframes
  running := hcontext.isFinished_eq.trans h.running
  mainOnly := hcontext.collectMainOnly_eq.trans h.mainOnly
  main_eq := hcontext.mainFunctionId_eq.trans h.main_eq
  asserts := hasserts
  base_suffix := hsuffix
  remembered := by rw [hcontext.unwindFunctionIds_eq]; exact h.remembered
  main_on_top := h.main_on_top

/-- What was pushed since the unwinding began can be popped. -/
theorem Balanced.suffix_of_canPop {frame : Frame} {below : List Frame}
    (h : Balanced main s thread fs) (hpop : fs.CanPop) (hstack : fs.stack = frame :: below) :
    ∀ f base, fs.unwinding = some (f, base) → base <:+ below := by
  intro f base hunwinding
  have hsuffix := h.base_suffix f base hunwinding
  rw [hstack] at hsuffix
  rcases List.suffix_cons_iff.mp hsuffix with hbase | hbelow
  · exact absurd (hbase.trans hstack.symm) (hpop f base hunwinding)
  · exact hbelow

theorem Balanced.suffix_push (h : Balanced main s thread fs) (frame : Frame) :
    ∀ f base, fs.unwinding = some (f, base) → base <:+ frame :: fs.stack :=
  fun f base hunwinding => (h.base_suffix f base hunwinding).trans (List.suffix_cons _ _)

/-! ### The callbacks on a tracked thread -/

variable {balance filters : ℤ} {history : CoverageHistory} {functionId : FunctionID}

theorem unwindFunctionEnter_tracked (h : Tracked s thread balance filters history)
    (hid : functionId ≠ 0) :
    s.unwindFunctionEnter thread functionId
      = { s with unwindFunctionIds := s.unwindFunctionIds.insert thread functionId } := by
  have hcorrect : isCorrectFunctionId functionId = true := by
    simpa [isCorrectFunctionId] using hid.symm
  simp [unwindFunctionEnter, h.isCurrentThreadTracked, hcorrect, ThreadStorage.storeOrUpdate]

/-- The end of another function's unwinding leaves the frames alone. -/
theorem unwindFunctionLeave_other (h : Tracked s thread balance filters history)
    (hmode : s.collectMainOnly = true) (hid : s.unwindFunctionIds.lookup thread = some functionId)
    (hother : s.mainFunctionId ≠ functionId) :
    s.unwindFunctionLeave thread
      = .ok { s with unwindFunctionIds := s.unwindFunctionIds.erase thread } := by
  have hexist : ThreadStorage.exist s.unwindFunctionIds thread = true :=
    ThreadStorage.exist_eq_true.mpr ⟨_, hid⟩
  simp [unwindFunctionLeave, h.isCurrentThreadTracked, hexist, ThreadStorage.remove,
    ThreadStorage.load_of_lookup hid, hmode, hother]

/-- The end of the main function's unwinding pops a frame, provided that an open filter stands
above another main frame; the last frame ends the invocation. -/
theorem unwindFunctionLeave_main (h : Tracked s thread balance filters history)
    (hid : s.unwindFunctionIds.lookup thread = some s.mainFunctionId) (hpos : 1 ≤ balance)
    (hfilters : 0 ≤ filters) (hopen : balance = 1 → filters = 0) :
    s.unwindFunctionLeave thread
      = .ok (let popped := { s with
                unwindFunctionIds := s.unwindFunctionIds.erase thread
                stackBalances := s.stackBalances.insert thread (balance - 1) }
        if balance = 1 then popped.finished thread history else popped) := by
  have hexist : ThreadStorage.exist s.unwindFunctionIds thread = true :=
    ThreadStorage.exist_eq_true.mpr ⟨_, hid⟩
  have herased : Tracked { s with unwindFunctionIds := s.unwindFunctionIds.erase thread } thread
      balance filters history := ⟨h.balance_eq, h.filters_eq, h.history_eq⟩
  have hdown := stackBalanceDown_tracked herased hpos
  simp only [unwindFunctionLeave, h.isCurrentThreadTracked, profilerAssert_true, hexist,
    ThreadStorage.load_of_lookup hid, ThreadStorage.remove, ne_eq, not_true_eq_false, decide_false,
    Bool.and_false, Bool.false_eq_true, if_false, isInFilter_tracked herased,
    stackBalance_tracked herased (by omega)]
  by_cases hone : balance = 1
  · subst hone
    obtain rfl : filters = 0 := hopen rfl
    have hlost := loseCurrentThread_tracked (herased.setBalance (1 - 1))
    simpa [hdown] using hlost
  · have hne : balance - 1 ≠ 0 := by omega
    by_cases hfilter : filters > 0
    · have hmany : balance > 1 := by omega
      simp [hfilter, hmany, hdown, hne, hone]
    · simp [hfilter, hdown, hne, hone]

/-! ### One event -/

/-- The callbacks that return at once on an untracked thread. -/
theorem callbacks_untracked (h : Untracked s thread) (functionId : FunctionID) :
    s.exceptionUnwindFunctionEnter thread functionId = s
      ∧ s.exceptionUnwindFunctionLeave thread = .ok s
      ∧ s.exceptionSearchFilterEnter thread = s
      ∧ s.exceptionSearchFilterLeave thread = s := by
  simp [exceptionUnwindFunctionEnter, exceptionUnwindFunctionLeave, exceptionSearchFilterEnter,
    exceptionSearchFilterLeave, h.isCurrentThreadTracked]

theorem filterEnter_balanced (h : Balanced main s thread fs) :
    Balanced main (s.exceptionSearchFilterEnter thread) thread
      ⟨.filter :: fs.stack, fs.unwinding⟩ := by
  have hframes := h.frames_eq
  by_cases hzero : frames fs.stack = 0
  · rw [hzero] at hframes
    rw [(callbacks_untracked (hasFrames_zero.mp hframes) 0).2.2.1]
    refine h.of_sameContext ⟨rfl, rfl, rfl, rfl⟩ h.asserts ?_ (h.suffix_push _)
    rw [frames_filter, hzero]
    exact hasFrames_zero.mpr (hasFrames_zero.mp hframes)
  · obtain ⟨history, htracked⟩ := hframes.tracked hzero
    have hset := htracked.setFilters (filtersAboveMain fs.stack + 1)
    rw [exceptionSearchFilterEnter, h.running, htracked.isCurrentThreadTracked, if_neg (by simp),
      filterEnter_tracked htracked]
    refine h.of_sameContext ?_ ?_ ?_ (h.suffix_push _)
    · exact ⟨rfl, rfl, rfl, rfl⟩
    · exact h.asserts
    rw [frames_filter, filtersAboveMain, if_neg hzero, HasFrames, if_neg hzero]
    exact ⟨history, by exact_mod_cast hset⟩

theorem filterLeave_balanced {below : List Frame} (h : Balanced main s thread fs)
    (hpop : fs.CanPop) (hstack : fs.stack = .filter :: below) :
    Balanced main (s.exceptionSearchFilterLeave thread) thread ⟨below, fs.unwinding⟩ := by
  have hframes := h.frames_eq
  have hsuffix := h.suffix_of_canPop hpop hstack
  rw [hstack, frames_filter] at hframes
  by_cases hzero : frames below = 0
  · rw [hzero] at hframes
    rw [(callbacks_untracked (hasFrames_zero.mp hframes) 0).2.2.2]
    refine h.of_sameContext ⟨rfl, rfl, rfl, rfl⟩ h.asserts ?_ hsuffix
    rw [hzero]
    exact hasFrames_zero.mpr (hasFrames_zero.mp hframes)
  · rw [filtersAboveMain, if_neg hzero] at hframes
    obtain ⟨history, htracked⟩ := hframes.tracked hzero
    have hset := htracked.setFilters (filtersAboveMain below)
    rw [exceptionSearchFilterLeave, h.running, htracked.isCurrentThreadTracked, if_neg (by simp),
      filterLeave_tracked htracked]
    refine h.of_sameContext ?_ ?_ ?_ hsuffix
    · exact ⟨rfl, rfl, rfl, rfl⟩
    · exact h.asserts
    rw [HasFrames, if_neg hzero]
    exact ⟨history, by simpa using hset⟩

/-- A remembered unwinding that no leave follows is stale: it does not matter. -/
theorem Balanced.forget (h : Balanced main s thread fs) : Balanced main s thread ⟨fs.stack, none⟩ :=
  ⟨h.frames_eq, h.running, h.mainOnly, h.main_eq, h.asserts, by simp, by simp, by simp⟩

/-- Entering an unwinding is remembered on a tracked thread and ignored on another one. -/
theorem unwindEnter_remembered (h : Balanced main s thread fs) (hid : functionId ≠ 0) :
    Balanced main (s.exceptionUnwindFunctionEnter thread functionId) thread ⟨fs.stack, none⟩
      ∧ (frames fs.stack ≠ 0 →
        (s.exceptionUnwindFunctionEnter thread functionId).unwindFunctionIds.lookup thread
          = some functionId) := by
  have hframes := h.frames_eq
  by_cases hzero : frames fs.stack = 0
  · rw [hzero] at hframes
    rw [(callbacks_untracked (hasFrames_zero.mp hframes) _).1]
    exact ⟨h.forget, fun hne => absurd hzero hne⟩
  · obtain ⟨history, htracked⟩ := hframes.tracked hzero
    rw [exceptionUnwindFunctionEnter, if_pos htracked.isCurrentThreadTracked,
      unwindFunctionEnter_tracked htracked hid]
    refine ⟨⟨?_, h.running, h.mainOnly, h.main_eq, h.asserts, by simp, by simp, by simp⟩,
      fun _ => OrderedMap.lookup_insert_self _ _ _⟩
    rw [HasFrames, if_neg hzero]
    exact ⟨history, htracked.balance_eq, htracked.filters_eq, htracked.history_eq⟩

/-- The unwinding under way of a function that is remembered. -/
theorem Balanced.unwinding {stack : List Frame} (h : Balanced main s thread ⟨stack, none⟩)
    (hid : frames stack ≠ 0 → s.unwindFunctionIds.lookup thread = some functionId)
    (htop : functionId = main → stack.head? = some .main) :
    Balanced main s thread ⟨stack, some (functionId, stack)⟩ := by
  refine ⟨h.frames_eq, h.running, h.mainOnly, h.main_eq, h.asserts, ?_, ?_, ?_⟩
  · rintro f base heq
    obtain ⟨rfl, rfl⟩ : functionId = f ∧ stack = base := by simpa using heq
    exact List.suffix_rfl
  · rintro f base heq hne
    obtain ⟨rfl, rfl⟩ : functionId = f ∧ stack = base := by simpa using heq
    exact hid hne
  · rintro base heq
    obtain ⟨rfl, rfl⟩ : functionId = main ∧ stack = base := by simpa using heq
    exact htop rfl

theorem unwindEnter_balanced (h : Balanced main s thread fs) (hid : functionId ≠ 0)
    (htop : functionId = main → fs.stack.head? = some .main) :
    Balanced main (s.exceptionUnwindFunctionEnter thread functionId) thread
      ⟨fs.stack, some (functionId, fs.stack)⟩ := by
  obtain ⟨hentered, hremembered⟩ := unwindEnter_remembered h hid
  exact hentered.unwinding hremembered htop

/-- The end of the unwinding of `main` removes its frame. -/
theorem unwindLeave_main_balanced {below : List Frame} (h : Balanced main s thread fs)
    (hstack : fs.stack = .main :: below) (hunwinding : fs.unwinding = some (main, fs.stack)) :
    ∃ s', s.exceptionUnwindFunctionLeave thread = .ok s'
      ∧ Balanced main s' thread ⟨below, none⟩ := by
  have hframes := h.frames_eq
  have hid := h.remembered _ _ hunwinding (by rw [hstack, frames_main]; omega)
  rw [hstack, frames_main, filtersAboveMain] at hframes
  obtain ⟨history, htracked⟩ := hasFrames_succ.mp hframes
  rw [← h.main_eq] at hid
  have hleave := unwindFunctionLeave_main htracked hid (by omega) (by omega)
    (by intro hone; rw [filtersAboveMain_eq_zero (by omega)]; rfl)
  rw [exceptionUnwindFunctionLeave, h.running, htracked.isCurrentThreadTracked, if_neg (by simp)]
  refine ⟨_, hleave, ?_⟩
  by_cases hzero : frames below = 0
  · rw [hzero, if_pos (by rfl)]
    refine ⟨?_, h.running, h.mainOnly, h.main_eq, finished_failedAsserts h.asserts,
      by simp, by simp, by simp⟩
    rw [hzero]
    exact hasFrames_zero.mpr (finished_untracked _ _ _)
  · rw [if_neg (by omega)]
    refine ⟨?_, h.running, h.mainOnly, h.main_eq, h.asserts, by simp, by simp, by simp⟩
    rw [HasFrames, if_neg hzero]
    exact ⟨history, by simp, htracked.filters_eq, htracked.history_eq⟩

/-- The end of the unwinding of another function removes nothing. -/
theorem unwindLeave_other_balanced (h : Balanced main s thread fs) (hother : functionId ≠ main)
    (hunwinding : fs.unwinding = some (functionId, fs.stack)) :
    ∃ s', s.exceptionUnwindFunctionLeave thread = .ok s'
      ∧ Balanced main s' thread ⟨fs.stack, none⟩ := by
  have hframes := h.frames_eq
  by_cases hzero : frames fs.stack = 0
  · rw [hzero] at hframes
    exact ⟨s, (callbacks_untracked (hasFrames_zero.mp hframes) 0).2.1, h.forget⟩
  · have hid := h.remembered _ _ hunwinding hzero
    obtain ⟨history, htracked⟩ := hframes.tracked hzero
    have hleave := unwindFunctionLeave_other htracked h.mainOnly hid
      (by rw [h.main_eq]; exact Ne.symm hother)
    rw [exceptionUnwindFunctionLeave, h.running, htracked.isCurrentThreadTracked,
      if_neg (by simp)]
    refine ⟨_, hleave, ?_, h.running, h.mainOnly, h.main_eq, h.asserts, by simp, by simp, by simp⟩
    rw [HasFrames, if_neg hzero]
    exact ⟨history, htracked.balance_eq, htracked.filters_eq, htracked.history_eq⟩

/-- One event keeps the invariant. -/
theorem FrameEvent.run_balanced {e : FrameEvent} (h : Balanced main s thread fs)
    (hstep : fs.step main e = some fs') :
    ∃ s', e.run s thread = .ok s' ∧ Balanced main s' thread fs' := by
  cases e with
  | enterMain offset methodId =>
      obtain rfl : _ = fs' := Option.some.inj hstep
      obtain ⟨s', hrun, hframes, -, hasserts, hcontext⟩ :=
        trackEnterMain_hasFrames h.frames_eq filtersAboveMain_eq_zero offset methodId
      refine ⟨s', hrun, h.of_sameContext hcontext (hasserts ▸ h.asserts) ?_ (h.suffix_push _)⟩
      rw [frames_main, filtersAboveMain]
      exact hframes
  | leaveMain offset methodId =>
      simp only [FrameStack.step] at hstep
      split at hstep
      · rename_i below hstack
        split at hstep
        · rename_i hpop
          obtain rfl : _ = fs' := Option.some.inj hstep
          have hbefore := h.frames_eq
          rw [hstack, frames_main, filtersAboveMain] at hbefore
          obtain ⟨s', hrun, hframes, -, hasserts, hcontext⟩ :=
            trackLeaveMain_hasFrames hbefore filtersAboveMain_eq_zero offset methodId
          exact ⟨s', hrun, h.of_sameContext hcontext (hasserts h.asserts) hframes
            (h.suffix_of_canPop hpop hstack)⟩
        · cases hstep
      · cases hstep
  | unwindEnter functionId hid =>
      simp only [FrameStack.step] at hstep
      split at hstep
      · rename_i hcan
        obtain rfl : _ = fs' := Option.some.inj hstep
        exact ⟨_, rfl, unwindEnter_balanced h hid hcan.2⟩
      · cases hstep
  | unwindLeave =>
      simp only [FrameStack.step] at hstep
      split at hstep
      · rename_i functionId base hunwinding
        split at hstep
        · rename_i hbase
          subst hbase
          obtain rfl : _ = fs' := Option.some.inj hstep
          by_cases hmain : functionId = main
          · subst hmain
            obtain ⟨below, hstack⟩ : ∃ below, fs.stack = .main :: below :=
              List.head?_eq_some_iff.mp (h.main_on_top _ hunwinding)
            rw [if_pos rfl, hstack, List.tail_cons]
            exact unwindLeave_main_balanced h hstack hunwinding
          · rw [if_neg hmain]
            exact unwindLeave_other_balanced h hmain hunwinding
        · cases hstep
      · cases hstep
  | catchEnter functionId hid =>
      simp only [FrameStack.step] at hstep
      split at hstep
      · rename_i hnone
        obtain rfl : fs = fs' := Option.some.inj hstep
        have hentered := (unwindEnter_remembered h hid).1
        rw [← hnone] at hentered
        exact ⟨_, rfl, hentered⟩
      · cases hstep
  | filterEnter =>
      obtain rfl : _ = fs' := Option.some.inj hstep
      exact ⟨_, rfl, filterEnter_balanced h⟩
  | filterLeave =>
      simp only [FrameStack.step] at hstep
      split at hstep
      · rename_i below hstack
        split at hstep
        · rename_i hpop
          obtain rfl : _ = fs' := Option.some.inj hstep
          exact ⟨_, rfl, filterLeave_balanced h hpop hstack⟩
        · cases hstep
      · cases hstep

/-- A run of events keeps the invariant. -/
theorem run_balanced (events : List FrameEvent) :
    ∀ (s : ProfilerState) (fs : FrameStack), Balanced main s thread fs →
      fs.run main events = some fs' →
      ∃ s', runFrameEvents thread s events = .ok s' ∧ Balanced main s' thread fs' := by
  induction events with
  | nil =>
      intro s fs h hrun
      obtain rfl : fs = fs' := Option.some.inj hrun
      exact ⟨s, rfl, h⟩
  | cons e es ih =>
      intro s fs h hrun
      obtain ⟨next, hstep, hrest⟩ := Option.bind_eq_some_iff.mp hrun
      obtain ⟨s', hs', hnext⟩ := FrameEvent.run_balanced h hstep
      obtain ⟨s'', hs'', hlast⟩ := ih s' next hnext hrest
      exact ⟨s'', by simpa [runFrameEvents, hs', bind, Except.bind] using hs'', hlast⟩

/-- **Exceptions and filters keep the balance.**  From a thread outside every invocation, after
every run of events (so after every prefix of a run) the thread is tracked exactly when it has a
main frame, its balance is the number of main frames, its filter count is the number of filters
above the lowest one, and no assertion of `ThreadTracker` has failed. -/
theorem exceptions_keep_balance (s : ProfilerState) (thread : ThreadID) (hs : Untracked s thread)
    (hrunning : s.isFinished = false) (hmode : s.collectMainOnly = true)
    (hasserts : AssertSite.threadTracker ∉ s.failedAsserts) (events : List FrameEvent)
    (fs : FrameStack) (hrun : FrameStack.empty.run s.mainFunctionId events = some fs) :
    ∃ s', runFrameEvents thread s events = .ok s'
      ∧ (s'.isCurrentThreadTracked thread = true ↔ Frame.main ∈ fs.stack)
      ∧ (s'.stackBalances.lookup thread).getD 0 = frames fs.stack
      ∧ (s'.inFilterMapping.lookup thread).getD 0 = filtersAboveMain fs.stack
      ∧ AssertSite.threadTracker ∉ s'.failedAsserts := by
  have hstart : Balanced s.mainFunctionId s thread FrameStack.empty :=
    ⟨hasFrames_zero.mpr hs, hrunning, hmode, rfl, hasserts, by simp [FrameStack.empty],
      by simp [FrameStack.empty], by simp [FrameStack.empty]⟩
  obtain ⟨s', hs', hend⟩ := run_balanced events s FrameStack.empty hstart hrun
  refine ⟨s', hs', ?_, hend.frames_eq.balance_eq,
    hend.frames_eq.filters_eq filtersAboveMain_eq_zero, hend.asserts⟩
  rw [hend.frames_eq.tracked_iff, frames, List.count_pos_iff]

/-- A filter runs main again, whose frame is unwound while the filter is open. -/
theorem exceptions_keep_balance_nested :
    ∃ s', runFrameEvents 0 { ProfilerState.init false true with mainFunctionId := 7 }
        [.enterMain 0 0, .filterEnter, .enterMain 0 0, .unwindEnter 7 (by decide), .unwindLeave,
          .filterLeave] = .ok s'
      ∧ (s'.isCurrentThreadTracked 0 = true ↔ Frame.main ∈ [Frame.main])
      ∧ (s'.stackBalances.lookup 0).getD 0 = frames [.main]
      ∧ (s'.inFilterMapping.lookup 0).getD 0 = filtersAboveMain [.main]
      ∧ AssertSite.threadTracker ∉ s'.failedAsserts :=
  exceptions_keep_balance _ 0 ⟨rfl, rfl, rfl⟩ rfl rfl (by decide) _ ⟨[.main], none⟩ (by decide)

end TestExecutor
