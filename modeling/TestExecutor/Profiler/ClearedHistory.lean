import TestExecutor.Profiler.Steps

/-!
# Probes beside a collection

`GetHistory` clears the histories of all threads, and only later the balances that the probes test.
A probe that has passed its test of `isCurrentThreadTracked` loads the history of its thread.

* `NoNullLoad` — no `addCoverage` has loaded a missing or null history;
* `LoadsStored` — the history that is loaded was stored after the last `trackedCoverage->clear()`;
* `Stored`, `PcReady`, `Ready` — where every thread stands, as long as that holds;
* `noNullLoad_iff`.
-/

namespace TestExecutor

open TestExecutor.Library ProfilerState

/-! ### What is asked -/

/-- No `addCoverage` has gone through a missing or null history. -/
def NoNullLoad (w : World) : Prop :=
  ∀ offset event methodId after, w.crashed ≠ some (.addLoad offset event methodId after)

/-- The thread whose `addCoverage` loads its history has stored it since the last
`trackedCoverage->clear()`. -/
def LoadsStored (w : World) : Act → Prop
  | .step thread => w.crashed = none → ∀ offset event methodId after,
      w.pc thread = .task (.addLoad offset event methodId after) → w.cleared thread = false
  | .call _ _ => True

/-! ### Where the threads stand -/

/-- The thread has a history, or it was cleared. -/
def Stored (w : World) (thread : ThreadID) : Prop :=
  w.cleared thread = true ∨ ∃ history, w.profiler.trackedCoverage.lookup thread = some (some history)

/-- What holds in front of an operation: behind the test of a probe the history was stored; the
`addCoverage` that may create it looks first; a thread that has finished is not tracked. -/
def TaskReady (w : World) (thread : ThreadID) : Task → Prop
  | .trackBalances _ _ | .trackFilters _ _ | .trackUp _ _ | .addStore _ _ _ | .abort | .lose
  | .finishLoad | .finishMapping _ | .finishMappedId _ | .finishVisit _ _ | .finishRemove _ _
  | .finishPush _ _ | .finishBalances => True
  | .add _ event _ _ =>
      event = .enterMain ∨ w.profiler.collectMainOnly = false ∨ Stored w thread
  | .finishFilters | .finishUnmap => w.profiler.isCurrentThreadTracked thread = false
  | .stackUp | .stackDown | .mainDown | .tailcallDown _ _ | .addLoad _ _ _ _ | .filterUp
  | .filterDown | .unwindStore _ | .unwindLoad | .unwindRemove _ | .unwindFilter
  | .unwindBalance => Stored w thread

def PcReady (w : World) (thread : ThreadID) : Pc → Prop
  | .idle | .history _ => w.profiler.isCurrentThreadTracked thread = true → Stored w thread
  | .task t => TaskReady w thread t

/-- The thread has aborted its invocation, and is on its way to the null history. -/
def Aborting : Pc → Prop
  | .task .finishLoad | .task (.finishMapping none) | .task (.finishMappedId none)
  | .task (.finishVisit none _) => True
  | _ => False

structure Ready (w : World) : Prop where
  cleared_none : ∀ t, w.cleared t = true → ∀ history,
    w.profiler.trackedCoverage.lookup t ≠ some (some history)
  null_aborting : ∀ t, w.profiler.trackedCoverage.lookup t = some none → Aborting (w.pc t)
  pc_ready : ∀ t, PcReady w t (w.pc t)
  unbroken : NoNullLoad w

variable {w w' : World} {thread t : ThreadID} {task : Task}

theorem TaskReady.of_stored (h : Stored w thread) (hbusy : task ≠ .finishFilters)
    (hbusy' : task ≠ .finishUnmap) : TaskReady w thread task := by
  cases task <;> first | exact trivial | exact h | exact Or.inr (Or.inr h) | contradiction

/-- A thread that keeps its history, and does not become tracked, is as ready as before. -/
theorem PcReady.mono {pc : Pc} (h : PcReady w thread pc) (hstored : Stored w thread → Stored w' thread)
    (htracked : w'.profiler.isCurrentThreadTracked thread = true →
      w.profiler.isCurrentThreadTracked thread = true)
    (hmode : w'.profiler.collectMainOnly = w.profiler.collectMainOnly) :
    PcReady w' thread pc := by
  have huntracked : w.profiler.isCurrentThreadTracked thread = false →
      w'.profiler.isCurrentThreadTracked thread = false := by
    intro hfalse
    by_contra hnot
    rw [htracked (by simpa using hnot)] at hfalse
    cases hfalse
  cases pc with
  | idle => exact fun ht => hstored (h (htracked ht))
  | history pc => exact fun ht => hstored (h (htracked ht))
  | task task =>
      cases task with
      | add offset event methodId after =>
          rcases h with h | h | h
          · exact Or.inl h
          · exact Or.inr (Or.inl (hmode.trans h))
          · exact Or.inr (Or.inr (hstored h))
      | finishFilters => exact huntracked h
      | finishUnmap => exact huntracked h
      | _ => first | exact trivial | exact hstored h

/-- The states agree on a thread. -/
structure SameThread (w w' : World) (thread : ThreadID) : Prop where
  history_eq : w'.profiler.trackedCoverage.lookup thread = w.profiler.trackedCoverage.lookup thread
  balance_eq : w'.profiler.stackBalances.lookup thread = w.profiler.stackBalances.lookup thread
  cleared_eq : w'.cleared thread = w.cleared thread
  mode_eq : w'.profiler.collectMainOnly = w.profiler.collectMainOnly

theorem SameThread.stored (h : SameThread w w' thread) : Stored w' thread ↔ Stored w thread := by
  rw [Stored, Stored, h.cleared_eq, h.history_eq]

theorem SameThread.tracked (h : SameThread w w' thread) :
    w'.profiler.isCurrentThreadTracked thread = w.profiler.isCurrentThreadTracked thread := by
  rw [isCurrentThreadTracked, isCurrentThreadTracked, ThreadStorage.exist, ThreadStorage.exist,
    h.balance_eq]

theorem SameThread.pcReady (h : SameThread w w' thread) {pc : Pc} (hpc : PcReady w thread pc) :
    PcReady w' thread pc :=
  hpc.mono h.stored.mpr (fun ht => h.tracked ▸ ht) h.mode_eq

/-! ### One step -/

/-- A step of one thread. -/
theorem Ready.move (h : Ready w) (hothers : ∀ u ≠ thread, SameThread w w' u ∧ w'.pc u = w.pc u)
    (hcleared : w'.cleared thread = true → ∀ history,
      w'.profiler.trackedCoverage.lookup thread ≠ some (some history))
    (hnull : w'.profiler.trackedCoverage.lookup thread = some none → Aborting (w'.pc thread))
    (hpc : PcReady w' thread (w'.pc thread)) (hunbroken : NoNullLoad w') : Ready w' where
  cleared_none := by
    intro u hu history
    by_cases heq : u = thread
    · subst heq
      exact hcleared hu history
    · obtain ⟨hsame, -⟩ := hothers u heq
      rw [hsame.history_eq]
      exact h.cleared_none u (hsame.cleared_eq ▸ hu) history
  null_aborting := by
    intro u hu
    by_cases heq : u = thread
    · subst heq
      exact hnull hu
    · obtain ⟨hsame, hpcu⟩ := hothers u heq
      rw [hpcu]
      exact h.null_aborting u (hsame.history_eq ▸ hu)
  pc_ready := by
    intro u
    by_cases heq : u = thread
    · subst heq
      exact hpc
    · obtain ⟨hsame, hpcu⟩ := hothers u heq
      rw [hpcu]
      exact hsame.pcReady (h.pc_ready u)
  unbroken := hunbroken

variable {s' : ProfilerState} {next : Option Task}

/-- The operation belongs to the end of an invocation. -/
def Task.IsFinish : Task → Prop
  | .lose | .finishLoad | .finishMapping _ | .finishMappedId _ | .finishVisit _ _
  | .finishRemove _ _ | .finishPush _ _ | .finishBalances | .finishFilters | .finishUnmap => True
  | _ => False

theorem step_ok_inj {s₁ s₂ : ProfilerState} {next₁ next₂ : Option Task}
    (h : (Except.ok (s₁, next₁) : Except Fault (ProfilerState × Option Task)) = .ok (s₂, next₂)) :
    s₁ = s₂ ∧ next₁ = next₂ := Prod.mk.inj (Except.ok.inj h)

theorem Aborting.isFinish (h : Aborting (.task task)) : task.IsFinish := by
  cases task <;> first | exact trivial | exact h.elim

/-- A thread stays on its way to its null history. -/
theorem Aborting.step (h : Aborting (.task task)) (hplain : ¬task.IsCoverage)
    (hstep : task.step w.profiler thread = .ok (s', next))
    (hnone : w.profiler.trackedCoverage.lookup thread = some none) : Aborting (.ofTask next) := by
  cases task with
  | finishLoad =>
      obtain ⟨-, rfl⟩ := step_ok_inj hstep
      obtain ⟨asserts, hassert⟩ := profilerAssert_eq w.profiler .threadStorage
        (ThreadStorage.exist w.profiler.trackedCoverage thread)
      rw [hassert]
      show Aborting (.task (.finishMapping (ThreadStorage.load w.profiler.trackedCoverage thread)))
      rw [ThreadStorage.load_of_lookup hnone]
      trivial
  | finishMapping coverage =>
      obtain ⟨-, rfl⟩ := step_ok_inj hstep
      cases coverage with
      | none =>
          show Aborting (.task (if _ then _ else _))
          split
          · exact trivial
          · exact trivial
      | some history => exact h.elim
  | finishMappedId coverage =>
      obtain ⟨-, rfl⟩ := step_ok_inj hstep
      cases coverage with
      | none => exact trivial
      | some history => exact h.elim
  | finishVisit coverage threadId => exact absurd trivial hplain
  | _ => exact h.elim

/-- Behind the test of `addCoverage` the history was stored, unless it is created now. -/
theorem TaskReady.step_add {offset : UInt32} {event : CoverageEvent} {methodId : Int32}
    {after : AfterAdd} (hready : TaskReady w thread (.add offset event methodId after))
    (hnull : w.profiler.trackedCoverage.lookup thread ≠ some none)
    (hstep : (Task.add offset event methodId after).step w.profiler thread = .ok (s', next))
    (hstored : Stored w thread → Stored w' thread) : PcReady w' thread (.ofTask next) := by
  simp only [Task.step] at hstep
  split at hstep
  · obtain ⟨-, rfl⟩ := step_ok_inj hstep
    exact trivial
  · rename_i hcond
    obtain ⟨-, rfl⟩ := step_ok_inj hstep
    refine hstored ?_
    obtain ⟨asserts, hassert⟩ := profilerAssert_eq w.profiler .coverageTracker
      (w.profiler.isCurrentThreadTracked thread)
    rw [hassert] at hcond
    by_cases hexist : ThreadStorage.exist w.profiler.trackedCoverage thread = true
    · obtain ⟨v, hv⟩ := ThreadStorage.exist_eq_true.mp hexist
      cases v with
      | none => exact absurd hv hnull
      | some history => exact Or.inr ⟨history, hv⟩
    · rcases hready with hevent | hmode | hstored'
      · simp [hevent, hexist] at hcond
      · simp [hmode, hexist] at hcond
      · exact hstored'

/-- An operation of a probe or of a callback is followed by one that is ready. -/
theorem TaskReady.step (hready : TaskReady w thread task)
    (hnull : w.profiler.trackedCoverage.lookup thread ≠ some none) (hplain : ¬task.IsCoverage)
    (hfinish : ¬task.IsFinish) (hstep : task.step w.profiler thread = .ok (s', next))
    (hstored : Stored w thread → Stored w' thread) : PcReady w' thread (.ofTask next) := by
  cases task with
  | stackUp | stackDown | filterUp | filterDown | unwindStore functionId =>
      obtain ⟨-, rfl⟩ := step_ok_inj hstep
      exact fun _ => hstored hready
  | mainDown =>
      obtain ⟨-, rfl⟩ := step_ok_inj hstep
      split
      · exact fun _ => hstored hready
      · exact trivial
  | tailcallDown offset methodId =>
      obtain ⟨-, rfl⟩ := step_ok_inj hstep
      exact Or.inr (Or.inr (hstored hready))
  | trackBalances offset methodId | trackFilters offset methodId =>
      obtain ⟨-, rfl⟩ := step_ok_inj hstep
      exact trivial
  | trackUp offset methodId =>
      obtain ⟨-, rfl⟩ := step_ok_inj hstep
      exact Or.inl rfl
  | add offset event methodId after => exact hready.step_add hnull hstep hstored
  | unwindLoad =>
      obtain ⟨-, rfl⟩ := step_ok_inj hstep
      exact hstored hready
  | unwindRemove functionId =>
      obtain ⟨-, rfl⟩ := step_ok_inj hstep
      split
      · exact fun _ => hstored hready
      · exact hstored hready
  | unwindFilter =>
      obtain ⟨-, rfl⟩ := step_ok_inj hstep
      show TaskReady _ thread (if _ then _ else _)
      split
      · exact hstored hready
      · exact hstored hready
  | unwindBalance =>
      obtain ⟨-, rfl⟩ := step_ok_inj hstep
      split
      · exact hstored hready
      · exact fun _ => hstored hready
  | addStore _ _ _ | addLoad _ _ _ _ | abort => exact absurd trivial hplain
  | _ => exact absurd trivial hfinish

/-- So is an operation at the end of an invocation, behind which the thread is not tracked. -/
theorem TaskReady.step_finish (hready : TaskReady w thread task) (hplain : ¬task.IsCoverage)
    (hfinish : task.IsFinish) (hstep : task.step w.profiler thread = .ok (s', next))
    (hprofiler : w'.profiler = s') : PcReady w' thread (.ofTask next) := by
  subst hprofiler
  cases task with
  | lose | finishLoad | finishMappedId coverage =>
      obtain ⟨-, rfl⟩ := step_ok_inj hstep
      exact trivial
  | finishMapping coverage =>
      obtain ⟨-, rfl⟩ := step_ok_inj hstep
      show TaskReady _ thread (if _ then _ else _)
      split
      · exact trivial
      · exact trivial
  | finishBalances =>
      obtain ⟨hs, rfl⟩ := step_ok_inj hstep
      show w'.profiler.isCurrentThreadTracked thread = false
      rw [← hs]
      exact ThreadStorage.exist_eq_false.mpr (OrderedMap.lookup_erase_self _ _)
  | finishFilters =>
      obtain ⟨hs, rfl⟩ := step_ok_inj hstep
      obtain ⟨asserts, hassert⟩ := profilerAssert_eq w.profiler .threadStorage
        (ThreadStorage.exist w.profiler.inFilterMapping thread)
      rw [hassert] at hs
      have huntracked : w'.profiler.isCurrentThreadTracked thread = false := hs ▸ hready
      split
      · intro htracked
        exact absurd (huntracked.symm.trans htracked) (by decide)
      · exact huntracked
  | finishUnmap =>
      obtain ⟨hs, rfl⟩ := step_ok_inj hstep
      obtain ⟨asserts, hassert⟩ := profilerAssert_eq w.profiler .threadStorage
        (ThreadStorage.exist w.profiler.threadIdMapping thread)
      rw [hassert] at hs
      have huntracked : w'.profiler.isCurrentThreadTracked thread = false := hs ▸ hready
      intro htracked
      exact absurd (huntracked.symm.trans htracked) (by decide)
  | finishVisit _ _ | finishRemove _ _ | finishPush _ _ => exact absurd trivial hplain
  | _ => exact hfinish.elim

/-- Behind an operation that is about no coverage. -/
theorem Ready.bookkeeping (h : Ready w) (hpc : w.pc thread = .task task)
    (hplain : ¬task.IsCoverage) (hstep : task.step w.profiler thread = .ok (s', next)) :
    Ready ({ w with profiler := s' }.setPc thread (.ofTask next)) := by
  have hbook := Task.step_bookkeeping hstep hplain
  have hready : TaskReady w thread task := by
    have hready := h.pc_ready thread
    rwa [hpc] at hready
  have hnull : w.profiler.trackedCoverage.lookup thread = some none → Aborting (.task task) := by
    intro hnone
    rw [← hpc]
    exact h.null_aborting thread hnone
  have hhistory : s'.trackedCoverage = w.profiler.trackedCoverage := hbook.histories_eq
  have hstored : Stored w thread →
      Stored ({ w with profiler := s' }.setPc thread (.ofTask next)) thread := by
    show _ → (w.cleared thread = true ∨ ∃ history, s'.trackedCoverage.lookup thread = _)
    rw [hhistory]
    exact id
  have hnext : PcReady ({ w with profiler := s' }.setPc thread (.ofTask next)) thread
      (.ofTask next) := by
    by_cases hfinish : task.IsFinish
    · exact hready.step_finish hplain hfinish hstep rfl
    · refine hready.step (fun hnone => hfinish ?_) hplain hfinish hstep hstored
      exact (hnull hnone).isFinish
  refine h.move (fun u hu => ⟨⟨?_, hbook.others.balances u hu, rfl, hbook.mainOnly_eq⟩,
    World.setPc_pc_of_ne _ _ hu⟩) ?_ ?_ ?_ h.unbroken
  · show s'.trackedCoverage.lookup u = _
    rw [hhistory]
  · intro hcleared history
    show s'.trackedCoverage.lookup thread ≠ _
    rw [hhistory]
    exact h.cleared_none thread hcleared history
  · intro hnone
    rw [World.setPc_pc_self]
    have hbefore : w.profiler.trackedCoverage.lookup thread = some none := hhistory ▸ hnone
    exact (hnull hbefore).step hplain hstep hbefore
  · rw [World.setPc_pc_self]
    exact hnext

/-- A step that changes the history of its thread only. -/
theorem Ready.histories (h : Ready w) (histories : ThreadStorage (Option CoverageHistory))
    (cleared : ThreadID → Bool) (pc : Pc)
    (hothers : ∀ u ≠ thread, histories.lookup u = w.profiler.trackedCoverage.lookup u
      ∧ cleared u = w.cleared u)
    (hcleared : cleared thread = true → ∀ history, histories.lookup thread ≠ some (some history))
    (hnull : histories.lookup thread = some none → Aborting pc)
    (hpc : ∀ w' : World, w'.profiler.trackedCoverage = histories → w'.cleared = cleared →
      PcReady w' thread pc) {asserts : List AssertSite} {visited : Finset Int32} :
    Ready ({ w with
      profiler := { w.profiler with
        trackedCoverage := histories, failedAsserts := asserts, visitedMethods := visited }
      cleared }.setPc thread pc) := by
  refine h.move (fun u hu => ⟨⟨(hothers u hu).1, rfl, (hothers u hu).2, rfl⟩,
    World.setPc_pc_of_ne _ _ hu⟩) hcleared ?_ ?_ h.unbroken
  · intro hnone
    rw [World.setPc_pc_self]
    exact hnull hnone
  · rw [World.setPc_pc_self]
    exact hpc _ rfl rfl

theorem stored_after {w : World} {after : AfterAdd} (h : Stored w thread) :
    PcReady w thread (.ofTask after.task) := by
  cases after <;> first | exact fun _ => h | exact h

/-- Behind an operation on histories, visited methods or reports; the one that is loaded by
`addCoverage` was stored. -/
theorem Ready.coverage (h : Ready w) (hpc : w.pc thread = .task task) (hplain : task.IsCoverage)
    (hstep : task.step w.profiler thread = .ok (s', next)) :
    Ready (({ w with profiler := s' }.note thread task).setPc thread (.ofTask next)) := by
  have hnull : w.profiler.trackedCoverage.lookup thread = some none → Aborting (.task task) := by
    intro hnone
    rw [← hpc]
    exact h.null_aborting thread hnone
  have goes : ∀ {a : ProfilerState} {n : Option Task},
      (Except.ok (a, n) : Except Fault (ProfilerState × Option Task)) = .ok (s', next) →
      a = s' ∧ n = next := fun heq => Prod.mk.inj (Except.ok.inj heq)
  have inserted : ∀ (v : Option CoverageHistory), ∀ u ≠ thread,
      (w.profiler.trackedCoverage.insert thread v).lookup u
        = w.profiler.trackedCoverage.lookup u := fun v u hu =>
    OrderedMap.lookup_insert_of_ne _ _ hu
  cases task with
  | addStore offset methodId after =>
      obtain ⟨rfl, rfl⟩ := goes hstep
      refine h.histories (w.profiler.trackedCoverage.insert thread _)
        (Function.update w.cleared thread false) (.ofTask after.task)
        (fun u hu => ⟨inserted _ u hu, Function.update_of_ne hu _ _⟩) ?_ ?_ ?_
      · intro hcleared
        rw [Function.update_self] at hcleared
        cases hcleared
      · intro hnone
        rw [OrderedMap.lookup_insert_self] at hnone
        cases hnone
      · intro w' hhistory _
        refine stored_after (Or.inr ⟨.new thread offset methodId, ?_⟩)
        rw [hhistory]
        exact OrderedMap.lookup_insert_self _ _ _
  | addLoad offset event methodId after =>
      obtain ⟨asserts, hassert⟩ := profilerAssert_eq w.profiler .threadStorage
        (ThreadStorage.exist w.profiler.trackedCoverage thread)
      simp only [Task.step, hassert] at hstep
      cases hload : ThreadStorage.load w.profiler.trackedCoverage thread with
      | none =>
          rw [hload] at hstep
          cases hstep
      | some history =>
          rw [hload] at hstep
          obtain ⟨rfl, rfl⟩ := goes hstep
          have hlookup : w.profiler.trackedCoverage.lookup thread = some (some history) := by
            rw [ThreadStorage.load] at hload
            cases hv : w.profiler.trackedCoverage.lookup thread with
            | none =>
                rw [hv] at hload
                cases hload
            | some v =>
                rw [hv] at hload
                exact congrArg some hload
          refine h.histories (w.profiler.trackedCoverage.insert thread _) w.cleared
            (.ofTask after.task) (fun u hu => ⟨inserted _ u hu, rfl⟩) ?_ ?_ ?_
          · intro hcleared
            exact absurd hlookup (h.cleared_none thread hcleared history)
          · intro hnone
            rw [OrderedMap.lookup_insert_self] at hnone
            cases hnone
          · intro w' hhistory _
            refine stored_after (Or.inr ⟨history.addCoverage thread offset event methodId, ?_⟩)
            rw [hhistory]
            exact OrderedMap.lookup_insert_self _ _ _
  | abort =>
      obtain ⟨asserts, hassert⟩ := profilerAssert_eq w.profiler .threadStorage
        (ThreadStorage.exist w.profiler.trackedCoverage thread)
      simp only [Task.step, invocationAborted, hassert] at hstep
      obtain ⟨rfl, rfl⟩ := goes hstep
      refine h.histories (w.profiler.trackedCoverage.insert thread none) w.cleared
        (.task .finishLoad) (fun u hu => ⟨inserted _ u hu, rfl⟩) ?_ (fun _ => trivial)
        (fun _ _ _ => trivial)
      intro _ history hsome
      rw [OrderedMap.lookup_insert_self] at hsome
      cases hsome
  | finishVisit coverage threadId =>
      cases coverage with
      | none => cases hstep
      | some history =>
          obtain ⟨rfl, rfl⟩ := goes hstep
          exact h.histories w.profiler.trackedCoverage w.cleared
            (.task (.finishRemove history threadId)) (fun u hu => ⟨rfl, rfl⟩)
            (h.cleared_none thread) (fun hnone => (hnull hnone).elim) (fun _ _ _ => trivial)
  | finishRemove history threadId =>
      obtain ⟨asserts, hassert⟩ := profilerAssert_eq w.profiler .threadStorage
        (ThreadStorage.exist w.profiler.trackedCoverage thread)
      simp only [Task.step, hassert] at hstep
      obtain ⟨rfl, rfl⟩ := goes hstep
      refine h.histories (w.profiler.trackedCoverage.erase thread) w.cleared
        (.task (.finishPush history threadId))
        (fun u hu => ⟨OrderedMap.lookup_erase_of_ne _ hu, rfl⟩) ?_ ?_ (fun _ _ _ => trivial)
      · intro _ history' hsome
        rw [OrderedMap.lookup_erase_self] at hsome
        cases hsome
      · intro hnone
        rw [OrderedMap.lookup_erase_self] at hnone
        cases hnone
  | finishPush history threadId =>
      obtain ⟨rfl, rfl⟩ := goes hstep
      refine h.move (fun u hu => ⟨⟨rfl, rfl, rfl, rfl⟩, World.setPc_pc_of_ne _ _ hu⟩)
        (h.cleared_none thread) (fun hnone => (hnull hnone).elim) ?_ h.unbroken
      rw [World.setPc_pc_self]
      exact trivial
  | _ => exact hplain.elim

theorem Ready.taskStep (h : Ready w) (hpc : w.pc thread = .task task)
    (hP : ∀ offset event methodId after, task = .addLoad offset event methodId after →
      w.cleared thread = false) (hstep : w.taskStep thread task = some w') : Ready w' := by
  rw [World.taskStep] at hstep
  split at hstep
  · cases hstep
  · split at hstep
    · rename_i hfault
      obtain rfl := Option.some.inj hstep
      refine ⟨h.cleared_none, h.null_aborting, h.pc_ready, ?_⟩
      -- a history that was stored and not cleared is there
      intro offset event methodId after hcrash
      obtain rfl := Option.some.inj hcrash
      have hready := h.pc_ready thread
      rw [hpc] at hready
      rcases hready with hcleared | ⟨history, hhistory⟩
      · rw [hP offset event methodId after rfl] at hcleared
        cases hcleared
      · obtain ⟨asserts, hassert⟩ := profilerAssert_eq w.profiler .threadStorage
          (ThreadStorage.exist w.profiler.trackedCoverage thread)
        simp only [Task.step, hassert, ThreadStorage.load_of_lookup hhistory] at hfault
        cases hfault
    · rename_i hok
      obtain rfl := Option.some.inj hstep
      by_cases hplain : task.IsCoverage
      · exact h.coverage hpc hplain hok
      · rw [World.note_of_plain hplain]
        exact h.bookkeeping hpc hplain hok

/-- A step that leaves every thread with its history, its balance and its place; the thread that
takes it is between its tasks. -/
theorem Ready.quiet (h : Ready w) (hpc : ∀ task, w.pc thread ≠ .task task)
    (hsame : ∀ u, SameThread w w' u) (hpcs : ∀ u ≠ thread, w'.pc u = w.pc u)
    (hready : PcReady w thread (w'.pc thread)) (hcrash : w'.crashed = w.crashed) : Ready w' := by
  refine h.move (fun u hu => ⟨hsame u, hpcs u hu⟩) ?_ ?_ ((hsame thread).pcReady hready) ?_
  · intro hcleared history
    rw [(hsame thread).history_eq]
    exact h.cleared_none thread ((hsame thread).cleared_eq ▸ hcleared) history
  · intro hnone
    have haborting := h.null_aborting thread ((hsame thread).history_eq ▸ hnone)
    cases hcase : w.pc thread with
    | task task => exact absurd hcase (hpc task)
    | idle =>
        rw [hcase] at haborting
        exact haborting.elim
    | history pc =>
        rw [hcase] at haborting
        exact haborting.elim
  · intro offset event methodId after
    rw [hcrash]
    exact h.unbroken offset event methodId after

/-- Behind `trackedCoverage->clear()` every thread is without a history, and counts as cleared. -/
theorem Ready.clear (h : Ready w) (hpc : ∀ task, w.pc thread ≠ .task task) {next : HistoryPc} :
    Ready ({ w with
      profiler := w.profiler.clearCoverage, cleared := fun _ => true }.setPc thread
        (.history next)) where
  cleared_none := by
    intro u _ history hsome
    cases hsome
  null_aborting := by
    intro u hnone
    cases hnone
  pc_ready := by
    intro u
    by_cases hu : u = thread
    · subst hu
      rw [World.setPc_pc_self]
      exact fun _ => Or.inl rfl
    · rw [World.setPc_pc_of_ne _ _ hu]
      exact (h.pc_ready u).mono (fun _ => Or.inl rfl) (fun ht => ht) rfl
  unbroken := h.unbroken

theorem Ready.historyStep (h : Ready w) {pc : HistoryPc} (hpc : w.pc thread = .history pc)
    (hstep : w.historyStep thread pc = some w') : Ready w' := by
  have hplain : ∀ task, w.pc thread ≠ .task task := by
    intro task htask
    rw [hpc] at htask
    cases htask
  have hready : PcReady w thread (.history pc) := by
    have hready := h.pc_ready thread
    rwa [hpc] at hready
  -- every step but the clearing of histories and balances
  have quiet : ∀ (profiler : ProfilerState) (collected serialized : Option ThreadID) (results)
      (next : Pc), profiler.trackedCoverage = w.profiler.trackedCoverage →
      profiler.stackBalances = w.profiler.stackBalances →
      profiler.collectMainOnly = w.profiler.collectMainOnly → (∀ task, next ≠ .task task) →
      Ready ({ w with
        profiler, collectedMethodsMutex := collected, serializedCoverageMutex := serialized
        results }.setPc thread next) := by
    intro profiler collected serialized results next hhistories hbalances hmode hnext
    refine h.quiet hplain (fun u => ⟨?_, ?_, rfl, hmode⟩)
      (fun u hu => World.setPc_pc_of_ne _ _ hu) ?_ rfl
    · show profiler.trackedCoverage.lookup u = _
      rw [hhistories]
    · show profiler.stackBalances.lookup u = _
      rw [hbalances]
    · rw [World.setPc_pc_self]
      cases next with
      | task task => exact absurd rfl (hnext task)
      | idle => exact hready
      | history next => exact hready
  cases pc with
  | lockCollected =>
      simp only [World.historyStep] at hstep
      split at hstep
      · cases hstep
      · obtain rfl := Option.some.inj hstep
        exact quiet _ _ _ _ _ rfl rfl rfl (by simp)
  | lockSerialized =>
      simp only [World.historyStep] at hstep
      split at hstep
      · cases hstep
      · obtain rfl := Option.some.inj hstep
        exact quiet _ _ _ _ _ rfl rfl rfl (by simp)
  | methods i found =>
      simp only [World.historyStep] at hstep
      split at hstep
      · obtain rfl := Option.some.inj hstep
        exact quiet _ _ _ _ _ rfl rfl rfl (by simp)
      · obtain rfl := Option.some.inj hstep
        exact quiet _ _ _ _ _ rfl rfl rfl (by simp)
  | mapping found =>
      obtain rfl := Option.some.inj hstep
      exact quiet _ _ _ _ _ rfl rfl rfl (by simp)
  | notEntered found threadMapping =>
      obtain rfl := Option.some.inj hstep
      obtain ⟨ids, reports, heq⟩ := addNotEntered_eq threadMapping w.profiler
      rw [heq]
      exact quiet _ _ _ _ _ rfl rfl rfl (by simp)
  | serialize found =>
      obtain rfl := Option.some.inj hstep
      exact quiet _ _ _ _ _ rfl rfl rfl (by simp)
  | clearTracked =>
      obtain rfl := Option.some.inj hstep
      exact h.clear hplain
  | clearSerialized =>
      obtain rfl := Option.some.inj hstep
      exact quiet _ _ _ _ _ rfl rfl rfl (by simp)
  | unlockSerialized =>
      obtain rfl := Option.some.inj hstep
      exact quiet _ _ _ _ _ rfl rfl rfl (by simp)
  | unlockCollected =>
      obtain rfl := Option.some.inj hstep
      exact quiet _ _ _ _ _ rfl rfl rfl (by simp)
  | clearCoverage =>
      obtain rfl := Option.some.inj hstep
      exact h.clear hplain
  | clearMapping =>
      obtain rfl := Option.some.inj hstep
      exact quiet _ _ _ _ _ rfl rfl rfl (by simp)
  | clearBalances =>
      obtain rfl := Option.some.inj hstep
      refine ⟨h.cleared_none, fun u hnone => ?_, fun u => ?_, h.unbroken⟩
      · have haborting := h.null_aborting u hnone
        by_cases hu : u = thread
        · rw [hu, hpc] at haborting
          exact haborting.elim
        · rwa [World.setPc_pc_of_ne _ _ hu]
      · by_cases hu : u = thread
        · subst hu
          rw [World.setPc_pc_self]
          intro htracked
          cases htracked
        · rw [World.setPc_pc_of_ne _ _ hu]
          exact (h.pc_ready u).mono id (fun htracked => by cases htracked) rfl
  | clearUnwinds =>
      obtain rfl := Option.some.inj hstep
      exact quiet _ _ _ _ _ rfl rfl rfl (by simp)
  | clearFilters =>
      obtain rfl := Option.some.inj hstep
      exact quiet _ _ _ _ _ rfl rfl rfl (by simp)

/-- On a tracked thread a probe goes on with what needs the history. -/
theorem probeTask_tracked {s : ProfilerState} {offset : UInt32} {methodId : Int32} {p : Probe} :
    ∃ task, probeTask s true offset methodId p = some task ∧ task ≠ .finishFilters
      ∧ task ≠ .finishUnmap := by
  cases p with
  | enter => cases hmode : s.collectMainOnly <;> simp [probeTask, hmode]
  | leave => cases hmode : s.collectMainOnly <;> simp [probeTask, hmode]
  | _ => simp [probeTask]

/-- On another thread a probe returns, or starts an invocation. -/
theorem probeTask_untracked {s : ProfilerState} {offset : UInt32} {methodId : Int32} {p : Probe} :
    probeTask s false offset methodId p = none
      ∨ probeTask s false offset methodId p = some (.trackBalances offset methodId) := by
  cases p <;> first | exact Or.inl rfl | exact Or.inr rfl

/-- A call starts behind the test of its thread. -/
theorem Ready.callStep (h : Ready w) (hpc : w.pc thread = .idle) {call : Call}
    (hstep : w.callStep thread call = some w') : Ready w' := by
  have hplain : ∀ task, w.pc thread ≠ .task task := by
    intro task htask
    rw [hpc] at htask
    cases htask
  have hready : w.profiler.isCurrentThreadTracked thread = true → Stored w thread := by
    have hready := h.pc_ready thread
    rwa [hpc] at hready
  have starts : ∀ (profiler : ProfilerState) (next : Pc),
      profiler.trackedCoverage = w.profiler.trackedCoverage →
      profiler.stackBalances = w.profiler.stackBalances →
      profiler.collectMainOnly = w.profiler.collectMainOnly → PcReady w thread next →
      Ready ({ w with profiler }.setPc thread next) := by
    intro profiler next hhistories hbalances hmode hnext
    refine h.quiet hplain (fun u => ⟨?_, ?_, rfl, hmode⟩) (fun u hu => World.setPc_pc_of_ne _ _ hu)
      (by rw [World.setPc_pc_self]; exact hnext) rfl
    · show profiler.trackedCoverage.lookup u = _
      rw [hhistories]
    · show profiler.stackBalances.lookup u = _
      rw [hbalances]
  have tested : ∀ task : Task, task ≠ .finishFilters → task ≠ .finishUnmap →
      w.profiler.isCurrentThreadTracked thread = true → PcReady w thread (.task task) :=
    fun task hfilters hunmap htracked => TaskReady.of_stored (hready htracked) hfilters hunmap
  have passed : ¬(w.profiler.isFinished || !w.profiler.isCurrentThreadTracked thread) = true →
      w.profiler.isCurrentThreadTracked thread = true := by
    intro hcond
    have hboth : w.profiler.isFinished = false
        ∧ w.profiler.isCurrentThreadTracked thread = true := by simpa using hcond
    exact hboth.2
  rcases World.callStep_cases hstep with ⟨info, -, -, rfl⟩ | ⟨s', hbook, hbalances, rfl⟩
  · exact starts _ _ rfl rfl rfl hready
  · refine starts _ _ hbook.histories_eq hbalances hbook.mainOnly_eq ?_
    cases call with
    | probe p offset methodId =>
        show PcReady w thread (.ofTask (probeTask w.profiler
          (w.profiler.isCurrentThreadTracked thread) offset methodId p))
        cases htracked : w.profiler.isCurrentThreadTracked thread with
        | false =>
            rcases probeTask_untracked (s := w.profiler) with hnone | hmain
            · rw [hnone]
              exact hready
            · rw [hmain]
              exact trivial
        | true =>
            obtain ⟨task, htask, hfilters, hunmap⟩ := probeTask_tracked (s := w.profiler)
            rw [htask]
            exact tested task hfilters hunmap htracked
    | filterEnter =>
        simp only [Call.start]
        split
        · exact hready
        · rename_i hcond
          exact tested _ (by simp) (by simp) (passed hcond)
    | filterLeave =>
        simp only [Call.start]
        split
        · exact hready
        · rename_i hcond
          exact tested _ (by simp) (by simp) (passed hcond)
    | unwindEnter functionId =>
        simp only [Call.start]
        split
        · rename_i htracked
          exact tested _ (by simp) (by simp) htracked
        · exact hready
    | unwindLeave =>
        simp only [Call.start]
        split
        · exact hready
        · rename_i hcond
          exact tested _ (by simp) (by simp) (passed hcond)
    | abort =>
        simp only [Call.start]
        split
        · exact trivial
        · exact hready
    | setCurrentThreadId mapId => exact hready
    | collectMethod info => exact hready
    | getHistory => exact hready

theorem Ready.step (h : Ready w) {act : Act} (hP : LoadsStored w act)
    (hstep : w.step act = some w') : Ready w' := by
  obtain ⟨halive, ⟨thread, call, rfl, hpc, hstep⟩ | ⟨thread, task, rfl, hpc, hstep⟩
    | ⟨thread, pc, rfl, hpc, hstep⟩⟩ := World.step_cases hstep
  · exact h.callStep hpc hstep
  · refine h.taskStep hpc ?_ hstep
    rintro offset event methodId after rfl
    exact hP halive offset event methodId after hpc
  · exact h.historyStep hpc hstep

/-- A load behind a `trackedCoverage->clear()` goes through a missing history. -/
theorem Ready.broken (h : Ready w) {act : Act} (hP : ¬LoadsStored w act) :
    ∃ w', w.step act = some w' ∧ ¬NoNullLoad w' := by
  cases act with
  | call thread call => exact absurd trivial hP
  | step thread =>
      simp only [LoadsStored, not_forall] at hP
      obtain ⟨halive, offset, event, methodId, after, hpc, hcleared⟩ := hP
      have hload : ThreadStorage.load w.profiler.trackedCoverage thread = none := by
        cases hlookup : w.profiler.trackedCoverage.lookup thread with
        | none => rw [ThreadStorage.load, hlookup]; rfl
        | some v =>
            rw [ThreadStorage.load_of_lookup hlookup]
            cases v with
            | none => rfl
            | some history =>
                exact absurd hlookup (h.cleared_none thread (by simpa using hcleared) history)
      refine ⟨{ w with crashed := some (.addLoad offset event methodId after) }, ?_,
        fun hok => hok offset event methodId after rfl⟩
      obtain ⟨asserts, hassert⟩ := profilerAssert_eq w.profiler .threadStorage
        (ThreadStorage.exist w.profiler.trackedCoverage thread)
      simp only [World.step, halive, Option.isSome_none, Bool.false_eq_true, if_false, hpc,
        World.taskStep, Task.needsSerialized, Bool.false_and, Task.step, hassert, hload]

theorem ready_init (isPassiveRun collectMainOnly : Bool) :
    Ready (.init isPassiveRun collectMainOnly) where
  cleared_none := by
    intro t hcleared
    cases hcleared
  null_aborting := by
    intro t hnone
    cases hnone
  pc_ready := by
    intro t htracked
    cases htracked
  unbroken := by
    intro offset event methodId after hcrash
    cases hcrash

/-- **When collecting is safe beside the probes.**  In every interleaving of probes, exception
callbacks and collections on any number of threads, no `addCoverage` ever loads a missing or null
history exactly when no `trackedCoverage->clear()` of a `GetHistory` comes between the step that
stores the history of a thread and a later load of it. -/
theorem noNullLoad_iff (isPassiveRun collectMainOnly : Bool) (acts : List Act) :
    Always World.step NoNullLoad (.init isPassiveRun collectMainOnly) acts
      ↔ Along World.step LoadsStored (.init isPassiveRun collectMainOnly) acts :=
  always_iff_along (fun _ h => h.unbroken) (fun _ _ _ h hP hstep => h.step hP hstep)
    (fun _ _ h hP => h.broken hP) (ready_init isPassiveRun collectMainOnly)

/-- A probe of thread 1 has passed its test; `GetHistory` on thread 2 clears the histories; the
probe loads. -/
def clearedUnderProbe : List Act :=
  .call 1 (.probe .enterMain 0 0) :: (List.replicate 5 (.step 1)
    ++ .call 1 (.probe .branch 4 0) :: .call 2 .getHistory :: (List.replicate 7 (.step 2)
    ++ List.replicate 2 (.step 1)))

theorem probe_loads_cleared_history :
    ¬Always World.step NoNullLoad (.init false true) clearedUnderProbe := by
  intro h
  obtain ⟨w, hrun, hcrash⟩ : ∃ w, run World.step (.init false true) clearedUnderProbe = some w
      ∧ w.crashed = some (.addLoad 4 .branchHit 0 .stop) := ⟨_, rfl, rfl⟩
  exact h.behind hrun 4 .branchHit 0 .stop hcrash

end TestExecutor
