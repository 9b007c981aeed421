import TestExecutor.Profiler.Mutexes

/-!
# Delivery of finished reports

Threads finish their invocations while others collect: `invocationFinished` pushes the buffer under
`serializedCoverageMutex`, and `serializeCoverageReport` reads all buffers and clears them under the
same mutex.

* `isFinishedReport` — the buffers of finished invocations, told from the empty ones by their flag;
* `delivered`, `pending` — those in the results so far, and those still to be collected;
* `reports_delivered_once` — together they are what was pushed, each once and in order.
-/

namespace TestExecutor

open TestExecutor.Library ProfilerState

/-! ### Finished reports -/

/-- The second word of a report: `0` for an invocation that finished. -/
def isFinishedReport (report : List UInt8) : Bool :=
  decide ((report.drop 4).take 4 = serializeInt 0)

theorem isFinishedReport_some (threadId : Int32) (history : CoverageHistory) :
    isFinishedReport (reportBuffer threadId (some history)) = true := by
  refine decide_eq_true ?_
  have hid : (serializeInt threadId).length = 4 := leBytes_length _ _
  have hflag : (serializeInt 0).length = 4 := leBytes_length _ _
  rw [reportBuffer, List.drop_left' hid, List.take_left' hflag]

theorem isFinishedReport_none (threadId : Int32) :
    isFinishedReport (reportBuffer threadId none) = false := by
  refine decide_eq_false ?_
  have hid : (serializeInt threadId).length = 4 := leBytes_length _ _
  rw [reportBuffer, List.drop_left' hid]
  decide

namespace World

/-- The finished reports in the results of all collections, in their order. -/
def delivered (w : World) : List (List UInt8) :=
  (w.results.flatMap fun result => result.reports).filter isFinishedReport

/-- A collection has read the buffers and not yet cleared them. -/
def taken (w : World) : Bool :=
  match w.serializedCoverageMutex with
  | none => false
  | some thread =>
      decide (w.pc thread = .history .clearTracked ∨ w.pc thread = .history .clearSerialized)

/-- The finished reports that no collection has read. -/
def pending (w : World) : List (List UInt8) :=
  if w.taken then [] else w.profiler.serializedCoverage.filter isFinishedReport

end World

/-! ### One step -/

structure Delivers (w : World) : Prop where
  locked : Locked w
  all_eq : w.delivered ++ w.pending = w.pushed

variable {w w' : World} {thread : ThreadID} {task : Task}

theorem taken_of_holder {t : ThreadID} (h : w.serializedCoverageMutex = some t) :
    w.taken = decide (w.pc t = .history .clearTracked ∨ w.pc t = .history .clearSerialized) := by
  rw [World.taken, h]

theorem taken_of_free (h : w.serializedCoverageMutex = none) : w.taken = false := by
  rw [World.taken, h]

/-- A step of a thread that does not hold the mutex of the buffers. -/
theorem taken_of_not_holder (thread : ThreadID) (h : w.serializedCoverageMutex ≠ some thread)
    (hmutex : w'.serializedCoverageMutex = w.serializedCoverageMutex)
    (hpcs : ∀ u ≠ thread, w'.pc u = w.pc u) : w'.taken = w.taken := by
  rw [World.taken, World.taken, hmutex]
  cases hholder : w.serializedCoverageMutex with
  | none => rfl
  | some u =>
      have hu : u ≠ thread := by
        rintro rfl
        exact h hholder
      dsimp only
      rw [hpcs u hu]

theorem pending_of_eq (htaken : w'.taken = w.taken)
    (hreports : w'.profiler.serializedCoverage.filter isFinishedReport
      = w.profiler.serializedCoverage.filter isFinishedReport) : w'.pending = w.pending := by
  rw [World.pending, World.pending, htaken, hreports]

/-- A step that neither pushes nor reads. -/
theorem Delivers.same (h : Delivers w) (hlocked : Locked w') (hresults : w'.results = w.results)
    (hpushed : w'.pushed = w.pushed) (htaken : w'.taken = w.taken)
    (hreports : w'.profiler.serializedCoverage.filter isFinishedReport
      = w.profiler.serializedCoverage.filter isFinishedReport) : Delivers w' := by
  refine ⟨hlocked, ?_⟩
  rw [World.delivered, hresults, pending_of_eq htaken hreports, hpushed]
  exact h.all_eq

/-- The loop over the mapping adds empty reports only. -/
theorem addNotEntered_finished (mapping : List (ThreadID × Int32)) : ∀ (s : ProfilerState),
    (addNotEntered mapping s).serializedCoverage.filter isFinishedReport
      = s.serializedCoverage.filter isFinishedReport := by
  induction mapping with
  | nil => exact fun s => rfl
  | cons entry rest ih =>
      intro s
      rw [addNotEntered]
      split
      · exact ih s
      · rw [ih]
        simp [isFinishedReport_none]

/-- The push appends its report to the pending ones. -/
theorem Delivers.push (h : Delivers w) (hlocked : Locked w') {report : List UInt8}
    (hfree : w.serializedCoverageMutex = none) (hfree' : w'.serializedCoverageMutex = none)
    (hfinished : isFinishedReport report = true) (hresults : w'.results = w.results)
    (hpushed : w'.pushed = w.pushed ++ [report])
    (hreports : w'.profiler.serializedCoverage = w.profiler.serializedCoverage ++ [report]) :
    Delivers w' := by
  refine ⟨hlocked, ?_⟩
  have hall := h.all_eq
  have hpending : w'.pending = w.pending ++ [report] := by
    rw [World.pending, World.pending, taken_of_free hfree, taken_of_free hfree', hreports]
    simp [hfinished]
  rw [World.delivered, hresults, hpending, hpushed, ← hall, ← List.append_assoc]
  rfl

theorem Delivers.taskStep (h : Delivers w) (hlocked : Locked w')
    (hpc : w.pc thread = .task task) (hstep : w.taskStep thread task = some w') :
    Delivers w' := by
  have hnot : w.serializedCoverageMutex ≠ some thread := by
    rw [Ne, h.locked.serialized_iff, hpc]
    exact id
  rcases World.taskStep_cases hstep with rfl | ⟨s', next, hok, hfree, rfl⟩
  · exact h.same hlocked rfl rfl rfl rfl
  · cases hpush : task.needsSerialized with
    | true =>
        cases task with
        | finishPush history threadId =>
            obtain ⟨rfl, rfl⟩ := Prod.mk.inj (Except.ok.inj hok)
            exact h.push hlocked (hfree rfl) (hfree rfl)
              (isFinishedReport_some threadId history) rfl rfl rfl
        | _ => cases hpush
    | false =>
        obtain ⟨hresults, hpushed⟩ :=
          World.note_records { w with profiler := s' } thread hpush
        obtain ⟨hpcs, -, hmutex⟩ := note_mutexes { w with profiler := s' } thread task
        refine h.same hlocked hresults hpushed (taken_of_not_holder thread hnot hmutex fun u hu => ?_) ?_
        · rw [World.setPc_pc_of_ne _ _ hu, hpcs]
        · show (World.note _ thread task).profiler.serializedCoverage.filter _ = _
          rw [World.note_profiler, (Task.step_lists hok).2 hpush]

theorem Delivers.callStep (h : Delivers w) (hlocked : Locked w') {call : Call}
    (hpc : w.pc thread = .idle) (hstep : w.callStep thread call = some w') : Delivers w' := by
  have hnot : w.serializedCoverageMutex ≠ some thread := by
    rw [Ne, h.locked.serialized_iff, hpc]
    exact id
  rcases World.callStep_cases hstep with ⟨info, -, -, rfl⟩ | ⟨s', hbook, -, rfl⟩
  · exact h.same hlocked rfl rfl
      (taken_of_not_holder thread hnot rfl fun u hu => World.setPc_pc_of_ne _ _ hu) rfl
  · refine h.same hlocked rfl rfl
      (taken_of_not_holder thread hnot rfl fun u hu => World.setPc_pc_of_ne _ _ hu) ?_
    show s'.serializedCoverage.filter isFinishedReport = _
    rw [hbook.reports_eq]

/-- Reading moves the pending reports into the result. -/
theorem Delivers.read (h : Delivers w) (hlocked : Locked w') (hbefore : w.taken = false)
    (hafter : w'.taken = true) {methods : List (Int32 × MethodInfo)}
    (hresults : w'.results = w.results ++ [⟨methods, w.profiler.serializedCoverage⟩])
    (hpushed : w'.pushed = w.pushed) : Delivers w' := by
  refine ⟨hlocked, ?_⟩
  have hall := h.all_eq
  rw [World.pending, hbefore, World.delivered] at hall
  rw [World.pending, hafter, World.delivered, hresults, hpushed, ← hall]
  simp

/-- Clearing the buffers that were read. -/
theorem Delivers.clear (h : Delivers w) (hlocked : Locked w') (hbefore : w.taken = true)
    (hempty : w'.profiler.serializedCoverage = []) (hresults : w'.results = w.results)
    (hpushed : w'.pushed = w.pushed) : Delivers w' := by
  refine ⟨hlocked, ?_⟩
  have hall := h.all_eq
  rw [World.pending, hbefore, World.delivered] at hall
  have hpending : w'.pending = [] := by
    rw [World.pending, hempty, List.filter_nil, ite_self]
  rw [hpending, World.delivered, hresults, hpushed]
  exact hall

/-- Reading moves the pending reports into the result, and from then on they count as taken until
the buffers are cleared. -/
theorem Delivers.historyStep (h : Delivers w) (hlocked : Locked w') {pc : HistoryPc}
    (hpc : w.pc thread = .history pc) (hstep : w.historyStep thread pc = some w') :
    Delivers w' := by
  have hholder : (Pc.history pc).HoldsSerialized → w.serializedCoverageMutex = some thread := by
    intro hholds
    rw [h.locked.serialized_iff, hpc]
    exact hholds
  -- an operation of the holder, which does not unlock
  have moves : ∀ {next : Pc}, (Pc.history pc).HoldsSerialized →
      w'.pc = Function.update w.pc thread next →
      w'.serializedCoverageMutex = w.serializedCoverageMutex →
      w'.taken = decide (next = .history .clearTracked ∨ next = .history .clearSerialized) := by
    intro next hholds hnext hmutex
    rw [taken_of_holder (hmutex.trans (hholder hholds)), hnext, Function.update_self]
  -- an operation of the holder that neither reads nor clears
  have holds : ∀ {next : Pc}, (Pc.history pc).HoldsSerialized →
      w'.pc = Function.update w.pc thread next →
      w'.serializedCoverageMutex = w.serializedCoverageMutex →
      (next = .history .clearTracked ∨ next = .history .clearSerialized
        ↔ Pc.history pc = .history .clearTracked ∨ Pc.history pc = .history .clearSerialized) →
      w'.taken = w.taken := by
    intro next hholds hnext hmutex hsame
    rw [moves hholds hnext hmutex, taken_of_holder (hholder hholds), hpc]
    exact decide_eq_decide.mpr hsame
  -- an operation of a thread that does not hold the mutex
  have outside : ∀ {next : Pc}, ¬(Pc.history pc).HoldsSerialized →
      w'.pc = Function.update w.pc thread next →
      w'.serializedCoverageMutex = w.serializedCoverageMutex → w'.taken = w.taken := by
    intro next hholds hnext hmutex
    refine taken_of_not_holder thread (fun hmine => hholds ?_) hmutex fun u hu => ?_
    · rw [h.locked.serialized_iff, hpc] at hmine
      exact hmine
    · rw [hnext, Function.update_of_ne hu]
  cases pc with
  | lockCollected =>
      simp only [World.historyStep] at hstep
      split at hstep
      · cases hstep
      · obtain rfl := Option.some.inj hstep
        exact h.same hlocked rfl rfl (outside id rfl rfl) rfl
  | lockSerialized =>
      simp only [World.historyStep] at hstep
      split at hstep
      · cases hstep
      · rename_i hfree
        obtain rfl := Option.some.inj hstep
        have hfree' : w.serializedCoverageMutex = none := by simpa using hfree
        refine h.same hlocked rfl rfl ?_ rfl
        rw [taken_of_free hfree', taken_of_holder (t := thread) rfl, World.setPc_pc_self]
        rfl
  | methods i found =>
      simp only [World.historyStep] at hstep
      split at hstep
      · obtain rfl := Option.some.inj hstep
        exact h.same hlocked rfl rfl (holds trivial rfl rfl (by simp)) rfl
      · obtain rfl := Option.some.inj hstep
        exact h.same hlocked rfl rfl (holds trivial rfl rfl (by simp)) rfl
  | mapping found =>
      obtain rfl := Option.some.inj hstep
      exact h.same hlocked rfl rfl (holds trivial rfl rfl (by simp)) rfl
  | notEntered found threadMapping =>
      obtain rfl := Option.some.inj hstep
      exact h.same hlocked rfl rfl (holds trivial rfl rfl (by simp))
        (addNotEntered_finished threadMapping w.profiler)
  | serialize found =>
      obtain rfl := Option.some.inj hstep
      refine h.read hlocked ?_ (moves trivial rfl rfl) rfl rfl
      rw [taken_of_holder (hholder trivial), hpc]
      rfl
  | clearTracked =>
      obtain rfl := Option.some.inj hstep
      exact h.same hlocked rfl rfl (holds trivial rfl rfl (by simp)) rfl
  | clearSerialized =>
      obtain rfl := Option.some.inj hstep
      refine h.clear hlocked ?_ rfl rfl rfl
      rw [taken_of_holder (hholder trivial), hpc]
      rfl
  | unlockSerialized =>
      obtain rfl := Option.some.inj hstep
      refine h.same hlocked rfl rfl ?_ rfl
      rw [taken_of_holder (hholder trivial), hpc, taken_of_free rfl]
      rfl
  | _ =>
      obtain rfl := Option.some.inj hstep
      exact h.same hlocked rfl rfl (outside id rfl rfl) rfl

theorem Delivers.step (h : Delivers w) {act : Act} (hstep : w.step act = some w') :
    Delivers w' := by
  have hlocked := h.locked.step hstep
  obtain ⟨-, ⟨thread, call, rfl, hpc, hstep⟩ | ⟨thread, task, rfl, hpc, hstep⟩
    | ⟨thread, pc, rfl, hpc, hstep⟩⟩ := World.step_cases hstep
  · exact h.callStep hlocked hpc hstep
  · exact h.taskStep hlocked hpc hstep
  · exact h.historyStep hlocked hpc hstep

/-! ### All runs -/

/-- **Finished reports are delivered once.**  Whatever the threads do, in whatever order, the
finished reports in the results of the collections, and behind them those that are pending, are the
reports that were pushed, each once and in the order of the pushes. -/
theorem reports_delivered_once (isPassiveRun collectMainOnly : Bool) (acts : List Act) :
    Always World.step (fun w => w.delivered ++ w.pending = w.pushed)
      (.init isPassiveRun collectMainOnly) acts :=
  always_of_invariant (I := Delivers) (fun _ h => h.all_eq) (fun _ _ _ h hstep => h.step hstep)
    ⟨locked_init isPassiveRun collectMainOnly, rfl⟩

end TestExecutor
