import TestExecutor.Library.Forall2
import TestExecutor.Profiler.MethodTable

/-!
# Every report is closed under its method table

The invariant `TablesClose` along every interleaving of collecting methods, probes, finishing
invocations and `GetHistory`.

* `TablesClose.taskStep`, `.callStep`, `.historyStep`, `.step` — one step of one thread;
* `collectedMethods_eq`, `carriesCollected_along` — the collected methods of a run;
* `Locates`, `Resolves`, `reportsFromRawReports_ok` — what the managed side makes of a result;
* `reports_close` — every result has the methods of its reports.
-/

namespace TestExecutor

open TestExecutor.Library ProfilerState

variable {s s' : ProfilerState} {thread : ThreadID} {task : Task} {next : Option Task}

/-! ### One step -/

variable {w w' : World} {reports reports' : List (Int32 × Option CoverageHistory)}

/-- A step of one thread; the others keep their tables, which no report joins. -/
theorem TablesClose.move (h : TablesClose w reports) (thread : ThreadID) (hlocked : Locked w')
    (hgrows : Grows w.profiler w'.profiler) (htracked : TrackedClosed w'.profiler)
    (hothers : ∀ u ≠ thread, w'.pc u = w.pc u)
    (hholders : ∀ u ≠ thread, (w.pc u).HoldsSerialized →
      ∀ id ∈ reportedIds reports', id ∈ reportedIds reports)
    (hpc : PcClosed w'.profiler (reportedIds reports') (w'.pc thread))
    (hreports : w'.profiler.serializedCoverage = reportBuffers reports')
    (hvisited : ∀ id ∈ reportedIds reports',
      IsCollected w'.profiler id ∧ id ∈ w'.profiler.visitedMethods)
    (hresults : ∀ result ∈ w'.results, ∃ reported,
      TableCloses w'.profiler.collectedMethods result reported) : TablesClose w' reports' where
  locked := hlocked
  tracked := htracked
  pcs := by
    intro u
    by_cases hu : u = thread
    · subst hu
      exact hpc
    · rw [hothers u hu]
      exact (h.pcs u).mono hgrows (hholders u hu)
  reports_eq := hreports
  visited := hvisited
  results := hresults

theorem TablesClose.results_mono (h : TablesClose w reports) (hgrows : Grows w.profiler s') :
    ∀ result ∈ w.results, ∃ reported, TableCloses s'.collectedMethods result reported := by
  intro result hresult
  obtain ⟨reported, hcloses⟩ := h.results result hresult
  exact ⟨reported, hcloses.mono hgrows.collected⟩

theorem Grows.visited_of (hgrows : Grows s s') {ids : List Int32}
    (h : ∀ id ∈ ids, IsCollected s id ∧ id ∈ s.visitedMethods) :
    ∀ id ∈ ids, IsCollected s' id ∧ id ∈ s'.visitedMethods :=
  fun id hid => ⟨(h id hid).1.mono hgrows, hgrows.visited (h id hid).2⟩

/-- A step that leaves the buffers as they were. -/
theorem TablesClose.stay (h : TablesClose w reports) (thread : ThreadID) (hlocked : Locked w')
    (hgrows : Grows w.profiler w'.profiler) (htracked : TrackedClosed w'.profiler)
    (hothers : ∀ u ≠ thread, w'.pc u = w.pc u)
    (hpc : PcClosed w'.profiler (reportedIds reports) (w'.pc thread))
    (hreports : w'.profiler.serializedCoverage = w.profiler.serializedCoverage)
    (hresults : w'.results = w.results) : TablesClose w' reports :=
  h.move thread hlocked hgrows htracked hothers (fun _ _ _ _ hid => hid) hpc
    (hreports.trans h.reports_eq) (hgrows.visited_of h.visited)
    (hresults.symm ▸ h.results_mono hgrows)

theorem reportedIds_concat (reports : List (Int32 × Option CoverageHistory)) (threadId : Int32)
    (history : CoverageHistory) : reportedIds (reports ++ [(threadId, some history)])
      = reportedIds reports ++ history.records.map CoverageRecord.methodId := by
  rw [reportedIds, List.flatMap_append, List.flatMap_singleton]
  rfl

theorem reportedIds_notEntered (reports : List (Int32 × Option CoverageHistory))
    (threadIds : List Int32) :
    reportedIds (reports ++ threadIds.map fun id => (id, none)) = reportedIds reports := by
  rw [reportedIds, List.flatMap_append, List.flatMap_map]
  have hnone : (threadIds.flatMap fun id => reportIds (id, none)) = [] :=
    List.flatMap_eq_nil_iff.mpr fun _ _ => rfl
  rw [hnone, List.append_nil]
  rfl

theorem TablesClose.taskStep (h : TablesClose w reports) (hlocked : Locked w')
    (hpc : w.pc thread = .task task) (hstep : w.taskStep thread task = some w') :
    ∃ reports', TablesClose w' reports' := by
  have htask : TaskClosed w.profiler task := by
    have hclosed := h.pcs thread
    rwa [hpc] at hclosed
  rcases World.taskStep_cases hstep with rfl | ⟨s', next, hok, hfree, rfl⟩
  · exact ⟨reports, hlocked, h.tracked, h.pcs, h.reports_eq, h.visited, h.results⟩
  · obtain ⟨hgrows, htracked, hnext⟩ := Task.step_closed hok htask h.tracked
    have hpcs : ∀ ids, PcClosed s' ids (.ofTask next) := by
      intro ids
      cases next with
      | none => exact trivial
      | some t => exact hnext t rfl
    cases hpush : task.needsSerialized with
    | true =>
        cases task with
        | finishPush history threadId =>
            obtain ⟨rfl, rfl⟩ := Prod.mk.inj (Except.ok.inj hok)
            refine ⟨reports ++ [(threadId, some history)], h.move thread hlocked hgrows
              htracked (fun u hu => World.setPc_pc_of_ne _ _ hu) ?_ ?_ ?_ ?_
              (h.results_mono hgrows)⟩
            · -- the mutex is free, so no table is under way
              intro u _ hholds
              have hheld := (h.locked.serialized_iff u).mpr hholds
              rw [hfree rfl] at hheld
              cases hheld
            · rw [World.setPc_pc_self]
              exact hpcs _
            · show w.profiler.serializedCoverage ++ [reportBuffer threadId (some history)] = _
              rw [h.reports_eq, reportBuffers, reportBuffers, List.map_append]
              rfl
            · intro id hid
              rw [reportedIds_concat] at hid
              rcases List.mem_append.mp hid with hold | hnew
              · exact hgrows.visited_of h.visited id hold
              · obtain ⟨record, hrecord, rfl⟩ := List.mem_map.mp hnew
                have hvisited := htask.1.records record hrecord
                exact ⟨(htask.1.collected _ hvisited).mono hgrows, htask.2 hvisited⟩
        | _ => cases hpush
    | false =>
        obtain ⟨hresults, -⟩ :=
          World.note_records { w with profiler := s' } thread hpush
        obtain ⟨hnoted, -, -⟩ := note_mutexes { w with profiler := s' } thread task
        have hstate : ((World.note { w with profiler := s' } thread task).setPc thread
            (.ofTask next)).profiler = s' := World.note_profiler _ _ _
        refine ⟨reports, h.stay thread hlocked ?_ ?_
          (fun u hu => ?_) ?_ ?_ hresults⟩
        · rwa [hstate]
        · rwa [hstate]
        · rw [World.setPc_pc_of_ne _ _ hu, hnoted]
        · rw [World.setPc_pc_self, hstate]
          exact hpcs _
        · rw [hstate, (Task.step_lists hok).2 hpush]

theorem Call.start_closed (s : ProfilerState) (thread : ThreadID) {call : Call} (ids : List Int32)
    (h : ∀ methodId, (Act.call thread call).probeId = some methodId → IsCollected s methodId) :
    PcClosed s ids (call.start s thread).2 := by
  cases call with
  | probe p offset methodId =>
      have hid : IsCollected s methodId := h methodId rfl
      have hprobe : ∀ t, probeTask s (s.isCurrentThreadTracked thread) offset methodId p = some t →
          TaskClosed s t := by
        intro t ht
        cases p with
        | enterMain =>
            cases ht
            split
            · exact trivial
            · exact hid
        | coverage | stsfld | branch | call | throw | tailcall | leaveMain =>
            simp only [probeTask] at ht
            split at ht
            · cases ht
              exact hid
            · cases ht
        | enter | leave =>
            simp only [probeTask] at ht
            split at ht
            · cases ht
            · cases ht
              split
              · exact hid
              · exact trivial
      show PcClosed s ids (.ofTask (probeTask s (s.isCurrentThreadTracked thread) offset methodId p))
      cases hnext : probeTask s (s.isCurrentThreadTracked thread) offset methodId p with
      | none => exact trivial
      | some t => exact hprobe t hnext
  | setCurrentThreadId mapId => exact trivial
  | collectMethod info => exact trivial
  | getHistory => exact trivial
  | _ =>
      simp only [Call.start]
      split
      · exact trivial
      · exact trivial

theorem TablesClose.callStep (h : TablesClose w reports) (hlocked : Locked w') {call : Call}
    (hcarries : CarriesCollected w (.call thread call)) (hstep : w.callStep thread call = some w') :
    TablesClose w' reports := by
  rcases World.callStep_cases hstep with ⟨info, rfl, -, rfl⟩ | ⟨s', hbook, -, rfl⟩
  · have hgrows : Grows w.profiler (w.profiler.collectMethod info).2 :=
      ⟨List.prefix_append _ _, Finset.Subset.refl _⟩
    refine h.stay thread hlocked hgrows (fun t history hlookup => (h.tracked t history hlookup).mono hgrows)
      (fun u hu => World.setPc_pc_of_ne _ _ hu) ?_ rfl rfl
    rw [World.setPc_pc_self]
    exact trivial
  · have hgrows : Grows w.profiler s' := .of_eq hbook.collected_eq hbook.visited_eq
    refine h.stay thread hlocked hgrows (fun t history hlookup => ?_)
      (fun u hu => World.setPc_pc_of_ne _ _ hu) ?_ hbook.reports_eq rfl
    · have hlookup' : w.profiler.trackedCoverage.lookup t = some (some history) :=
        hbook.histories_eq ▸ hlookup
      exact (h.tracked t history hlookup').mono hgrows
    · rw [World.setPc_pc_self]
      exact (Call.start_closed w.profiler thread _ hcarries).mono hgrows fun _ _ hid => hid

theorem IsCollected.nonneg {id : Int32} (h : IsCollected s id) : 0 ≤ id.toInt := by
  obtain ⟨i, -, hid⟩ := h
  omega

/-- The operations of a collection: the loop finds every method that a pending report mentions,
since those methods count as visited, and no report is pushed before the buffers are read. -/
theorem TablesClose.historyStep (h : TablesClose w reports) (hlocked : Locked w') {pc : HistoryPc}
    (hpc : w.pc thread = .history pc) (hstep : w.historyStep thread pc = some w') :
    ∃ reports', TablesClose w' reports' := by
  have hclosed : PcClosed w.profiler (reportedIds reports) (.history pc) := by
    have hclosed := h.pcs thread
    rwa [hpc] at hclosed
  have hmine : (Pc.history pc).HoldsSerialized → ∀ u ≠ thread, ¬(w.pc u).HoldsSerialized := by
    intro hholds u hu hother
    have hheld : w.serializedCoverageMutex = some thread := by
      rw [h.locked.serialized_iff, hpc]
      exact hholds
    have hheld' := (h.locked.serialized_iff u).mpr hother
    rw [hheld] at hheld'
    exact hu (Option.some.inj hheld').symm
  have hself : Grows w.profiler w.profiler := .of_eq rfl rfl
  -- an operation that changes neither histories nor buffers
  have moves : ∀ {next : Pc}, w'.profiler = w.profiler → w'.results = w.results →
      w'.pc = Function.update w.pc thread next →
      PcClosed w.profiler (reportedIds reports) next → TablesClose w' reports := by
    intro next hprofiler hresults hnext hclosed
    refine h.stay thread hlocked (hprofiler ▸ hself) (hprofiler ▸ h.tracked) (fun u hu => ?_) ?_
      (by rw [hprofiler]) hresults
    · rw [hnext, Function.update_of_ne hu]
    · rw [hnext, Function.update_self, hprofiler]
      exact hclosed
  cases pc with
  | lockCollected =>
      simp only [World.historyStep] at hstep
      split at hstep
      · cases hstep
      · obtain rfl := Option.some.inj hstep
        exact ⟨reports, moves rfl rfl rfl trivial⟩
  | lockSerialized =>
      simp only [World.historyStep] at hstep
      split at hstep
      · cases hstep
      · obtain rfl := Option.some.inj hstep
        refine ⟨reports, moves rfl rfl rfl ⟨fun el hel => ?_, List.nodup_nil, ?_⟩⟩
        · cases hel
        · intro id hid hbelow
          have hnonneg := (h.visited id hid).1.nonneg
          omega
  | methods i found =>
      simp only [World.historyStep] at hstep
      split at hstep
      · rename_i hend
        obtain rfl := Option.some.inj hstep
        exact ⟨reports, moves rfl rfl rfl
          ⟨i, hclosed, TableBuilt.all hend fun id hid => (h.visited id hid).1⟩⟩
      · rename_i info hget
        obtain rfl := Option.some.inj hstep
        exact ⟨reports, moves rfl rfl rfl
          (TableBuilt.round hclosed hget fun id hid => (h.visited id hid).2)⟩
  | mapping found =>
      obtain rfl := Option.some.inj hstep
      exact ⟨reports, moves rfl rfl rfl hclosed⟩
  | notEntered found threadMapping =>
      obtain rfl := Option.some.inj hstep
      obtain ⟨ids, buffers, hadded⟩ := addNotEntered_eq threadMapping w.profiler
      have hgrows : Grows w.profiler (addNotEntered threadMapping w.profiler) := by
        rw [hadded]
        exact .of_eq rfl rfl
      have hids := reportedIds_notEntered reports
        (notEntered w.profiler.serializedCoverageThreadIds threadMapping)
      refine ⟨reports ++ (notEntered w.profiler.serializedCoverageThreadIds threadMapping).map
          fun id => (id, none), h.move thread hlocked hgrows (fun t history hlookup => ?_)
        (fun u hu => World.setPc_pc_of_ne _ _ hu) (fun u hu hholds => absurd hholds ?_) ?_ ?_ ?_
        (h.results_mono hgrows)⟩
      · have hlookup' : w.profiler.trackedCoverage.lookup t = some (some history) := by
          rwa [show (World.setPc _ _ _).profiler = addNotEntered threadMapping w.profiler from rfl,
            hadded] at hlookup
        exact (h.tracked t history hlookup').mono hgrows
      · exact hmine trivial u hu
      · rw [World.setPc_pc_self, hids]
        exact PcClosed.mono hclosed hgrows fun _ _ hid => hid
      · show (addNotEntered threadMapping w.profiler).serializedCoverage = _
        rw [addNotEntered_serializedCoverage, h.reports_eq, reportBuffers, reportBuffers,
          List.map_append, List.map_map]
        rfl
      · rw [hids]
        exact hgrows.visited_of h.visited
  | serialize found =>
      obtain rfl := Option.some.inj hstep
      obtain ⟨i, hbuilt, hall⟩ := hclosed
      refine ⟨reports, h.move thread hlocked hself h.tracked
        (fun u hu => World.setPc_pc_of_ne _ _ hu) (fun _ _ _ _ hid => hid) ?_ h.reports_eq h.visited
        fun result hresult => ?_⟩
      · rw [World.setPc_pc_self]
        exact trivial
      · rcases List.mem_append.mp hresult with hold | hnew
        · exact h.results result hold
        · obtain rfl := List.mem_singleton.mp hnew
          exact ⟨reports, hbuilt.closes h.reports_eq hall⟩
  | clearSerialized =>
      obtain rfl := Option.some.inj hstep
      refine ⟨[], h.move thread hlocked (.of_eq rfl rfl) (fun t history hlookup =>
        (h.tracked t history hlookup).mono (.of_eq rfl rfl))
        (fun u hu => World.setPc_pc_of_ne _ _ hu) (fun _ _ _ id hid => ?_) ?_ rfl
        (fun id hid => ?_) h.results⟩
      · cases hid
      · rw [World.setPc_pc_self]
        exact trivial
      · cases hid
  | clearTracked | clearCoverage =>
      obtain rfl := Option.some.inj hstep
      have hgrows : Grows w.profiler w.profiler.clearCoverage := .of_eq rfl rfl
      refine ⟨reports, h.stay thread hlocked hgrows (fun t history hlookup => ?_)
        (fun u hu => World.setPc_pc_of_ne _ _ hu) ?_ rfl rfl⟩
      · cases hlookup
      · rw [World.setPc_pc_self]
        exact trivial
  | unlockSerialized | unlockCollected =>
      obtain rfl := Option.some.inj hstep
      exact ⟨reports, moves rfl rfl rfl trivial⟩
  | clearMapping | clearBalances | clearUnwinds | clearFilters =>
      obtain rfl := Option.some.inj hstep
      refine ⟨reports, h.stay thread hlocked (.of_eq rfl rfl) (fun t history hlookup =>
        (h.tracked t history hlookup).mono (.of_eq rfl rfl))
        (fun u hu => World.setPc_pc_of_ne _ _ hu) ?_ rfl rfl⟩
      rw [World.setPc_pc_self]
      exact trivial

theorem TablesClose.step (h : TablesClose w reports) {act : Act} (hcarries : CarriesCollected w act)
    (hstep : w.step act = some w') : ∃ reports', TablesClose w' reports' := by
  have hlocked := h.locked.step hstep
  obtain ⟨-, ⟨thread, call, rfl, hpc, hstep⟩ | ⟨thread, task, rfl, hpc, hstep⟩
    | ⟨thread, pc, rfl, hpc, hstep⟩⟩ := World.step_cases hstep
  · exact ⟨reports, h.callStep hlocked hcarries hstep⟩
  · exact h.taskStep hlocked hpc hstep
  · exact h.historyStep hlocked hpc hstep

theorem tablesClose_init (isPassiveRun collectMainOnly : Bool) :
    TablesClose (.init isPassiveRun collectMainOnly) [] where
  locked := locked_init isPassiveRun collectMainOnly
  tracked := by
    intro t history hlookup
    cases hlookup
  pcs := fun _ => trivial
  reports_eq := rfl
  visited := by
    intro id hid
    cases hid
  results := by
    intro result hresult
    cases hresult

/-! ### All runs -/

theorem World.step_collected {act : Act} (hstep : w.step act = some w') :
    w'.profiler.collectedMethods = w.profiler.collectedMethods ++ act.collected.toList := by
  obtain ⟨-, ⟨thread, call, rfl, -, hstep⟩ | ⟨thread, task, rfl, -, hstep⟩
    | ⟨thread, pc, rfl, -, hstep⟩⟩ := World.step_cases hstep
  · rw [World.callStep] at hstep
    split at hstep
    · cases hstep
    · obtain rfl := Option.some.inj hstep
      cases call with
      | collectMethod info => rfl
      | setCurrentThreadId mapId =>
          obtain ⟨asserts, hassert⟩ := profilerAssert_eq w.profiler .threadStorage
            (!(ThreadStorage.exist w.profiler.threadIdMapping thread))
          show (w.profiler.mapCurrentThread thread mapId).collectedMethods = _ ++ []
          rw [mapCurrentThread, hassert, List.append_nil]
      | _ => exact (List.append_nil _).symm
  · rcases World.taskStep_cases hstep with rfl | ⟨s', next, hok, -, rfl⟩
    · exact (List.append_nil _).symm
    · show (World.note _ thread task).profiler.collectedMethods = _ ++ []
      rw [World.note_profiler, (Task.step_lists hok).1, List.append_nil]
  · show _ = _ ++ []
    rw [List.append_nil]
    cases pc with
    | lockCollected | lockSerialized =>
        simp only [World.historyStep] at hstep
        split at hstep
        · cases hstep
        · obtain rfl := Option.some.inj hstep
          rfl
    | methods i found =>
        simp only [World.historyStep] at hstep
        split at hstep
        · obtain rfl := Option.some.inj hstep
          rfl
        · obtain rfl := Option.some.inj hstep
          rfl
    | notEntered found threadMapping =>
        obtain ⟨ids, buffers, hadded⟩ := addNotEntered_eq threadMapping w.profiler
        obtain rfl := Option.some.inj hstep
        show (addNotEntered threadMapping w.profiler).collectedMethods = _
        rw [hadded]
    | _ =>
        obtain rfl := Option.some.inj hstep
        rfl

/-- The collected methods are those of the calls of `collectMethod` so far, in their order; such a
call returns the number of those in front of it. -/
theorem collectedMethods_eq {acts : List Act} :
    ∀ {w w' : World}, run World.step w acts = some w' → w'.profiler.collectedMethods
      = w.profiler.collectedMethods ++ acts.filterMap Act.collected := by
  induction acts with
  | nil =>
      intro w w' hrun
      obtain rfl := Option.some.inj hrun
      exact (List.append_nil _).symm
  | cons act acts ih =>
      intro w w' hrun
      rw [run_cons] at hrun
      obtain ⟨next, hstep, hrest⟩ := Option.bind_eq_some_iff.mp hrun
      rw [ih hrest, World.step_collected hstep, List.append_assoc, List.filterMap_cons]
      cases act.collected with
      | none => rfl
      | some info => rfl

/-- An id that has been returned stays one. -/
theorem carriesCollected_along {acts : List Act} : ∀ {w : World},
    (∀ act ∈ acts, ∀ methodId, act.probeId = some methodId → IsCollected w.profiler methodId) →
    Along World.step CarriesCollected w acts := by
  induction acts with
  | nil => exact fun _ => trivial
  | cons act acts ih =>
      intro w h
      refine ⟨h act List.mem_cons_self, fun w' hstep => ih fun later hlater methodId hid => ?_⟩
      obtain ⟨i, hlt, heq⟩ := h later (List.mem_cons_of_mem act hlater) methodId hid
      refine ⟨i, ?_, heq⟩
      rw [World.step_collected hstep, List.length_append]
      omega

/-- The location of a record is in the method that was collected under the record's id. -/
def Locates (collected : List MethodInfo) (record : CoverageRecord)
    (location : CoverageLocation) : Prop :=
  ∃ (i : ℕ) (info : MethodInfo), record.methodId.toInt = i ∧ collected[i]? = some info
    ∧ location = ⟨info.assemblyName.dropLast, info.moduleName.dropLast, info.token.toInt32,
      record.offset.toInt32⟩

/-- A resolved report locates the records of its report. -/
def Resolves (collected : List MethodInfo) (report : Int32 × Option CoverageHistory)
    (resolved : CoverageReport) : Prop :=
  resolved.threadId = report.1 ∧ List.Forall₂ (Locates collected)
    (report.2.elim [] CoverageHistory.records) resolved.coverageLocations

/-- Every id in a report resolves, to the method that was collected under it. -/
theorem reportsFromRawReports_ok {collected : List MethodInfo} {result : HistoryResult}
    {reports : List (Int32 × Option CoverageHistory)} (h : TableCloses collected result reports)
    {methods : Dictionary Int32 RawMethodInfo}
    (hmethods : methods.entries = result.methods.map fun el => (el.1, el.2.toRaw)) :
    ∃ resolved, reportsFromRawReports ⟨methods, reports.map rawReport⟩ = .ok resolved
      ∧ List.Forall₂ (Resolves collected) reports resolved := by
  refine exists_mapM_eq_ok fun report hreport => ?_
  have hlocations : ∀ record ∈ report.2.elim [] CoverageHistory.records, ∃ location,
      toLocation ⟨methods, reports.map rawReport⟩ record.toRaw = .ok location
        ∧ Locates collected record location := by
    intro record hrecord
    obtain ⟨i, info, hi, hget, hmem⟩ := h.closed record.methodId
      (List.mem_flatMap.mpr ⟨report, hreport, List.mem_map_of_mem hrecord⟩)
    have hlookup : methods.lookup record.methodId = some info.toRaw := by
      rw [Dictionary.lookup_eq_some_iff, hmethods]
      exact List.mem_map.mpr ⟨_, hmem, rfl⟩
    refine ⟨⟨info.assemblyName.dropLast, info.moduleName.dropLast, info.token.toInt32,
      record.offset.toInt32⟩, ?_, i, info, hi, hget, rfl⟩
    rw [toLocation, show record.toRaw.methodId = record.methodId from rfl, hlookup]
    rfl
  obtain ⟨locations, hmap, hlocates⟩ := exists_mapM_eq_ok hlocations
  refine ⟨⟨report.1, locations⟩, ?_, rfl, hlocates⟩
  rw [toReport, show (rawReport report).rawCoverageLocations
    = (report.2.elim [] CoverageHistory.records).map CoverageRecord.toRaw from rfl, hmap]
  rfl

/-- **Every report is closed under its method table.**  Whatever the threads do, in whatever order,
as long as probes carry ids that `collectMethod` has returned: the method ids in the reports of a
result are keys of its table, and the key stands for the method of that call of `collectMethod`.
So the managed side resolves them all, and it does read this table and these reports from the bytes
of the result when the names are as the CLR supplies them. -/
theorem reports_close (isPassiveRun collectMainOnly : Bool) (acts : List Act) (w : World)
    (hrun : run World.step (.init isPassiveRun collectMainOnly) acts = some w)
    (hcarries : Along World.step CarriesCollected (.init isPassiveRun collectMainOnly) acts) :
    ∀ result ∈ w.results, ∃ reports,
      TableCloses (acts.filterMap Act.collected) result reports
      ∧ ∃ (methods : Dictionary Int32 RawMethodInfo) (resolved : List CoverageReport),
        methods.entries = result.methods.map (fun el => (el.1, el.2.toRaw))
        ∧ reportsFromRawReports ⟨methods, reports.map rawReport⟩ = .ok resolved
        ∧ List.Forall₂ (Resolves (acts.filterMap Act.collected)) reports resolved
        ∧ ∀ data : NetBytes, data.bytes = result.bytes →
          (∀ el ∈ result.methods, ClrName el.2.assemblyName ∧ ClrName el.2.moduleName) →
          getRawReports data
            = .ok (⟨methods, reports.map rawReport⟩, Int32.ofNat data.bytes.length) := by
  intro result hresult
  have hinv : ∃ reports, TablesClose w reports :=
    (always_of_along (I := fun w => ∃ reports, TablesClose w reports)
      (Q := fun w => ∃ reports, TablesClose w reports) (fun _ h => h)
      (fun _ _ _ ⟨_, h⟩ hP hstep => h.step hP hstep)
      ⟨[], tablesClose_init isPassiveRun collectMainOnly⟩ hcarries).behind hrun
  obtain ⟨pending, h⟩ := hinv
  obtain ⟨reports, hcloses⟩ := h.results result hresult
  rw [collectedMethods_eq hrun] at hcloses
  let methods : Dictionary Int32 RawMethodInfo :=
    ⟨result.methods.map fun el => (el.1, el.2.toRaw), by
      rw [List.map_map]
      exact hcloses.keys_nodup⟩
  obtain ⟨resolved, hresolved, hall⟩ := reportsFromRawReports_ok hcloses (show methods.entries = _ from rfl)
  refine ⟨reports, hcloses, methods, resolved, rfl, hresolved, hall, fun data hdata hnames => ?_⟩
  rw [HistoryResult.bytes, hcloses.reports_eq] at hdata
  obtain ⟨dictionary, hentries, hread⟩ := getRawReports_of_bytes hcloses.keys_nodup hnames hdata
  obtain rfl : dictionary = methods := Dictionary.ext_entries hentries
  exact hread

/-- A method is collected and runs as the main method of thread 1; thread 2 collects its report. -/
def collectedAndRun (info : MethodInfo) : List Act :=
  .call 1 (.collectMethod info) :: .call 1 (.probe .enterMain 0 0) :: (List.replicate 5 (.step 1)
    ++ .call 1 (.probe .leaveMain 4 0) :: (List.replicate 11 (.step 1)
    ++ .call 2 .getHistory :: List.replicate 8 (.step 2)))

theorem reports_close_one :
    let info : MethodInfo := ⟨0x06000001, 2, [65, 0], 2, [66, 0], rfl, rfl⟩
    ∃ w result, run World.step (.init false true) (collectedAndRun info) = some w
      ∧ w.results = [result] ∧ result.methods = [(0, info)]
      ∧ ∃ reports, TableCloses ((collectedAndRun info).filterMap Act.collected) result reports := by
  intro info
  have hcarries : Along World.step CarriesCollected (.init false true) (collectedAndRun info) := by
    refine ⟨(fun _ hid => nomatch hid), fun w hstep => ?_⟩
    refine carriesCollected_along fun act hact methodId hid => ?_
    have hall : ∀ act ∈ (collectedAndRun info).tail, act.probeId = none ∨ act.probeId = some 0 := by
      decide
    obtain rfl := Option.some.inj hstep
    rcases hall act hact with hnone | hzero
    · rw [hnone] at hid
      cases hid
    · obtain rfl := Option.some.inj (hzero.symm.trans hid)
      exact ⟨0, Nat.one_pos, rfl⟩
  have htables : (run World.step (.init false true) (collectedAndRun info)).map
      (fun w => w.results.map HistoryResult.methods) = some [[(0, info)]] := by decide +kernel
  obtain ⟨w, hrun, htables⟩ := Option.map_eq_some_iff.mp htables
  obtain ⟨result, hresults, hmethods⟩ := List.map_eq_singleton_iff.mp htables
  obtain ⟨reports, hcloses, -⟩ := reports_close false true _ w hrun hcarries result
    (by rw [hresults]; exact List.mem_singleton_self result)
  exact ⟨w, result, hrun, hresults, hmethods, reports, hcloses⟩

end TestExecutor
