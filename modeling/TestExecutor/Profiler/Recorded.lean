import TestExecutor.Profiler.Delivery
import TestExecutor.Profiler.ReportClosure

/-!
# Records and calls

Every interleaving of operations, with exceptions, aborts and collections: which calls of probes the
records of the reports come from, and which calls leave a record.

* `Task.pending`, `Task.inHand` — the call and the history that a thread has in hand;
* `HistoryEffect`, `Task.step_effect` — what an operation does to the histories;
* `RecordsMade`, `records_made` — every record was called for, by the thread of its report;
* `KeepsHistory`, `Holds`, `Kept` — the histories stay, and where a call is until it is in a report;
* `ProfilerState.Records`, `RecordedCall`, `records_kept` — what a thread calls for is delivered, unless
  its history is cleared or aborted.
-/

namespace TestExecutor

open TestExecutor.Library ProfilerState

/-! ### One operation -/

/-- The offset and the method id that an operation is going to record. -/
def Task.pending : Task → Option (UInt32 × Int32)
  | .tailcallDown offset methodId | .trackBalances offset methodId | .trackFilters offset methodId
  | .trackUp offset methodId | .add offset _ methodId _ | .addStore offset methodId _
  | .addLoad offset _ methodId _ => some (offset, methodId)
  | _ => none

/-- The history that a finishing thread has loaded. -/
def Task.inHand : Task → Option CoverageHistory
  | .finishMapping coverage | .finishMappedId coverage | .finishVisit coverage _ => coverage
  | .finishRemove history _ | .finishPush history _ => some history
  | _ => none

/-- What an operation pushes. -/
def Task.report : Task → List (List UInt8)
  | .finishPush history threadId => [reportBuffer threadId (some history)]
  | _ => []

/-- A new history is about to be stored. -/
def Task.IsStore : Task → Prop
  | .addStore _ _ _ => True
  | _ => False

/-- What an operation does to the histories, and what the next one has in hand. -/
inductive HistoryEffect (s s' : ProfilerState) (thread : ThreadID) : Task → Option Task → Prop
  | keeps {task : Task} {next : Option Task} (htracked : s'.trackedCoverage = s.trackedCoverage)
      (hpending : next.bind Task.pending = task.pending)
      (hinHand : next.bind Task.inHand = task.inHand) (hstore : ∀ t ∈ next, ¬t.IsStore) :
      HistoryEffect s s' thread task next
  | tests {offset : UInt32} {event : CoverageEvent} {methodId : Int32} {after : AfterAdd}
      {next : Task} (htracked : s'.trackedCoverage = s.trackedCoverage)
      (hnext : next = .addStore offset methodId after ∧ s.trackedCoverage.lookup thread = none
        ∨ next = .addLoad offset event methodId after) :
      HistoryEffect s s' thread (.add offset event methodId after) (some next)
  | stores {offset : UInt32} {methodId : Int32} {after : AfterAdd}
      (htracked : s'.trackedCoverage
        = s.trackedCoverage.insert thread (some (.new thread offset methodId))) :
      HistoryEffect s s' thread (.addStore offset methodId after) after.task
  | appends {offset : UInt32} {event : CoverageEvent} {methodId : Int32} {after : AfterAdd}
      {history : CoverageHistory} (hload : s.trackedCoverage.lookup thread = some (some history))
      (htracked : s'.trackedCoverage = s.trackedCoverage.insert thread
        (some (history.addCoverage thread offset event methodId))) :
      HistoryEffect s s' thread (.addLoad offset event methodId after) after.task
  | aborts (htracked : s'.trackedCoverage = s.trackedCoverage.insert thread none) :
      HistoryEffect s s' thread .abort (some .finishLoad)
  | loads (htracked : s'.trackedCoverage = s.trackedCoverage) :
      HistoryEffect s s' thread .finishLoad
        (some (.finishMapping (ThreadStorage.load s.trackedCoverage thread)))
  | removes {history : CoverageHistory} {threadId : Int32}
      (htracked : s'.trackedCoverage = s.trackedCoverage.erase thread) :
      HistoryEffect s s' thread (.finishRemove history threadId)
        (some (.finishPush history threadId))
  | pushes {history : CoverageHistory} {threadId : Int32}
      (htracked : s'.trackedCoverage = s.trackedCoverage) :
      HistoryEffect s s' thread (.finishPush history threadId) (some .finishBalances)

variable {s s' : ProfilerState} {thread : ThreadID} {task : Task} {next : Option Task}

theorem load_eq_some {history : CoverageHistory}
    (h : ThreadStorage.load s.trackedCoverage thread = some history) :
    s.trackedCoverage.lookup thread = some (some history) := by
  cases hlookup : s.trackedCoverage.lookup thread with
  | none =>
      rw [ThreadStorage.load, hlookup] at h
      cases h
  | some v =>
      rw [ThreadStorage.load_of_lookup hlookup] at h
      rw [h]

/-- **What an operation does to the histories.** -/
theorem Task.step_effect (hok : task.step s thread = .ok (s', next)) :
    HistoryEffect s s' thread task next := by
  have goes : ∀ {a : ProfilerState} {n : Option Task},
      (Except.ok (a, n) : Except Fault (ProfilerState × Option Task)) = .ok (s', next) →
      a = s' ∧ n = next := fun heq => Prod.mk.inj (Except.ok.inj heq)
  obtain ⟨asserts, hassert⟩ := profilerAssert_eq s .threadStorage
    (ThreadStorage.exist s.trackedCoverage thread)
  by_cases hplain : task.IsCoverage
  · cases task with
    | addStore offset methodId after =>
        obtain ⟨rfl, rfl⟩ := goes hok
        exact .stores rfl
    | addLoad offset event methodId after =>
        simp only [Task.step, hassert] at hok
        split at hok
        · cases hok
        · rename_i history hload
          obtain ⟨rfl, rfl⟩ := goes hok
          exact .appends (load_eq_some hload) rfl
    | abort =>
        simp only [Task.step, invocationAborted, hassert] at hok
        obtain ⟨rfl, rfl⟩ := goes hok
        exact .aborts rfl
    | finishVisit coverage threadId =>
        cases coverage with
        | none => cases hok
        | some history =>
            obtain ⟨rfl, rfl⟩ := goes hok
            exact .keeps rfl rfl rfl (by rintro t ⟨⟩; exact id)
    | finishRemove history threadId =>
        simp only [Task.step, hassert] at hok
        obtain ⟨rfl, rfl⟩ := goes hok
        exact .removes rfl
    | finishPush history threadId =>
        obtain ⟨rfl, rfl⟩ := goes hok
        exact .pushes rfl
    | _ => exact absurd hplain id
  · have htracked := (Task.step_bookkeeping hok hplain).histories_eq
    have next_eq : ∀ {a : ProfilerState} {n : Option Task},
        (Except.ok (a, n) : Except Fault (ProfilerState × Option Task)) = .ok (s', next) →
        n = next := fun heq => (goes heq).2
    have ends : ∀ {t : Task}, t ∈ (none : Option Task) → ¬t.IsStore := by rintro t ⟨⟩
    cases task with
    | stackUp | stackDown | filterUp | filterDown | unwindStore _ | finishUnmap =>
        obtain rfl := next_eq hok
        exact .keeps htracked rfl rfl fun t ht => ends ht
    | unwindLoad | lose | finishBalances =>
        obtain rfl := next_eq hok
        exact .keeps htracked rfl rfl (by rintro t ⟨⟩; exact id)
    | tailcallDown _ methodId | trackBalances _ methodId | trackFilters _ methodId
    | trackUp _ methodId | finishMappedId _ =>
        obtain rfl := next_eq hok
        exact .keeps htracked rfl rfl (by rintro t ⟨⟩; exact id)
    | mainDown | unwindRemove _ | unwindBalance | finishFilters =>
        obtain rfl := next_eq hok
        split
        all_goals exact .keeps htracked rfl rfl (by rintro t ⟨⟩; try exact id)
    | unwindFilter =>
        obtain rfl := next_eq hok
        split
        all_goals exact .keeps htracked rfl rfl (by rintro t ⟨⟩; exact id)
    | finishMapping coverage =>
        obtain rfl := next_eq hok
        split
        all_goals exact .keeps htracked rfl rfl (by rintro t ⟨⟩; exact id)
    | add offset event methodId after =>
        simp only [Task.step] at hok
        split at hok
        · rename_i hnone
          obtain rfl := next_eq hok
          refine .tests htracked (Or.inl ⟨rfl, ?_⟩)
          have hexist := (Bool.and_eq_true_iff.mp hnone).2
          rw [profilerAssert_trackedCoverage, Bool.not_eq_true'] at hexist
          exact ThreadStorage.exist_eq_false.mp hexist
        · obtain rfl := next_eq hok
          exact .tests htracked (Or.inr rfl)
    | finishLoad =>
        obtain rfl := next_eq hok
        rw [profilerAssert_trackedCoverage]
        exact .loads htracked
    | _ => exact absurd trivial hplain

/-- The histories of other threads stay as they were. -/
theorem HistoryEffect.others (h : HistoryEffect s s' thread task next) {t : ThreadID}
    (ht : t ≠ thread) : s'.trackedCoverage.lookup t = s.trackedCoverage.lookup t := by
  cases h with
  | keeps htracked | tests htracked | loads htracked | pushes htracked => rw [htracked]
  | stores htracked | aborts htracked => rw [htracked, OrderedMap.lookup_insert_of_ne _ _ ht]
  | appends _ htracked => rw [htracked, OrderedMap.lookup_insert_of_ne _ _ ht]
  | removes htracked => rw [htracked, OrderedMap.lookup_erase_of_ne _ ht]

theorem Task.step_report (hok : task.step s thread = .ok (s', next)) :
    s'.serializedCoverage = s.serializedCoverage ++ task.report := by
  cases hpush : task.needsSerialized with
  | true =>
      cases task with
      | finishPush history threadId =>
          obtain ⟨rfl, -⟩ := Prod.mk.inj (Except.ok.inj hok)
          rfl
      | _ => cases hpush
  | false =>
      rw [(Task.step_lists hok).2 hpush]
      cases task with
      | finishPush history threadId => cases hpush
      | _ => exact (List.append_nil _).symm

/-! ### One step of the world -/

/-- What a step of one thread does to the histories and to the reports. -/
inductive WorldEffect (w w' : World) : Act → Prop
  | crashes {thread : ThreadID} {task : Task} (hw : w' = { w with crashed := some task }) :
      WorldEffect w w' (.step thread)
  | calls {thread : ThreadID} {call : Call} (hidle : w.pc thread = .idle)
      (hpc : w'.pc = Function.update w.pc thread (call.start w.profiler thread).2)
      (htracked : w'.profiler.trackedCoverage = w.profiler.trackedCoverage)
      (hbuffers : w'.profiler.serializedCoverage = w.profiler.serializedCoverage)
      (hpushed : w'.pushed = w.pushed) (hresults : w'.results = w.results) :
      WorldEffect w w' (.call thread call)
  | works {thread : ThreadID} {task : Task} {next : Option Task} (htask : w.pc thread = .task task)
      (hpc : w'.pc = Function.update w.pc thread (.ofTask next))
      (heffect : HistoryEffect w.profiler w'.profiler thread task next)
      (hbuffers : w'.profiler.serializedCoverage = w.profiler.serializedCoverage ++ task.report)
      (hpushed : w'.pushed = w.pushed ++ task.report) (hresults : w'.results = w.results) :
      WorldEffect w w' (.step thread)
  | collects {thread : ThreadID} {pc : HistoryPc} {next : Pc} (hhistory : w.pc thread = .history pc)
      (hpc : w'.pc = Function.update w.pc thread next) (hnext : ∀ task, next ≠ .task task)
      (htracked : w'.profiler.trackedCoverage = w.profiler.trackedCoverage
        ∨ (pc = .clearTracked ∨ pc = .clearCoverage)
          ∧ w'.profiler.trackedCoverage = OrderedMap.empty)
      (hbuffers : w'.profiler.serializedCoverage = []
        ∨ ∃ ids : List Int32, w'.profiler.serializedCoverage
          = w.profiler.serializedCoverage ++ ids.map fun id => reportBuffer id none)
      (hpushed : w'.pushed = w.pushed) (hresults : w'.results = w.results
        ∨ ∃ found, w'.results = w.results ++ [⟨found, w.profiler.serializedCoverage⟩]) :
      WorldEffect w w' (.step thread)

variable {w w' : World} {act : Act}

theorem World.historyStep_effect {pc : HistoryPc} (hpc : w.pc thread = .history pc)
    (hstep : w.historyStep thread pc = some w') : WorldEffect w w' (.step thread) := by
  have same : ∀ {ids : List Int32}, ids = [] → w.profiler.serializedCoverage
      = w.profiler.serializedCoverage ++ ids.map fun id => reportBuffer id none := by
    rintro _ rfl
    exact (List.append_nil _).symm
  cases pc with
  | lockCollected | lockSerialized =>
      simp only [World.historyStep] at hstep
      split at hstep
      · cases hstep
      · obtain rfl := Option.some.inj hstep
        exact .collects hpc rfl (by rintro _ ⟨⟩) (Or.inl rfl) (Or.inr ⟨[], same rfl⟩) rfl (Or.inl rfl)
  | methods i found =>
      simp only [World.historyStep] at hstep
      split at hstep
      all_goals
        obtain rfl := Option.some.inj hstep
        exact .collects hpc rfl (by rintro _ ⟨⟩) (Or.inl rfl) (Or.inr ⟨[], same rfl⟩) rfl (Or.inl rfl)
  | mapping found =>
      obtain rfl := Option.some.inj hstep
      exact .collects hpc rfl (by rintro _ ⟨⟩) (Or.inl rfl) (Or.inr ⟨[], same rfl⟩) rfl (Or.inl rfl)
  | notEntered found threadMapping =>
      obtain rfl := Option.some.inj hstep
      obtain ⟨ids, buffers, hadded⟩ := addNotEntered_eq threadMapping w.profiler
      refine .collects hpc rfl (by rintro _ ⟨⟩) (Or.inl ?_) (Or.inr ⟨notEntered
        w.profiler.serializedCoverageThreadIds threadMapping, ?_⟩) rfl (Or.inl rfl)
      · show (addNotEntered threadMapping w.profiler).trackedCoverage = _
        rw [hadded]
      · exact addNotEntered_serializedCoverage threadMapping w.profiler
  | serialize found =>
      obtain rfl := Option.some.inj hstep
      exact .collects hpc rfl (by rintro _ ⟨⟩) (Or.inl rfl) (Or.inr ⟨[], same rfl⟩) rfl
        (Or.inr ⟨found, rfl⟩)
  | clearTracked =>
      obtain rfl := Option.some.inj hstep
      exact .collects hpc rfl (by rintro _ ⟨⟩) (Or.inr ⟨Or.inl rfl, rfl⟩) (Or.inr ⟨[], same rfl⟩) rfl
        (Or.inl rfl)
  | clearCoverage =>
      obtain rfl := Option.some.inj hstep
      exact .collects hpc rfl (by rintro _ ⟨⟩) (Or.inr ⟨Or.inr rfl, rfl⟩) (Or.inr ⟨[], same rfl⟩) rfl
        (Or.inl rfl)
  | clearSerialized =>
      obtain rfl := Option.some.inj hstep
      exact .collects hpc rfl (by rintro _ ⟨⟩) (Or.inl rfl) (Or.inl rfl) rfl (Or.inl rfl)
  | unlockSerialized | unlockCollected | clearMapping | clearBalances | clearUnwinds | clearFilters =>
      obtain rfl := Option.some.inj hstep
      exact .collects hpc rfl (by rintro _ ⟨⟩) (Or.inl rfl) (Or.inr ⟨[], same rfl⟩) rfl (Or.inl rfl)

/-- **What a step of the world does** to the histories and to the reports. -/
theorem World.step_effect (hstep : w.step act = some w') : WorldEffect w w' act := by
  obtain ⟨-, ⟨thread, call, rfl, hpc, hstep⟩ | ⟨thread, task, rfl, hpc, hstep⟩
    | ⟨thread, pc, rfl, hpc, hstep⟩⟩ := World.step_cases hstep
  · rcases World.callStep_cases hstep with ⟨info, rfl, -, rfl⟩ | ⟨s', hbook, -, rfl⟩
    · exact .calls hpc rfl rfl rfl rfl rfl
    · exact .calls hpc rfl hbook.histories_eq hbook.reports_eq rfl rfl
  · rcases World.taskStep_cases hstep with rfl | ⟨s', next, hok, -, rfl⟩
    · exact .crashes rfl
    · obtain ⟨hpcs, -, -⟩ := note_mutexes { w with profiler := s' } thread task
      have hstate : ((World.note { w with profiler := s' } thread task).setPc thread
          (.ofTask next)).profiler = s' := World.note_profiler _ _ _
      refine @WorldEffect.works w _ thread task next hpc ?_ ?_ ?_ ?_ ?_
      · show Function.update ((World.note _ thread task).pc) thread _ = _
        rw [hpcs]
      · rw [hstate]
        exact Task.step_effect hok
      · rw [hstate]
        exact Task.step_report hok
      · cases task with
        | finishPush history threadId => rfl
        | _ => exact (List.append_nil _).symm
      · cases task <;> rfl
  · exact World.historyStep_effect hpc hstep

/-- What a call has in hand behind its first operation. -/
theorem Call.start_task (s : ProfilerState) (thread : ThreadID) {call : Call} {task : Task}
    (h : (call.start s thread).2 = .task task) : task.inHand = none ∧ ¬task.IsStore
      ∧ ∀ d, task.pending = some d → ∃ p, call = .probe p d.1 d.2 := by
  cases call with
  | probe p offset methodId =>
      have hprobe : probeTask s (s.isCurrentThreadTracked thread) offset methodId p = some task := by
        change Pc.ofTask (probeTask s (s.isCurrentThreadTracked thread) offset methodId p) = _ at h
        cases hnext : probeTask s (s.isCurrentThreadTracked thread) offset methodId p with
        | none =>
            rw [hnext] at h
            cases h
        | some t =>
            rw [hnext] at h
            cases h
            rfl
      have hcases : task = .stackUp ∨ task = .stackDown ∨ task.pending = some (offset, methodId)
          ∧ task.inHand = none ∧ ¬task.IsStore := by
        cases p with
        | enterMain =>
            cases hprobe
            split
            · exact Or.inl rfl
            · exact Or.inr (Or.inr ⟨rfl, rfl, id⟩)
        | coverage | stsfld | branch | call | throw | tailcall | leaveMain =>
            simp only [probeTask] at hprobe
            split at hprobe
            · cases hprobe
              exact Or.inr (Or.inr ⟨rfl, rfl, id⟩)
            · cases hprobe
        | enter | leave =>
            simp only [probeTask] at hprobe
            split at hprobe
            · cases hprobe
            · cases hprobe
              split
              · exact Or.inr (Or.inr ⟨rfl, rfl, id⟩)
              · first | exact Or.inl rfl | exact Or.inr (Or.inl rfl)
      rcases hcases with rfl | rfl | ⟨hpending, hinHand, hstore⟩
      · exact ⟨rfl, id, by rintro d ⟨⟩⟩
      · exact ⟨rfl, id, by rintro d ⟨⟩⟩
      · refine ⟨hinHand, hstore, fun d hd => ⟨p, ?_⟩⟩
        obtain rfl := Option.some.inj (hpending.symm.trans hd)
        rfl
  | setCurrentThreadId mapId => cases h
  | collectMethod info => cases h
  | getHistory => cases h
  | _ =>
      simp only [Call.start] at h
      split at h
      all_goals
        cases h
        try exact ⟨rfl, id, by rintro d ⟨⟩⟩

/-! ### Every record was called for -/

/-- The offset and the method id of a call of a probe by a thread. -/
def Act.probeOf (t : ThreadID) : Act → Option (UInt32 × Int32)
  | .call thread (.probe _ offset methodId) => if thread = t then some (offset, methodId) else none
  | _ => none

def callsOf (t : ThreadID) (acts : List Act) : List (UInt32 × Int32) := acts.filterMap (Act.probeOf t)

theorem mem_callsOf {t : ThreadID} {acts : List Act} {call : UInt32 × Int32} (h : call ∈ callsOf t acts) :
    ∃ p, .call t (.probe p call.1 call.2) ∈ acts := by
  obtain ⟨act, hact, hprobe⟩ := List.mem_filterMap.mp h
  cases act with
  | step thread => cases hprobe
  | call thread c =>
      cases c with
      | probe p offset methodId =>
          rw [Act.probeOf] at hprobe
          split at hprobe
          · rename_i ht
            obtain rfl := Option.some.inj hprobe
            exact ⟨p, ht ▸ hact⟩
          · cases hprobe
      | _ => cases hprobe

def CoverageRecord.call (record : CoverageRecord) : UInt32 × Int32 := (record.offset, record.methodId)

/-- The records of a history are calls of its thread, in their order, each at most once. -/
structure HistoryMade (calls : List (UInt32 × Int32)) (t : ThreadID) (history : CoverageHistory) :
    Prop where
  thread_eq : ∀ record ∈ history.records, record.thread = t
  sublist : (history.records.map CoverageRecord.call).Sublist calls

def BufferMade (done : List Act) (buffer : List UInt8) : Prop :=
  ∃ t threadId report, buffer = reportBuffer threadId report
    ∧ ∀ history, report = some history → HistoryMade (callsOf t done) t history

/-- So are those of all histories and reports, and what a thread has in hand comes behind them. -/
structure RecordsMade (done : List Act) (w : World) : Prop where
  tracked : ∀ t history, w.profiler.trackedCoverage.lookup t = some (some history) →
    HistoryMade (callsOf t done) t history
  inHand : ∀ t task, w.pc t = .task task → ∀ history, task.inHand = some history →
    HistoryMade (callsOf t done) t history
  pending : ∀ t task, w.pc t = .task task → ∀ call, task.pending = some call →
    [call].Sublist (callsOf t done) ∧ ∀ history,
      w.profiler.trackedCoverage.lookup t = some (some history) →
      (history.records.map CoverageRecord.call ++ [call]).Sublist (callsOf t done)
  buffers : ∀ buffer ∈ w.profiler.serializedCoverage, BufferMade done buffer
  pushed : ∀ buffer ∈ w.pushed, BufferMade done buffer
  results : ∀ result ∈ w.results, ∀ buffer ∈ result.reports, BufferMade done buffer

section Made

variable {done : List Act} {t : ThreadID} {history : CoverageHistory} {buffer : List UInt8}

theorem callsOf_snoc (t : ThreadID) (done : List Act) (act : Act) :
    callsOf t (done ++ [act]) = callsOf t done ++ (act.probeOf t).toList := by
  rw [callsOf, List.filterMap_append]
  cases h : act.probeOf t with
  | none => simp [callsOf, h]
  | some call => simp [callsOf, h]

theorem callsOf_sublist (t : ThreadID) (done : List Act) (act : Act) :
    (callsOf t done).Sublist (callsOf t (done ++ [act])) := by
  rw [callsOf_snoc]
  exact List.sublist_append_left _ _

theorem HistoryMade.mono (h : HistoryMade (callsOf t done) t history) (act : Act) :
    HistoryMade (callsOf t (done ++ [act])) t history :=
  ⟨h.thread_eq, h.sublist.trans (callsOf_sublist t done act)⟩

theorem BufferMade.mono (h : BufferMade done buffer) (act : Act) :
    BufferMade (done ++ [act]) buffer := by
  obtain ⟨t, threadId, report, hbuffer, hmade⟩ := h
  exact ⟨t, threadId, report, hbuffer, fun history heq => (hmade history heq).mono act⟩

theorem bufferMade_none (done : List Act) (threadId : Int32) :
    BufferMade done (reportBuffer threadId none) :=
  ⟨0, threadId, none, rfl, fun _ heq => nomatch heq⟩

/-- What a task pushes. -/
theorem BufferMade.of_report {thread : ThreadID} {task : Task}
    (hinHand : ∀ history, task.inHand = some history → HistoryMade (callsOf thread done) thread history) :
    ∀ buffer ∈ task.report, BufferMade done buffer := by
  intro buffer hbuffer
  cases task with
  | finishPush history threadId =>
      obtain rfl := List.mem_singleton.mp hbuffer
      refine ⟨thread, threadId, some history, rfl, fun history' heq => ?_⟩
      exact hinHand history' heq
  | _ => exact absurd hbuffer List.not_mem_nil

/-- A step behind which every thread has in hand what it had, apart from one. -/
theorem RecordsMade.move {done : List Act} {act : Act} {thread : ThreadID} {pc : Pc}
    (h : RecordsMade done w) (hpc : w'.pc = Function.update w.pc thread pc)
    (hothers : ∀ t ≠ thread, ∀ history, w'.profiler.trackedCoverage.lookup t = some (some history) →
      w.profiler.trackedCoverage.lookup t = some (some history))
    (htracked : ∀ history, w'.profiler.trackedCoverage.lookup thread = some (some history) →
      HistoryMade (callsOf thread (done ++ [act])) thread history)
    (hinHand : ∀ task, pc = .task task → ∀ history, task.inHand = some history →
      HistoryMade (callsOf thread (done ++ [act])) thread history)
    (hpending : ∀ task, pc = .task task → ∀ call, task.pending = some call →
      [call].Sublist (callsOf thread (done ++ [act])) ∧ ∀ history,
        w'.profiler.trackedCoverage.lookup thread = some (some history) →
        (history.records.map CoverageRecord.call ++ [call]).Sublist (callsOf thread (done ++ [act])))
    (hbuffers : ∀ buffer ∈ w'.profiler.serializedCoverage, BufferMade (done ++ [act]) buffer)
    (hpushed : ∀ buffer ∈ w'.pushed, BufferMade (done ++ [act]) buffer)
    (hresults : ∀ result ∈ w'.results, ∀ buffer ∈ result.reports, BufferMade (done ++ [act]) buffer) :
    RecordsMade (done ++ [act]) w' where
  tracked := by
    intro t history hlookup
    by_cases ht : t = thread
    · subst ht
      exact htracked history hlookup
    · exact (h.tracked t history (hothers t ht history hlookup)).mono act
  inHand := by
    intro t task htask
    rw [hpc] at htask
    by_cases ht : t = thread
    · subst ht
      rw [Function.update_self] at htask
      exact hinHand task htask
    · rw [Function.update_of_ne ht] at htask
      exact fun history heq => (h.inHand t task htask history heq).mono act
  pending := by
    intro t task htask call hcall
    rw [hpc] at htask
    by_cases ht : t = thread
    · subst ht
      rw [Function.update_self] at htask
      exact hpending task htask call hcall
    · rw [Function.update_of_ne ht] at htask
      obtain ⟨hone, hall⟩ := h.pending t task htask call hcall
      exact ⟨hone.trans (callsOf_sublist t done act), fun history hlookup =>
        (hall history (hothers t ht history hlookup)).trans (callsOf_sublist t done act)⟩
  buffers := hbuffers
  pushed := hpushed
  results := hresults

theorem RecordsMade.mono {done : List Act} (h : RecordsMade done w) (act : Act) :
    (∀ buffer ∈ w.profiler.serializedCoverage, BufferMade (done ++ [act]) buffer)
      ∧ (∀ buffer ∈ w.pushed, BufferMade (done ++ [act]) buffer)
      ∧ ∀ result ∈ w.results, ∀ buffer ∈ result.reports, BufferMade (done ++ [act]) buffer :=
  ⟨fun buffer hbuffer => (h.buffers buffer hbuffer).mono act,
    fun buffer hbuffer => (h.pushed buffer hbuffer).mono act,
    fun result hresult buffer hbuffer => (h.results result hresult buffer hbuffer).mono act⟩

theorem RecordsMade.crash {done : List Act} {act : Act} {task : Task} (h : RecordsMade done w) :
    RecordsMade (done ++ [act]) { w with crashed := some task } where
  tracked := fun t history hlookup => (h.tracked t history hlookup).mono act
  inHand := fun t task htask history heq => (h.inHand t task htask history heq).mono act
  pending := by
    intro t task htask call hcall
    obtain ⟨hone, hall⟩ := h.pending t task htask call hcall
    exact ⟨hone.trans (callsOf_sublist t done act), fun history hlookup =>
      (hall history hlookup).trans (callsOf_sublist t done act)⟩
  buffers := (h.mono _).1
  pushed := (h.mono _).2.1
  results := (h.mono _).2.2

/-- The first operation of a call. -/
theorem RecordsMade.call {done : List Act} {thread : ThreadID} {call : Call} (h : RecordsMade done w)
    (hpc : w'.pc = Function.update w.pc thread (call.start w.profiler thread).2)
    (htracked : w'.profiler.trackedCoverage = w.profiler.trackedCoverage)
    (hbuffers : w'.profiler.serializedCoverage = w.profiler.serializedCoverage)
    (hpushed : w'.pushed = w.pushed) (hresults : w'.results = w.results) :
    RecordsMade (done ++ [.call thread call]) w' := by
  obtain ⟨hbuffers', hpushed', hresults'⟩ := h.mono (.call thread call)
  refine h.move hpc (fun t _ history hlookup => htracked ▸ hlookup) (fun history hlookup => ?_)
    (fun task htask history heq => ?_) (fun task htask d hd => ?_) (hbuffers ▸ hbuffers')
    (hpushed ▸ hpushed') (hresults ▸ hresults')
  · exact (h.tracked thread history (htracked ▸ hlookup)).mono _
  · rw [(Call.start_task _ _ htask).1] at heq
    cases heq
  · obtain ⟨p, rfl⟩ := (Call.start_task _ _ htask).2.2 d hd
    have hcalls : callsOf thread (done ++ [.call thread (.probe p d.1 d.2)])
        = callsOf thread done ++ [d] := by
      rw [callsOf_snoc, Act.probeOf, if_pos rfl]
      rfl
    rw [hcalls]
    refine ⟨List.sublist_append_right _ _, fun history hlookup => ?_⟩
    rw [htracked] at hlookup
    exact (h.tracked thread history hlookup).sublist.append (List.Sublist.refl _)

/-- An operation of a collection. -/
theorem RecordsMade.collect {done : List Act} {thread : ThreadID} {next : Pc}
    (h : RecordsMade done w) (hpc : w'.pc = Function.update w.pc thread next)
    (hnext : ∀ task, next ≠ .task task)
    (htracked : w'.profiler.trackedCoverage = w.profiler.trackedCoverage
      ∨ w'.profiler.trackedCoverage = OrderedMap.empty)
    (hbuffers : w'.profiler.serializedCoverage = []
      ∨ ∃ ids : List Int32, w'.profiler.serializedCoverage
        = w.profiler.serializedCoverage ++ ids.map fun id => reportBuffer id none)
    (hpushed : w'.pushed = w.pushed) (hresults : w'.results = w.results
      ∨ ∃ found, w'.results = w.results ++ [⟨found, w.profiler.serializedCoverage⟩]) :
    RecordsMade (done ++ [.step thread]) w' := by
  obtain ⟨hbuffers', hpushed', hresults'⟩ := h.mono (.step thread)
  have hlookups : ∀ t history, w'.profiler.trackedCoverage.lookup t = some (some history) →
      w.profiler.trackedCoverage.lookup t = some (some history) := by
    intro t history hlookup
    rcases htracked with heq | heq
    · rwa [heq] at hlookup
    · rw [heq] at hlookup
      cases hlookup
  refine h.move hpc (fun t _ history hlookup => hlookups t history hlookup) (fun history hlookup =>
    (h.tracked thread history (hlookups thread history hlookup)).mono _)
    (fun task htask => absurd htask (hnext task)) (fun task htask => absurd htask (hnext task)) ?_
    (hpushed ▸ hpushed') ?_
  · intro buffer hbuffer
    rcases hbuffers with heq | ⟨ids, heq⟩
    · rw [heq] at hbuffer
      exact absurd hbuffer List.not_mem_nil
    · rw [heq] at hbuffer
      rcases List.mem_append.mp hbuffer with hold | hnew
      · exact hbuffers' buffer hold
      · obtain ⟨id, -, rfl⟩ := List.mem_map.mp hnew
        exact bufferMade_none _ id
  · rcases hresults with heq | ⟨found, heq⟩
    · exact heq ▸ hresults'
    · rw [heq]
      intro result hresult
      rcases List.mem_append.mp hresult with hold | hnew
      · exact hresults' result hold
      · obtain rfl := List.mem_singleton.mp hnew
        exact hbuffers'

/-- What a task has in hand, and the call that it is about to record. -/
structure TaskMade (calls : List (UInt32 × Int32)) (thread : ThreadID) (s : ProfilerState)
    (task : Task) : Prop where
  inHand : ∀ history, task.inHand = some history → HistoryMade calls thread history
  pending : ∀ call, task.pending = some call → [call].Sublist calls ∧ ∀ history,
    s.trackedCoverage.lookup thread = some (some history) →
    (history.records.map CoverageRecord.call ++ [call]).Sublist calls

section Effects

variable {calls : List (UInt32 × Int32)} {thread : ThreadID} {s s' : ProfilerState} {task : Task}
  {next : Option Task}

theorem TaskMade.of_none (h : task.inHand = none ∧ task.pending = none) :
    TaskMade calls thread s task := by
  refine ⟨fun history heq => ?_, fun call heq => ?_⟩
  · rw [h.1] at heq
    cases heq
  · rw [h.2] at heq
    cases heq

theorem AfterAdd.task_none {after : AfterAdd} (heq : after.task = some task) :
    task.inHand = none ∧ task.pending = none := by
  cases after <;> cases heq <;> exact ⟨rfl, rfl⟩

/-- What an operation does to histories keeps what the calls of its thread allow. -/
theorem HistoryEffect.made (heffect : HistoryEffect s s' thread task next)
    (hown : ∀ history, s.trackedCoverage.lookup thread = some (some history) →
      HistoryMade calls thread history) (hmade : TaskMade calls thread s task) :
    (∀ t ≠ thread, s'.trackedCoverage.lookup t = s.trackedCoverage.lookup t)
      ∧ (∀ history, s'.trackedCoverage.lookup thread = some (some history) →
        HistoryMade calls thread history)
      ∧ ∀ t, next = some t → TaskMade calls thread s' t := by
  cases heffect with
  | keeps htracked hpending hinHand _ =>
      refine ⟨fun t _ => by rw [htracked], fun history hlookup => hown history (htracked ▸ hlookup),
        fun t heq => ?_⟩
      subst heq
      refine ⟨fun history heq => hmade.inHand history (hinHand.symm.trans heq), fun call heq => ?_⟩
      rw [htracked]
      exact hmade.pending call (hpending.symm.trans heq)
  | tests htracked hnext =>
      refine ⟨fun t _ => by rw [htracked], fun history hlookup => hown history (htracked ▸ hlookup),
        fun t heq => ?_⟩
      obtain rfl := Option.some.inj heq
      rcases hnext with ⟨rfl, -⟩ | rfl
      · exact ⟨(fun _ heq => nomatch heq), htracked ▸ hmade.pending⟩
      · exact ⟨(fun _ heq => nomatch heq), htracked ▸ hmade.pending⟩
  | @stores offset methodId after htracked =>
      refine ⟨fun t ht => ?_, fun history hlookup => ?_, fun t heq => .of_none (AfterAdd.task_none heq)⟩
      · rw [htracked, OrderedMap.lookup_insert_of_ne _ _ ht]
      · rw [htracked, OrderedMap.lookup_insert_self] at hlookup
        obtain rfl := Option.some.inj (Option.some.inj hlookup)
        refine ⟨fun record hrecord => ?_, (hmade.pending (offset, methodId) rfl).1⟩
        rw [List.mem_singleton.mp hrecord]
  | @appends offset event methodId after history hload htracked =>
      refine ⟨fun t ht => ?_, fun history' hlookup => ?_, fun t heq => .of_none (AfterAdd.task_none heq)⟩
      · rw [htracked, OrderedMap.lookup_insert_of_ne _ _ ht]
      · rw [htracked, OrderedMap.lookup_insert_self] at hlookup
        obtain rfl := Option.some.inj (Option.some.inj hlookup)
        refine ⟨fun record hrecord => ?_, ?_⟩
        · rcases List.mem_append.mp hrecord with hold | hnew
          · exact (hown history hload).thread_eq record hold
          · rw [List.mem_singleton.mp hnew]
        · rw [CoverageHistory.addCoverage, List.map_append]
          exact (hmade.pending (offset, methodId) rfl).2 history hload
  | aborts htracked =>
      refine ⟨fun t ht => ?_, fun history hlookup => ?_, fun t heq => ?_⟩
      · rw [htracked, OrderedMap.lookup_insert_of_ne _ _ ht]
      · rw [htracked, OrderedMap.lookup_insert_self] at hlookup
        cases hlookup
      · cases heq
        exact .of_none ⟨rfl, rfl⟩
  | loads htracked =>
      refine ⟨fun t _ => by rw [htracked], fun history hlookup => hown history (htracked ▸ hlookup),
        fun t heq => ?_⟩
      cases heq
      exact ⟨fun history heq => hown history (load_eq_some heq), fun call heq => nomatch heq⟩
  | removes htracked =>
      refine ⟨fun t ht => ?_, fun history hlookup => ?_, fun t heq => ?_⟩
      · rw [htracked, OrderedMap.lookup_erase_of_ne _ ht]
      · rw [htracked, OrderedMap.lookup_erase_self] at hlookup
        cases hlookup
      · cases heq
        exact ⟨hmade.inHand, fun call heq => nomatch heq⟩
  | pushes htracked =>
      refine ⟨fun t _ => by rw [htracked], fun history hlookup => hown history (htracked ▸ hlookup),
        fun t heq => ?_⟩
      cases heq
      exact .of_none ⟨rfl, rfl⟩

end Effects

/-- An operation of a thread. -/
theorem RecordsMade.work {done : List Act} {thread : ThreadID} {task : Task} {next : Option Task}
    (h : RecordsMade done w) (htask : w.pc thread = .task task)
    (hpc : w'.pc = Function.update w.pc thread (.ofTask next))
    (heffect : HistoryEffect w.profiler w'.profiler thread task next)
    (hbuffers : w'.profiler.serializedCoverage = w.profiler.serializedCoverage ++ task.report)
    (hpushed : w'.pushed = w.pushed ++ task.report) (hresults : w'.results = w.results) :
    RecordsMade (done ++ [.step thread]) w' := by
  have hcalls : callsOf thread (done ++ [.step thread]) = callsOf thread done := by
    rw [callsOf_snoc]
    exact List.append_nil _
  obtain ⟨hbuffers', hpushed', hresults'⟩ := h.mono (.step thread)
  have hreport : ∀ buffer ∈ task.report, BufferMade (done ++ [.step thread]) buffer := fun buffer hbuffer =>
    (BufferMade.of_report (h.inHand thread task htask) buffer hbuffer).mono _
  have hpcs : ∀ t, Pc.ofTask next = .task t → next = some t := by
    intro t heq
    cases next with
    | none => cases heq
    | some t' =>
        cases heq
        rfl
  obtain ⟨hothers, htracked, hnext⟩ := heffect.made (h.tracked thread)
    ⟨h.inHand thread task htask, h.pending thread task htask⟩
  refine h.move hpc (fun t ht history hlookup => hothers t ht ▸ hlookup) (hcalls ▸ htracked)
    (fun t heq => hcalls ▸ (hnext t (hpcs t heq)).inHand)
    (fun t heq => hcalls ▸ (hnext t (hpcs t heq)).pending) ?_ ?_ (hresults ▸ hresults')
  · rw [hbuffers]
    exact fun buffer hbuffer => (List.mem_append.mp hbuffer).elim (hbuffers' buffer) (hreport buffer)
  · rw [hpushed]
    exact fun buffer hbuffer => (List.mem_append.mp hbuffer).elim (hpushed' buffer) (hreport buffer)

theorem RecordsMade.step {done : List Act} (h : RecordsMade done w) (hstep : w.step act = some w') :
    RecordsMade (done ++ [act]) w' := by
  cases World.step_effect hstep with
  | crashes hw =>
      rw [hw]
      exact h.crash
  | calls _ hpc htracked hbuffers hpushed hresults =>
      exact h.call hpc htracked hbuffers hpushed hresults
  | works htask hpc heffect hbuffers hpushed hresults =>
      exact h.work htask hpc heffect hbuffers hpushed hresults
  | collects _ hpc hnext htracked hbuffers hpushed hresults =>
      exact h.collect hpc hnext (htracked.imp_right And.right) hbuffers hpushed hresults

end Made

theorem recordsMade_init (isPassiveRun collectMainOnly : Bool) :
    RecordsMade [] (.init isPassiveRun collectMainOnly) where
  tracked := fun _ _ hlookup => nomatch hlookup
  inHand := fun _ _ htask => nomatch htask
  pending := fun _ _ htask => nomatch htask
  buffers := fun _ hbuffer => absurd hbuffer List.not_mem_nil
  pushed := fun _ hbuffer => absurd hbuffer List.not_mem_nil
  results := fun _ hresult => absurd hresult List.not_mem_nil

theorem recordsMade_run {isPassiveRun collectMainOnly : Bool} {acts : List Act}
    (hrun : run World.step (.init isPassiveRun collectMainOnly) acts = some w) : RecordsMade acts w :=
  run_invariant_behind (fun _ _ _ _ h hstep => h.step hstep)
    (recordsMade_init isPassiveRun collectMainOnly) hrun

/-- **Every record was called for.**  Whatever the threads do, in whatever order, with exceptions,
aborts and collections at any time: the records of a report are calls of probes that one thread has
made, in the order in which it has made them, and no call has two records. -/
theorem records_made (isPassiveRun collectMainOnly : Bool) (acts : List Act) (w : World)
    (hrun : run World.step (.init isPassiveRun collectMainOnly) acts = some w) :
    (∀ buffer ∈ w.pushed, BufferMade acts buffer)
      ∧ ∀ result ∈ w.results, ∀ buffer ∈ result.reports, BufferMade acts buffer :=
  ⟨(recordsMade_run hrun).pushed, (recordsMade_run hrun).results⟩

/-- The main method runs on one thread while another one collects. -/
def mainAndCollection : List Act :=
  .call 1 (.probe .enterMain 0 0) :: (List.replicate 5 (.step 1)
    ++ .call 1 (.probe .leaveMain 4 0) :: (List.replicate 12 (.step 1)
    ++ .call 2 .getHistory :: List.replicate 8 (.step 2)))

theorem records_made_main : ∃ w, run World.step (.init false true) mainAndCollection = some w
    ∧ w.pushed.length = 1 ∧ ∀ buffer ∈ w.pushed, BufferMade mainAndCollection buffer := by
  have hlength : (run World.step (.init false true) mainAndCollection).map
      (fun w => w.pushed.length) = some 1 := by decide +kernel
  obtain ⟨w, hrun, hlength⟩ := Option.map_eq_some_iff.mp hlength
  exact ⟨w, hrun, hlength, (records_made false true mainAndCollection w hrun).1⟩

/-! ### What is called for is recorded -/

def HasRecord (t : ThreadID) (call : UInt32 × Int32) (history : CoverageHistory) : Prop :=
  ∃ record ∈ history.records, record.thread = t ∧ record.call = call

/-- The history of a thread is neither cleared nor aborted. -/
def KeepsHistory (t : ThreadID) (w : World) : Act → Prop
  | .call _ _ => True
  | .step thread => w.pc thread ≠ .history .clearTracked ∧ w.pc thread ≠ .history .clearCoverage
      ∧ (thread = t → w.pc thread ≠ .task .abort)

instance (t : ThreadID) (w : World) : ∀ act, Decidable (KeepsHistory t w act)
  | .call _ _ => isTrue trivial
  | .step _ => by
      unfold KeepsHistory
      infer_instance

/-- A report of the thread has a record of the call. -/
def InReport (w : World) (t : ThreadID) (call : UInt32 × Int32) : Prop :=
  ∃ threadId history, reportBuffer threadId (some history) ∈ w.pushed ∧ HasRecord t call history

/-- A call of a thread that is going to be recorded, or has been: in its history, or in the history that
it has in hand. -/
inductive Holds (w : World) (t : ThreadID) (call : UInt32 × Int32) : Prop
  | pending {task : Task} (htask : w.pc t = .task task) (hpending : task.pending = some call)
  | inHand {task : Task} {history : CoverageHistory} (htask : w.pc t = .task task)
      (hinHand : task.inHand = some history) (h : HasRecord t call history)
  | tracked {history : CoverageHistory}
      (hlookup : w.profiler.trackedCoverage.lookup t = some (some history))
      (h : HasRecord t call history)
      (htask : ∀ task, w.pc t = .task task → task.inHand = none ∧ ¬task.IsStore)

/-- Or it is in a report. -/
inductive Kept (w : World) (t : ThreadID) (call : UInt32 × Int32) : Prop
  | pushed (h : InReport w t call)
  | holds (h : Holds w t call)

section Kept

variable {t : ThreadID} {call : UInt32 × Int32} {history : CoverageHistory}

/-- A step that leaves a thread and its history alone. -/
theorem Holds.of_same (h : Holds w t call) (hpc : w'.pc t = w.pc t)
    (htracked : w'.profiler.trackedCoverage.lookup t = w.profiler.trackedCoverage.lookup t) :
    Holds w' t call := by
  cases h with
  | pending htask hpending => exact .pending (hpc.trans htask) hpending
  | inHand htask hinHand h => exact .inHand (hpc.trans htask) hinHand h
  | tracked hlookup h htask =>
      exact .tracked (htracked.trans hlookup) h fun task heq => htask task (hpc.symm.trans heq)

theorem HasRecord.addCoverage (h : HasRecord t call history) (offset : UInt32) (event : CoverageEvent)
    (methodId : Int32) : HasRecord t call (history.addCoverage t offset event methodId) := by
  obtain ⟨record, hrecord, hcall⟩ := h
  exact ⟨record, List.mem_append_left _ hrecord, hcall⟩

/-- The thread has just pushed a report with a record of the call. -/
def Pushes (w w' : World) (t : ThreadID) (call : UInt32 × Int32) : Prop :=
  ∃ history threadId, w.pc t = .task (.finishPush history threadId) ∧ HasRecord t call history
    ∧ w'.pc t = .task .finishBalances ∧ w'.pushed = w.pushed ++ [reportBuffer threadId (some history)]

theorem Pushes.inReport (h : Pushes w w' t call) : InReport w' t call := by
  obtain ⟨history, threadId, -, hrecord, -, hpushed⟩ := h
  exact ⟨threadId, history, hpushed ▸ List.mem_append_right _ (List.mem_singleton_self _), hrecord⟩

/-- An operation of the thread itself. -/
theorem Holds.work {task : Task} {next : Option Task} (h : Holds w t call)
    (hpcw : w.pc t = .task task) (habort : task ≠ .abort)
    (hpc : w'.pc = Function.update w.pc t (.ofTask next))
    (heffect : HistoryEffect w.profiler w'.profiler t task next)
    (hpushed : w'.pushed = w.pushed ++ task.report) : Holds w' t call ∨ Pushes w w' t call := by
  have hnow : ∀ {n : Task}, next = some n → w'.pc t = .task n := by
    rintro n rfl
    rw [hpc, Function.update_self]
    rfl
  have hthen : ∀ {n : Task}, w'.pc t = .task n → next = some n := by
    intro n heq
    rw [hpc, Function.update_self] at heq
    cases next with
    | none => cases heq
    | some n' =>
        cases heq
        rfl
  have htask : ∀ {n : Task}, w.pc t = .task n → task = n := fun heq => Pc.task.inj (hpcw.symm.trans heq)
  -- what an added record is followed by has nothing in hand
  have hafter : ∀ {after : AfterAdd}, next = after.task → ∀ n, w'.pc t = .task n →
      n.inHand = none ∧ ¬n.IsStore := by
    intro after heq n hn
    have hn := heq.symm.trans (hthen hn)
    cases after <;> cases hn <;> exact ⟨rfl, id⟩
  cases h with
  | pending hpc' hpending =>
      obtain rfl := htask hpc'
      left
      cases heffect with
      | @keeps _ next _ hnext _ _ =>
          obtain ⟨n, rfl, hn⟩ := Option.bind_eq_some_iff.mp (hnext.trans hpending)
          exact .pending (hnow rfl) hn
      | tests _ hnext =>
          rcases hnext with ⟨rfl, -⟩ | rfl
          · exact .pending (hnow rfl) hpending
          · exact .pending (hnow rfl) hpending
      | @stores offset methodId after htracked =>
          refine .tracked (htracked ▸ OrderedMap.lookup_insert_self _ _ _) ?_ (hafter rfl)
          exact ⟨_, List.mem_singleton_self _, rfl, Option.some.inj hpending⟩
      | appends _ htracked =>
          refine .tracked (htracked ▸ OrderedMap.lookup_insert_self _ _ _) ?_ (hafter rfl)
          exact ⟨_, List.mem_append_right _ (List.mem_singleton_self _), rfl, Option.some.inj hpending⟩
      | aborts _ => exact absurd rfl habort
      | loads _ | removes _ | pushes _ => cases hpending
  | inHand hpc' hinHand h =>
      obtain rfl := htask hpc'
      cases heffect with
      | @keeps _ next _ _ hnext _ =>
          obtain ⟨n, rfl, hn⟩ := Option.bind_eq_some_iff.mp (hnext.trans hinHand)
          exact Or.inl (.inHand (hnow rfl) hn h)
      | tests _ _ | stores _ | appends _ _ | aborts _ | loads _ => cases hinHand
      | removes _ => exact Or.inl (.inHand (hnow rfl) hinHand h)
      | @pushes history' threadId _ =>
          obtain rfl := Option.some.inj hinHand
          exact Or.inr ⟨_, threadId, hpcw, h, hnow rfl, hpushed⟩
  | @tracked history hlookup h hnone =>
      left
      obtain ⟨hinHand, hstore⟩ := hnone task hpcw
      cases heffect with
      | keeps htracked _ hnext hnostore =>
          refine .tracked (htracked ▸ hlookup) h fun n hn => ?_
          obtain rfl := hthen hn
          exact ⟨hnext.trans hinHand, hnostore n rfl⟩
      | tests htracked hnext =>
          refine .tracked (htracked ▸ hlookup) h fun n hn => ?_
          obtain rfl := Option.some.inj (hthen hn)
          rcases hnext with ⟨-, habsent⟩ | rfl
          · rw [hlookup] at habsent
            cases habsent
          · exact ⟨rfl, id⟩
      | stores _ => exact absurd trivial hstore
      | @appends offset event methodId _ history' hload htracked =>
          obtain rfl := Option.some.inj (Option.some.inj (hlookup.symm.trans hload))
          exact .tracked (htracked ▸ OrderedMap.lookup_insert_self _ _ _)
            (h.addCoverage offset event methodId) (hafter rfl)
      | aborts _ => exact absurd rfl habort
      | loads htracked =>
          exact .inHand (hnow rfl) (ThreadStorage.load_of_lookup hlookup) h
      | removes _ | pushes _ => cases hinHand

/-- A step that keeps the history keeps the record, until the report is pushed. -/
theorem Holds.step (h : Holds w t call) (hkeeps : KeepsHistory t w act) (hstep : w.step act = some w') :
    Holds w' t call ∨ (act = .step t ∧ Pushes w w' t call) := by
  cases World.step_effect hstep with
  | crashes hw =>
      rw [hw]
      exact Or.inl (h.of_same rfl rfl)
  | @calls thread c hidle hpc htracked _ hpushed _ =>
      left
      by_cases ht : t = thread
      · subst ht
        cases h with
        | pending htask hpending => exact nomatch hidle.symm.trans htask
        | inHand htask hinHand h => exact nomatch hidle.symm.trans htask
        | tracked hlookup h _ =>
            refine .tracked (htracked ▸ hlookup) h fun task htask => ?_
            rw [hpc, Function.update_self] at htask
            obtain ⟨hinHand, hstore, -⟩ := Call.start_task _ _ htask
            exact ⟨hinHand, hstore⟩
      · refine h.of_same ?_ (by rw [htracked])
        rw [hpc, Function.update_of_ne ht]
  | @works thread task next htask hpc heffect _ hpushed _ =>
      by_cases ht : t = thread
      · subst ht
        refine (h.work htask ?_ hpc heffect hpushed).imp id fun hpushes => ⟨rfl, hpushes⟩
        rintro rfl
        exact hkeeps.2.2 rfl htask
      · refine Or.inl (h.of_same ?_ (heffect.others ht))
        rw [hpc, Function.update_of_ne ht]
  | @collects thread pc next hhistory hpc hnext htracked _ hpushed _ =>
      left
      have hkept : w'.profiler.trackedCoverage = w.profiler.trackedCoverage := by
        rcases htracked with heq | ⟨rfl | rfl, -⟩
        · exact heq
        · exact absurd hhistory hkeeps.1
        · exact absurd hhistory hkeeps.2.1
      by_cases ht : t = thread
      · subst ht
        cases h with
        | pending htask hpending => exact nomatch hhistory.symm.trans htask
        | inHand htask hinHand h => exact nomatch hhistory.symm.trans htask
        | tracked hlookup h _ =>
            refine .tracked (hkept ▸ hlookup) h fun task htask => ?_
            rw [hpc, Function.update_self] at htask
            exact absurd htask (hnext task)
      · refine h.of_same ?_ (by rw [hkept])
        rw [hpc, Function.update_of_ne ht]

/-- A report that was pushed stays so. -/
theorem InReport.step (h : InReport w t call) (hstep : w.step act = some w') : InReport w' t call := by
  obtain ⟨threadId, history, hbuffer, hrecord⟩ := h
  refine ⟨threadId, history, ?_, hrecord⟩
  cases World.step_effect hstep with
  | crashes hw => exact hw ▸ hbuffer
  | calls _ _ _ _ hpushed _ | collects _ _ _ _ _ hpushed _ => exact hpushed ▸ hbuffer
  | works _ _ _ _ hpushed _ => exact hpushed ▸ List.mem_append_left _ hbuffer

theorem InReport.run {acts : List Act} (h : InReport w t call) (hrun : run World.step w acts = some w') :
    InReport w' t call :=
  run_invariant (I := fun w => InReport w t call) (fun _ _ _ h hstep => h.step hstep) h hrun

theorem Kept.step (h : Kept w t call) (hkeeps : KeepsHistory t w act) (hstep : w.step act = some w') :
    Kept w' t call := by
  cases h with
  | pushed h => exact .pushed (h.step hstep)
  | holds h => exact (h.step hkeeps hstep).elim .holds fun hpushes => .pushed hpushes.2.inReport

theorem Kept.run {acts : List Act} : ∀ {w w' : World}, Kept w t call →
    Along World.step (KeepsHistory t) w acts → run World.step w acts = some w' → Kept w' t call := by
  intro w w' h hkeeps hrun
  exact (always_of_along (I := fun w => Kept w t call) (Q := fun w => Kept w t call)
    (fun _ h => h) (fun _ _ _ h hkeeps hstep => h.step hkeeps hstep) h hkeeps).behind hrun

end Kept

/-- A probe leaves a record on a tracked thread, unless it is for another method than the main one and
only the main one is collected; the one at the entry of the main method, on any other thread. -/
def ProfilerState.Records (s : ProfilerState) (t : ThreadID) : Probe → Prop
  | .enterMain => s.isCurrentThreadTracked t = false
  | .enter | .leave => s.isCurrentThreadTracked t = true ∧ s.collectMainOnly = false
  | _ => s.isCurrentThreadTracked t = true

instance (s : ProfilerState) (t : ThreadID) : ∀ p, Decidable (s.Records t p)
  | .enter | .leave => inferInstanceAs (Decidable (_ ∧ _))
  | .enterMain | .leaveMain | .coverage | .branch | .call | .tailcall | .stsfld | .throw =>
      inferInstanceAs (Decidable (_ = _))

theorem ProfilerState.Records.exists_task {t : ThreadID} {p : Probe} (h : s.Records t p)
    (offset : UInt32) (methodId : Int32) :
    ∃ task, probeTask s (s.isCurrentThreadTracked t) offset methodId p = some task
      ∧ task.pending = some (offset, methodId) := by
  cases p with
  | enter | leave =>
      obtain ⟨htracked, hall⟩ := h
      rw [htracked, probeTask, hall]
      exact ⟨_, rfl, rfl⟩
  | _ =>
      rw [show s.isCurrentThreadTracked t = _ from h]
      exact ⟨_, rfl, rfl⟩

/-- Its call is going to be recorded. -/
theorem Holds.of_call {t : ThreadID} {p : Probe} {offset : UInt32} {methodId : Int32}
    (hrecords : w.profiler.Records t p)
    (hstep : w.step (.call t (.probe p offset methodId)) = some w') : Holds w' t (offset, methodId) := by
  obtain ⟨task, htask, hpending⟩ := hrecords.exists_task offset methodId
  cases World.step_effect hstep with
  | calls _ hpc _ _ _ _ =>
      refine .pending ?_ hpending
      rw [hpc, Function.update_self, Call.start, htask]
      rfl

/-- A thread makes a call that leaves a record, in a schedule in which it finishes later, and in which
its history stays until then. -/
def RecordedCall (isPassiveRun collectMainOnly : Bool) (acts : List Act) (t : ThreadID) (p : Probe)
    (offset : UInt32) (methodId : Int32) : Prop :=
  ∃ before during after w₀ w₁,
    acts = before ++ (.call t (.probe p offset methodId) :: during) ++ after
      ∧ run World.step (.init isPassiveRun collectMainOnly) before = some w₀
      ∧ w₀.profiler.Records t p
      ∧ run World.step w₀ (.call t (.probe p offset methodId) :: during) = some w₁
      ∧ Along World.step (KeepsHistory t) w₀ (.call t (.probe p offset methodId) :: during)
      ∧ w₁.pc t = .idle ∧ w₁.profiler.trackedCoverage.lookup t = none

/-- A call at a place of the schedule, from which on the thread finishes within some steps. -/
theorem RecordedCall.of_getElem? {isPassiveRun collectMainOnly : Bool} {acts : List Act}
    {t : ThreadID} {p : Probe} {offset : UInt32} {methodId : Int32} (n k : ℕ)
    (hact : acts[n]? = some (.call t (.probe p offset methodId)))
    (h : ∃ w₀ ∈ run World.step (.init isPassiveRun collectMainOnly) (acts.take n),
      w₀.profiler.Records t p ∧ Along World.step (KeepsHistory t) w₀ ((acts.drop n).take (k + 1))
        ∧ ∃ w₁ ∈ run World.step w₀ ((acts.drop n).take (k + 1)),
          w₁.pc t = .idle ∧ w₁.profiler.trackedCoverage.lookup t = none) :
    RecordedCall isPassiveRun collectMainOnly acts t p offset methodId := by
  obtain ⟨w₀, hbefore, hrecords, hkeeps, w₁, hduring, hidle, hfinished⟩ := h
  obtain ⟨hlt, hget⟩ := List.getElem?_eq_some_iff.mp hact
  have hdrop : acts.drop n = .call t (.probe p offset methodId) :: acts.drop (n + 1) := by
    rw [List.drop_eq_getElem_cons hlt, hget]
  rw [hdrop, List.take_succ_cons] at hkeeps hduring
  refine ⟨acts.take n, (acts.drop (n + 1)).take k, (acts.drop (n + 1)).drop k, w₀, w₁, ?_, hbefore,
    hrecords, hduring, hkeeps, hidle, hfinished⟩
  rw [List.append_assoc, List.cons_append, List.take_append_drop, ← hdrop, List.take_append_drop]

/-- A recorded call is in a report. -/
theorem RecordedCall.inReport {isPassiveRun collectMainOnly : Bool} {acts : List Act} {t : ThreadID}
    {p : Probe} {offset : UInt32} {methodId : Int32}
    (h : RecordedCall isPassiveRun collectMainOnly acts t p offset methodId)
    (hrun : run World.step (.init isPassiveRun collectMainOnly) acts = some w) :
    InReport w t (offset, methodId) := by
  obtain ⟨before, during, after, w₀, w₁, rfl, hbefore, hrecords, hduring, hkeeps, hidle, hfinished⟩ := h
  rw [run_append, run_append, hbefore, Option.bind_some, hduring, Option.bind_some] at hrun
  rw [run_cons] at hduring
  obtain ⟨w, hstep, hduring⟩ := Option.bind_eq_some_iff.mp hduring
  cases (Kept.holds (Holds.of_call hrecords hstep)).run (hkeeps.2 w hstep) hduring with
  | pushed h => exact h.run hrun
  | holds h =>
      cases h with
      | pending htask _ | inHand htask _ _ => exact nomatch hidle.symm.trans htask
      | tracked hlookup _ _ => exact nomatch hfinished.symm.trans hlookup

/-- **What is called for is recorded, and delivered once.**  Whatever other threads do in between, in
whatever order: when a thread has made a call that leaves a record, and has finished while its history
was there, then the record is in one of the reports that were pushed, which are those that the
collections have delivered and behind them those that are pending. -/
theorem records_kept {isPassiveRun collectMainOnly : Bool} {acts : List Act} {t : ThreadID}
    {p : Probe} {offset : UInt32} {methodId : Int32}
    (h : RecordedCall isPassiveRun collectMainOnly acts t p offset methodId)
    (hrun : run World.step (.init isPassiveRun collectMainOnly) acts = some w) :
    ∃ threadId history, reportBuffer threadId (some history) ∈ w.delivered ++ w.pending
      ∧ HasRecord t (offset, methodId) history := by
  have hdelivers : Delivers w := run_invariant (fun _ _ _ h hstep => h.step hstep)
    ⟨locked_init isPassiveRun collectMainOnly, rfl⟩ hrun
  rw [hdelivers.all_eq]
  exact h.inReport hrun

/-- The call at the end of the main method, in front of the collection. -/
theorem records_kept_leaveMain : ∃ w, run World.step (.init false true) mainAndCollection = some w
    ∧ ∃ threadId history, reportBuffer threadId (some history) ∈ w.delivered ++ w.pending
      ∧ HasRecord 1 (4, 0) history := by
  have hrecorded : RecordedCall false true mainAndCollection 1 .leaveMain 4 0 :=
    .of_getElem? 6 12 rfl (by decide +kernel)
  have hdone : (run World.step (.init false true) mainAndCollection).isSome = true := by
    decide +kernel
  obtain ⟨w, hrun⟩ := Option.isSome_iff_exists.mp hdone
  exact ⟨w, hrun, records_kept hrecorded hrun⟩

end TestExecutor
