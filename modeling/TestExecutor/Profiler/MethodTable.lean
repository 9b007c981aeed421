import TestExecutor.Coverage.RoundTrip
import TestExecutor.Profiler.Mutexes

/-!
# Reports and their method table

`serializeCoverageReport` writes the collected methods that were visited, and then the reports.  The
methods of an invocation count as visited in one step of its thread, its buffer is pushed in a later
one, and other threads collect, probe and serialize in between.

* `reportIds`, `TableCloses` — the method ids of a report; a table that has them all;
* `IsCollected`, `CarriesCollected` — the ids that `collectMethod` has returned, and probes that
  carry them;
* `HistoryClosed`, `TaskClosed`, `TableBuilt`, `PcClosed`, `TablesClose` — where ids can be;
* `TableBuilt.round`, `TableBuilt.closes` — the loop over the collected methods;
* `Task.step_closed` — the operations of a thread carry collected ids on.
-/

namespace TestExecutor

open TestExecutor.Library ProfilerState

/-! ### Tables and reports -/

/-- The method ids in the records of a report. -/
def reportIds (report : Int32 × Option CoverageHistory) : List Int32 :=
  (report.2.elim [] CoverageHistory.records).map CoverageRecord.methodId

def reportedIds (reports : List (Int32 × Option CoverageHistory)) : List Int32 :=
  reports.flatMap reportIds

/-- The result holds these reports, and every method id in them is a key of its table; the key
stands for the method that was collected at that index. -/
structure TableCloses (collected : List MethodInfo) (result : HistoryResult)
    (reports : List (Int32 × Option CoverageHistory)) : Prop where
  reports_eq : result.reports = reportBuffers reports
  keys_nodup : (result.methods.map Prod.fst).Nodup
  closed : ∀ id ∈ reportedIds reports, ∃ (i : ℕ) (info : MethodInfo),
    id.toInt = i ∧ collected[i]? = some info ∧ (id, info) ∈ result.methods

theorem getElem?_of_prefix {xs ys : List MethodInfo} (h : xs <+: ys) {i : ℕ} {info : MethodInfo}
    (hget : xs[i]? = some info) : ys[i]? = some info := by
  obtain ⟨zs, rfl⟩ := h
  rw [List.getElem?_append_left (List.getElem?_eq_some_iff.mp hget).1]
  exact hget

theorem TableCloses.mono {collected collected' : List MethodInfo} {result : HistoryResult}
    {reports : List (Int32 × Option CoverageHistory)} (h : TableCloses collected result reports)
    (hgrown : collected <+: collected') : TableCloses collected' result reports where
  reports_eq := h.reports_eq
  keys_nodup := h.keys_nodup
  closed := by
    intro id hid
    obtain ⟨i, info, hi, hget, hmem⟩ := h.closed id hid
    exact ⟨i, info, hi, getElem?_of_prefix hgrown hget, hmem⟩

/-- The id of a probe. -/
def Act.probeId : Act → Option Int32
  | .call _ (.probe _ _ methodId) => some methodId
  | _ => none

/-- The method that a call collects. -/
def Act.collected : Act → Option MethodInfo
  | .call _ (.collectMethod info) => some info
  | _ => none

/-! ### Where ids can be -/

/-- The id is one that `collectMethod` has returned. -/
def IsCollected (s : ProfilerState) (id : Int32) : Prop :=
  ∃ i < s.collectedMethods.length, id.toInt = (i : ℕ)

/-- A probe carries an id that `collectMethod` has returned. -/
def CarriesCollected (w : World) (act : Act) : Prop :=
  ∀ methodId, act.probeId = some methodId → IsCollected w.profiler methodId

/-- A history knows the methods of its records, and they were collected. -/
structure HistoryClosed (s : ProfilerState) (history : CoverageHistory) : Prop where
  records : ∀ record ∈ history.records, record.methodId ∈ history.visitedMethods
  collected : ∀ id ∈ history.visitedMethods, IsCollected s id

/-- The tracked histories carry collected ids only. -/
def TrackedClosed (s : ProfilerState) : Prop :=
  ∀ t history, s.trackedCoverage.lookup t = some (some history) → HistoryClosed s history

/-- The ids that a thread has in hand were collected; behind `finishVisit` they count as visited. -/
def TaskClosed (s : ProfilerState) : Task → Prop
  | .tailcallDown _ methodId | .trackBalances _ methodId | .trackFilters _ methodId
  | .trackUp _ methodId | .add _ _ methodId _ | .addStore _ methodId _
  | .addLoad _ _ methodId _ => IsCollected s methodId
  | .finishMapping coverage | .finishMappedId coverage | .finishVisit coverage _ =>
      ∀ history, coverage = some history → HistoryClosed s history
  | .finishRemove history _ | .finishPush history _ =>
      HistoryClosed s history ∧ history.visitedMethods ⊆ s.visitedMethods
  | _ => True

/-- The table that the loop has built in front of an index. -/
structure TableBuilt (s : ProfilerState) (ids : List Int32) (i : ℕ)
    (found : List (Int32 × MethodInfo)) : Prop where
  sound : ∀ el ∈ found, ∃ j < i, el.1.toInt = (j : ℕ) ∧ s.collectedMethods[j]? = some el.2
  keys_nodup : (found.map Prod.fst).Nodup
  complete : ∀ id ∈ ids, id.toInt < i → id ∈ found.map Prod.fst

def PcClosed (s : ProfilerState) (ids : List Int32) : Pc → Prop
  | .task task => TaskClosed s task
  | .history (.methods i found) => TableBuilt s ids i found
  | .history (.mapping found) | .history (.notEntered found _) | .history (.serialize found) =>
      ∃ i : ℕ, TableBuilt s ids i found ∧ ∀ id ∈ ids, id.toInt < i
  | _ => True

/-- All histories, buffers and results carry collected ids only; those in a buffer count as visited,
and no table that is under way misses one of them. -/
structure TablesClose (w : World) (reports : List (Int32 × Option CoverageHistory)) : Prop where
  locked : Locked w
  tracked : TrackedClosed w.profiler
  pcs : ∀ t, PcClosed w.profiler (reportedIds reports) (w.pc t)
  reports_eq : w.profiler.serializedCoverage = reportBuffers reports
  visited : ∀ id ∈ reportedIds reports,
    IsCollected w.profiler id ∧ id ∈ w.profiler.visitedMethods
  results : ∀ result ∈ w.results, ∃ reported,
    TableCloses w.profiler.collectedMethods result reported

/-! ### More methods -/

/-- Methods are added and visited, never removed. -/
structure Grows (s s' : ProfilerState) : Prop where
  collected : s.collectedMethods <+: s'.collectedMethods
  visited : s.visitedMethods ⊆ s'.visitedMethods

variable {s s' : ProfilerState} {thread : ThreadID} {task : Task} {next : Option Task}

theorem Grows.of_eq (hcollected : s'.collectedMethods = s.collectedMethods)
    (hvisited : s'.visitedMethods = s.visitedMethods) : Grows s s' := by
  refine ⟨?_, ?_⟩
  · rw [hcollected]
  · rw [hvisited]

theorem IsCollected.mono {id : Int32} (h : IsCollected s id) (hgrows : Grows s s') :
    IsCollected s' id := by
  obtain ⟨i, hlt, hid⟩ := h
  exact ⟨i, hlt.trans_le hgrows.collected.length_le, hid⟩

theorem HistoryClosed.mono {history : CoverageHistory} (h : HistoryClosed s history)
    (hgrows : Grows s s') : HistoryClosed s' history :=
  ⟨h.records, fun id hid => (h.collected id hid).mono hgrows⟩

theorem TaskClosed.mono (h : TaskClosed s task) (hgrows : Grows s s') : TaskClosed s' task := by
  cases task with
  | finishMapping coverage => exact fun history heq => (h history heq).mono hgrows
  | finishMappedId coverage => exact fun history heq => (h history heq).mono hgrows
  | finishVisit coverage threadId => exact fun history heq => (h history heq).mono hgrows
  | finishRemove history threadId => exact ⟨h.1.mono hgrows, h.2.trans hgrows.visited⟩
  | finishPush history threadId => exact ⟨h.1.mono hgrows, h.2.trans hgrows.visited⟩
  | _ => first | exact trivial | exact IsCollected.mono h hgrows

theorem TableBuilt.mono {ids ids' : List Int32} {i : ℕ} {found : List (Int32 × MethodInfo)}
    (h : TableBuilt s ids i found) (hgrows : Grows s s') (hids : ∀ id ∈ ids', id ∈ ids) :
    TableBuilt s' ids' i found where
  sound := by
    intro el hel
    obtain ⟨j, hj, hid, hget⟩ := h.sound el hel
    exact ⟨j, hj, hid, getElem?_of_prefix hgrows.collected hget⟩
  keys_nodup := h.keys_nodup
  complete := fun id hid => h.complete id (hids id hid)

theorem PcClosed.mono {ids ids' : List Int32} {pc : Pc} (h : PcClosed s ids pc)
    (hgrows : Grows s s') (hids : pc.HoldsSerialized → ∀ id ∈ ids', id ∈ ids) :
    PcClosed s' ids' pc := by
  have built : ∀ {found : List (Int32 × MethodInfo)},
      (∃ i : ℕ, TableBuilt s ids i found ∧ ∀ id ∈ ids, id.toInt < i) → pc.HoldsSerialized →
      ∃ i : ℕ, TableBuilt s' ids' i found ∧ ∀ id ∈ ids', id.toInt < i := by
    rintro found ⟨i, hbuilt, hall⟩ hholds
    exact ⟨i, hbuilt.mono hgrows (hids hholds), fun id hid => hall id (hids hholds id hid)⟩
  cases pc with
  | idle => exact trivial
  | task task => exact TaskClosed.mono h hgrows
  | history pc =>
      cases pc with
      | methods i found => exact TableBuilt.mono h hgrows (hids trivial)
      | mapping found => exact built h trivial
      | notEntered found mapping => exact built h trivial
      | serialize found => exact built h trivial
      | _ => exact trivial

/-! ### The loop over the collected methods -/

/-- One round of the loop: a method of a pending report is visited, so its entry is added. -/
theorem TableBuilt.round {ids : List Int32} {i : ℕ} {found : List (Int32 × MethodInfo)}
    {info : MethodInfo} (h : TableBuilt s ids i found)
    (hget : (s.collectedMethods.take (2 ^ 31))[i]? = some info)
    (hvisited : ∀ id ∈ ids, id ∈ s.visitedMethods) :
    TableBuilt s ids (i + 1) (if Int32.ofNat i ∈ s.visitedMethods then
      found ++ [(Int32.ofNat i, info)] else found) := by
  rw [List.getElem?_take] at hget
  split at hget
  case isFalse => cases hget
  rename_i hlt
  have hi : (Int32.ofNat i).toInt = (i : ℕ) := Int32.toInt_ofNat_of_lt hlt
  have holds : ∀ el ∈ found, ∃ j < i + 1, el.1.toInt = (j : ℕ)
      ∧ s.collectedMethods[j]? = some el.2 := by
    intro el hel
    obtain ⟨j, hj, hid, hel⟩ := h.sound el hel
    exact ⟨j, by omega, hid, hel⟩
  split
  · refine ⟨fun el hel => ?_, ?_, fun id hid hbelow => ?_⟩
    · rcases List.mem_append.mp hel with hel | hel
      · exact holds el hel
      · obtain rfl := List.mem_singleton.mp hel
        exact ⟨i, by omega, hi, hget⟩
    · rw [List.map_append, List.map_singleton]
      refine List.nodup_append.mpr ⟨h.keys_nodup, List.nodup_singleton _, ?_⟩
      rintro id hid _ hnew rfl
      obtain ⟨el, hel, rfl⟩ := List.mem_map.mp hid
      obtain ⟨j, hj, hold, -⟩ := h.sound el hel
      rw [List.mem_singleton.mp hnew, hi] at hold
      omega
    · rw [List.map_append, List.mem_append]
      by_cases hlast : id.toInt = (i : ℕ)
      · refine Or.inr ?_
        rw [← hi, Int32.toInt_inj] at hlast
        simp [hlast]
      · exact Or.inl (h.complete id hid (by omega))
  · rename_i hnot
    refine ⟨holds, h.keys_nodup, fun id hid hbelow => h.complete id hid ?_⟩
    have hne : id.toInt ≠ (i : ℕ) := by
      intro heq
      rw [← hi, Int32.toInt_inj] at heq
      exact hnot (heq ▸ hvisited id hid)
    omega

/-- The loop has ended: no collected id lies behind it. -/
theorem TableBuilt.all {ids : List Int32} {i : ℕ}
    (hend : (s.collectedMethods.take (2 ^ 31))[i]? = none)
    (hcollected : ∀ id ∈ ids, IsCollected s id) : ∀ id ∈ ids, id.toInt < i := by
  intro id hid
  obtain ⟨j, hj, hidj⟩ := hcollected id hid
  have hle := List.getElem?_eq_none_iff.mp hend
  have hbound := Int32.toInt_lt id
  rw [List.length_take] at hle
  omega

/-- A table that the loop has finished has the methods of all pending reports. -/
theorem TableBuilt.closes {reports : List (Int32 × Option CoverageHistory)} {i : ℕ}
    {found : List (Int32 × MethodInfo)} {buffers : List (List UInt8)}
    (h : TableBuilt s (reportedIds reports) i found) (hbuffers : buffers = reportBuffers reports)
    (hall : ∀ id ∈ reportedIds reports, id.toInt < i) :
    TableCloses s.collectedMethods ⟨found, buffers⟩ reports where
  reports_eq := hbuffers
  keys_nodup := h.keys_nodup
  closed := by
    intro id hid
    obtain ⟨⟨key, info⟩, hel, rfl⟩ := List.mem_map.mp (h.complete id hid (hall id hid))
    obtain ⟨j, -, hj, hget⟩ := h.sound _ hel
    exact ⟨j, info, hj, hget, hel⟩

/-! ### The operations of a thread -/

theorem HistoryClosed.new {offset : UInt32} {methodId : Int32} (h : IsCollected s methodId) :
    HistoryClosed s (.new thread offset methodId) where
  records := by
    intro record hrecord
    rw [List.mem_singleton.mp hrecord]
    exact Finset.mem_singleton_self methodId
  collected := by
    intro id hid
    rw [Finset.mem_singleton.mp hid]
    exact h

theorem HistoryClosed.addCoverage {history : CoverageHistory} {offset : UInt32}
    {event : CoverageEvent} {methodId : Int32} (hhistory : HistoryClosed s history)
    (h : IsCollected s methodId) :
    HistoryClosed s (history.addCoverage thread offset event methodId) where
  records := by
    intro record hrecord
    rcases List.mem_append.mp hrecord with hold | hnew
    · exact Finset.mem_insert_of_mem (hhistory.records record hold)
    · rw [List.mem_singleton.mp hnew]
      exact Finset.mem_insert_self methodId _
  collected := by
    intro id hid
    rcases Finset.mem_insert.mp hid with rfl | hold
    · exact h
    · exact hhistory.collected id hold

theorem TrackedClosed.load {history : CoverageHistory} (h : TrackedClosed s)
    (hload : ThreadStorage.load s.trackedCoverage thread = some history) :
    HistoryClosed s history := by
  cases hlookup : s.trackedCoverage.lookup thread with
  | none =>
      rw [ThreadStorage.load, hlookup] at hload
      cases hload
  | some v =>
      rw [ThreadStorage.load_of_lookup hlookup] at hload
      exact h thread history (hload ▸ hlookup)

/-- One thread's history was replaced. -/
theorem TrackedClosed.replace (h : TrackedClosed s) (thread : ThreadID) (hgrows : Grows s s')
    (hothers : ∀ t ≠ thread, s'.trackedCoverage.lookup t = s.trackedCoverage.lookup t)
    (hown : ∀ history, s'.trackedCoverage.lookup thread = some (some history) →
      HistoryClosed s' history) : TrackedClosed s' := by
  intro t history hlookup
  by_cases ht : t = thread
  · subst ht
    exact hown history hlookup
  · rw [hothers t ht] at hlookup
    exact (h t history hlookup).mono hgrows

/-- The next operation behind one that is about no coverage has the same ids in hand. -/
theorem Task.next_closed (hok : task.step s thread = .ok (s', next)) (hplain : ¬task.IsCoverage)
    (htask : TaskClosed s task) (htracked : TrackedClosed s) :
    ∀ t, next = some t → TaskClosed s t := by
  have goes : ∀ {a : ProfilerState} {n : Option Task},
      (Except.ok (a, n) : Except Fault (ProfilerState × Option Task)) = .ok (s', next) →
      n = next := fun heq => (Prod.mk.inj (Except.ok.inj heq)).2
  intro t ht
  cases task with
  | stackUp | stackDown | filterUp | filterDown | unwindStore _ | finishUnmap =>
      obtain rfl := goes hok
      cases ht
  | unwindLoad | lose | finishBalances =>
      obtain rfl := goes hok
      cases ht
      exact trivial
  | tailcallDown _ methodId | trackBalances _ methodId | trackFilters _ methodId
  | trackUp _ methodId | finishMappedId _ =>
      obtain rfl := goes hok
      cases ht
      exact htask
  | mainDown | unwindRemove _ | unwindBalance | finishFilters =>
      obtain rfl := goes hok
      split at ht
      all_goals cases ht
      all_goals exact trivial
  | unwindFilter =>
      obtain rfl := goes hok
      cases ht
      split
      · exact trivial
      · exact trivial
  | add offset event methodId after =>
      simp only [Task.step] at hok
      split at hok
      · obtain rfl := goes hok
        cases ht
        exact htask
      · obtain rfl := goes hok
        cases ht
        exact htask
  | finishLoad =>
      obtain rfl := goes hok
      cases ht
      intro history hload
      rw [profilerAssert_trackedCoverage] at hload
      exact htracked.load hload
  | finishMapping coverage =>
      obtain rfl := goes hok
      cases ht
      split
      · exact htask
      · exact htask
  | _ => exact absurd trivial hplain

theorem AfterAdd.task_closed (s : ProfilerState) (after : AfterAdd) :
    ∀ t, after.task = some t → TaskClosed s t := by
  intro t ht
  cases after with
  | stop => cases ht
  | up | down | mainDown =>
      cases ht
      exact trivial

/-- Every operation of a thread carries collected ids on. -/
theorem Task.step_closed (hok : task.step s thread = .ok (s', next)) (htask : TaskClosed s task)
    (htracked : TrackedClosed s) :
    Grows s s' ∧ TrackedClosed s' ∧ ∀ t, next = some t → TaskClosed s' t := by
  have goes : ∀ {a : ProfilerState} {n : Option Task},
      (Except.ok (a, n) : Except Fault (ProfilerState × Option Task)) = .ok (s', next) →
      a = s' ∧ n = next := fun heq => Prod.mk.inj (Except.ok.inj heq)
  obtain ⟨asserts, hassert⟩ := profilerAssert_eq s .threadStorage
    (ThreadStorage.exist s.trackedCoverage thread)
  by_cases hplain : task.IsCoverage
  · cases task with
    | addStore offset methodId after =>
        obtain ⟨rfl, rfl⟩ := goes hok
        refine ⟨.of_eq rfl rfl, htracked.replace thread (.of_eq rfl rfl)
          (fun t ht => OrderedMap.lookup_insert_of_ne _ _ ht) ?_, after.task_closed _⟩
        intro history hlookup
        rw [ThreadStorage.store, OrderedMap.lookup_insert_self] at hlookup
        obtain rfl := Option.some.inj (Option.some.inj hlookup)
        exact HistoryClosed.new htask
    | addLoad offset event methodId after =>
        simp only [Task.step, hassert] at hok
        split at hok
        · cases hok
        · rename_i old hload
          obtain ⟨rfl, rfl⟩ := goes hok
          refine ⟨.of_eq rfl rfl, htracked.replace thread (.of_eq rfl rfl)
            (fun t ht => OrderedMap.lookup_insert_of_ne _ _ ht) ?_, after.task_closed _⟩
          intro history hlookup
          rw [OrderedMap.lookup_insert_self] at hlookup
          obtain rfl := Option.some.inj (Option.some.inj hlookup)
          exact ((htracked.load hload).addCoverage htask).mono (.of_eq rfl rfl)
    | abort =>
        simp only [Task.step, invocationAborted, hassert] at hok
        obtain ⟨rfl, rfl⟩ := goes hok
        refine ⟨.of_eq rfl rfl, htracked.replace thread (.of_eq rfl rfl)
          (fun t ht => OrderedMap.lookup_insert_of_ne _ _ ht) ?_, ?_⟩
        · intro history hlookup
          rw [ThreadStorage.update, OrderedMap.lookup_insert_self] at hlookup
          cases hlookup
        · intro t ht
          cases ht
          exact trivial
    | finishVisit coverage threadId =>
        cases coverage with
        | none => cases hok
        | some history =>
            obtain ⟨rfl, rfl⟩ := goes hok
            have hgrows : Grows s { s with
                visitedMethods := s.visitedMethods ∪ history.visitedMethods } :=
              ⟨List.prefix_rfl, Finset.subset_union_left⟩
            refine ⟨hgrows, fun t old hlookup => (htracked t old hlookup).mono hgrows, ?_⟩
            intro t ht
            cases ht
            exact ⟨(htask history rfl).mono hgrows, Finset.subset_union_right⟩
    | finishRemove history threadId =>
        simp only [Task.step, hassert] at hok
        obtain ⟨rfl, rfl⟩ := goes hok
        refine ⟨.of_eq rfl rfl, htracked.replace thread (.of_eq rfl rfl)
          (fun t ht => OrderedMap.lookup_erase_of_ne _ ht) ?_, ?_⟩
        · intro old hlookup
          rw [ThreadStorage.remove, OrderedMap.lookup_erase_self] at hlookup
          cases hlookup
        · intro t ht
          cases ht
          exact ⟨htask.1.mono (.of_eq rfl rfl), htask.2⟩
    | finishPush history threadId =>
        obtain ⟨rfl, rfl⟩ := goes hok
        have hgrows : Grows s { s with
            serializedCoverageThreadIds := s.serializedCoverageThreadIds ++ [threadId]
            serializedCoverage :=
              s.serializedCoverage ++ [reportBuffer threadId (some history)] } := .of_eq rfl rfl
        refine ⟨hgrows, fun t old hlookup => (htracked t old hlookup).mono hgrows, ?_⟩
        intro t ht
        cases ht
        exact trivial
    | _ => exact absurd hplain id
  · have hbook := Task.step_bookkeeping hok hplain
    have hgrows : Grows s s' := .of_eq hbook.collected_eq hbook.visited_eq
    refine ⟨hgrows, fun t history hlookup => ?_, fun t ht =>
      (Task.next_closed hok hplain htask htracked t ht).mono hgrows⟩
    rw [hbook.histories_eq] at hlookup
    exact (htracked t history hlookup).mono hgrows

end TestExecutor
