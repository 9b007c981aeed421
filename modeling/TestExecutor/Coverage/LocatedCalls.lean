import TestExecutor.Profiler.Recorded

/-!
# Locations and calls

What the managed side makes of the result of a collection, in terms of the calls of probes of the
schedule behind which it was taken.

* `rawReport_eq_of_bytes`, `reportCalls` — the bytes of a report determine the calls in it;
* `LocatesCall`, `ReportMade` — the location of a call, and the reports whose locations are calls;
* `exists_tableCloses`, `results_decode` — the reports of a result, as they are read back.
-/

namespace TestExecutor

open TestExecutor.Library ProfilerState

/-! ### Bytes of reports -/

/-- What is read from the bytes of a report is the report. -/
theorem rawReport_eq_of_bytes {report report' : Int32 × Option CoverageHistory}
    (hbytes : reportBuffer report.1 report.2 = reportBuffer report'.1 report'.2)
    (hlt : (reportBuffer report.1 report.2).length < 2 ^ 31) : rawReport report = rawReport report' := by
  let data : NetBytes := ⟨reportBuffer report.1 report.2, hlt⟩
  have hread := reads_rawReport report data [] [] (List.append_nil _).symm
  have hread' := reads_rawReport report' data [] [] (hbytes.trans (List.append_nil _).symm)
  exact (Prod.mk.inj (Except.ok.inj (hread.symm.trans hread'))).1

/-- The calls of probes in a report. -/
def reportCalls (report : Int32 × Option CoverageHistory) : List (UInt32 × Int32) :=
  (report.2.elim [] CoverageHistory.records).map CoverageRecord.call

theorem reportCalls_eq_of_bytes {report report' : Int32 × Option CoverageHistory}
    (hbytes : reportBuffer report.1 report.2 = reportBuffer report'.1 report'.2)
    (hlt : (reportBuffer report.1 report.2).length < 2 ^ 31) :
    reportCalls report = reportCalls report' := by
  have hmap : ∀ r : Int32 × Option CoverageHistory, reportCalls r
      = (rawReport r).rawCoverageLocations.map fun raw => (raw.offset, raw.methodId) := by
    intro r
    rw [reportCalls, rawReport, List.map_map]
    rfl
  rw [hmap, hmap, rawReport_eq_of_bytes hbytes hlt]

/-- A report is no longer than what holds it. -/
theorem length_le_of_mem_reports {result : HistoryResult} {buffer : List UInt8}
    (h : buffer ∈ result.reports) : buffer.length ≤ result.bytes.length := by
  have hle := (List.sublist_flatten_of_mem h).length_le
  rw [HistoryResult.bytes, serializeBuffers, List.length_append, List.length_append]
  omega

/-! ### Locations -/

/-- The location of a call: its offset, in the method that was collected under its id. -/
def LocatesCall (collected : List MethodInfo) (call : UInt32 × Int32) (location : CoverageLocation) :
    Prop :=
  ∃ (i : ℕ) (info : MethodInfo), call.2.toInt = i ∧ collected[i]? = some info
    ∧ location = ⟨info.assemblyName.dropLast, info.moduleName.dropLast, info.token.toInt32,
      call.1.toInt32⟩

theorem Resolves.calls {collected : List MethodInfo} {report : Int32 × Option CoverageHistory}
    {resolved : CoverageReport} (h : Resolves collected report resolved) :
    List.Forall₂ (LocatesCall collected) (reportCalls report) resolved.coverageLocations :=
  List.forall₂_map_left_iff.mpr h.2

/-- The locations of a report are calls that one thread has made, in the order in which it has made
them. -/
def ReportMade (acts : List Act) (report : CoverageReport) : Prop :=
  ∃ t calls, calls.Sublist (callsOf t acts)
    ∧ List.Forall₂ (LocatesCall (acts.filterMap Act.collected)) calls report.coverageLocations

section Results

variable {isPassiveRun collectMainOnly : Bool} {acts : List Act} {w : World}
  (hrun : run World.step (.init isPassiveRun collectMainOnly) acts = some w)
  (hcarries : Along World.step CarriesCollected (.init isPassiveRun collectMainOnly) acts)

include hrun hcarries

theorem exists_tableCloses : ∀ result ∈ w.results, ∃ reports,
    TableCloses (acts.filterMap Act.collected) result reports := by
  intro result hresult
  have hinv : ∃ reports, TablesClose w reports :=
    (always_of_along (I := fun w => ∃ reports, TablesClose w reports)
      (Q := fun w => ∃ reports, TablesClose w reports) (fun _ h => h)
      (fun _ _ _ ⟨_, h⟩ hP hstep => h.step hP hstep)
      ⟨[], tablesClose_init isPassiveRun collectMainOnly⟩ hcarries).behind hrun
  obtain ⟨_, h⟩ := hinv
  obtain ⟨reports, hcloses⟩ := h.results result hresult
  rw [collectedMethods_eq hrun] at hcloses
  exact ⟨reports, hcloses⟩

/-- **A result as it is read back.**  The locations are calls that the threads have made, and every
record of a report in the result has its location. -/
theorem results_decode {result : HistoryResult} (hresult : result ∈ w.results) {data : NetBytes}
    (hdata : data.bytes = result.bytes)
    (hnames : ∀ el ∈ result.methods, ClrName el.2.assemblyName ∧ ClrName el.2.moduleName) :
    ∃ rawReports visited, getRawReports data = .ok (rawReports, Int32.ofNat data.bytes.length)
      ∧ reportsFromRawReports rawReports = .ok visited
      ∧ (∀ report ∈ visited, ReportMade acts report)
      ∧ ∀ threadId history, reportBuffer threadId (some history) ∈ result.reports →
        ∀ record ∈ history.records, ∃ report ∈ visited, ∃ location ∈ report.coverageLocations,
          LocatesCall (acts.filterMap Act.collected) record.call location := by
  obtain ⟨reports, hcloses⟩ := exists_tableCloses hrun hcarries result hresult
  have hbytes := hdata
  rw [HistoryResult.bytes, hcloses.reports_eq] at hdata
  obtain ⟨dictionary, hentries, hread⟩ := getRawReports_of_bytes hcloses.keys_nodup hnames hdata
  obtain ⟨visited, hresolved, hall⟩ := reportsFromRawReports_ok hcloses hentries
  have hshort : ∀ buffer ∈ result.reports, buffer.length < 2 ^ 31 := by
    intro buffer hbuffer
    have hle := length_le_of_mem_reports hbuffer
    have hlt := data.length_lt
    rw [hbytes] at hlt
    omega
  refine ⟨_, visited, hread, hresolved, fun report hreport => ?_, fun threadId history hbuffer => ?_⟩
  · obtain ⟨source, hsource, hresolves⟩ := forall₂_exists_left hall hreport
    have hbuffer : reportBuffer source.1 source.2 ∈ result.reports := by
      rw [hcloses.reports_eq]
      exact List.mem_map.mpr ⟨source, hsource, rfl⟩
    obtain ⟨t, threadId, made, heq, hmade⟩ := (recordsMade_run hrun).results result hresult _ hbuffer
    have hcalls : reportCalls source = reportCalls (threadId, made) :=
      reportCalls_eq_of_bytes heq (hshort _ hbuffer)
    refine ⟨t, reportCalls source, ?_, hresolves.calls⟩
    rw [hcalls]
    cases made with
    | none => exact List.nil_sublist _
    | some history => exact (hmade history rfl).sublist
  · intro record hrecord
    have hmem := hbuffer
    rw [hcloses.reports_eq] at hmem
    obtain ⟨source, hsource, heq⟩ := List.mem_map.mp hmem
    obtain ⟨report, hreport, hresolves⟩ := forall₂_exists_right hall hsource
    have hcalls : reportCalls (threadId, some history) = reportCalls source :=
      reportCalls_eq_of_bytes heq.symm (hshort _ hbuffer)
    have hcall : record.call ∈ reportCalls source := by
      rw [← hcalls]
      exact List.mem_map_of_mem hrecord
    obtain ⟨location, hlocation, hlocates⟩ := forall₂_exists_right hresolves.calls hcall
    exact ⟨report, hreport, location, hlocation, hlocates⟩

end Results

end TestExecutor
