import TestExecutor.Coverage.CoverageShare
import TestExecutor.Coverage.VisitedBlocks

/-!
# The coverage of runs

The number that the coverage tool returns, from the runs of a method: the rewriter places the probes,
the profiler records their calls, the tool reads them back, looks up their blocks and compares sizes.

* `RunsRecorded` — the calls of a method are those of some runs, and all are recorded;
* `EndedBlock` — a block whose end one of the runs has called for;
* `endedBlock_iff` — these are the blocks that are counted;
* `computeCoverage_of_runs` — the percentage is the share of their instructions.
-/

namespace TestExecutor

open TestExecutor.Library ILRewriter InteractionCoverageTool

variable {body : MethodBody} {is : List RawInstr} {m : Method} {cfg : CfgInfo}
  {isPassiveRun collectMainOnly isMain : Bool} {acts : List Act} {w : World} {token : Int32}
  {moduleName : List UInt16} {runs : List (List (MarkedInstr × Passage) × ℕ)}

/-- In the schedule, the calls of the method are those of the runs, and what is called for has a record
with its offset. -/
structure RunsRecorded (isPassiveRun collectMainOnly isMain : Bool) (body : MethodBody)
    (is : List RawInstr) (acts : List Act) (token : Int32) (moduleName : List UInt16)
    (runs : List (List (MarkedInstr × Passage) × ℕ)) : Prop where
  methodRun : ∀ r ∈ runs, MethodRun isMain body is r.1 r.2
  called : ∀ t p offset methodId, .call t (.probe p offset methodId) ∈ acts →
    CollectedAs (acts.filterMap Act.collected) token moduleName methodId →
    ∃ r ∈ runs, ∃ o, .call p o ∈ passed r.1 ∧ offset = UInt32.ofNat o
  recorded : ∀ r ∈ runs, ∀ p o, .call p o ∈ passed r.1 → ∃ t p' methodId,
    CollectedAs (acts.filterMap Act.collected) token moduleName methodId
      ∧ RecordedCall isPassiveRun collectMainOnly acts t p' (UInt32.ofNat o) methodId

/-- One of the runs has called a probe for the last instruction of the block. -/
def EndedBlock (cfg : CfgInfo) (body : MethodBody) (is : List RawInstr)
    (runs : List (List (MarkedInstr × Passage) × ℕ)) (b : ℕ) : Prop :=
  ∃ r ∈ runs, ∃ (j : ℕ) (i : RawInstr), is[j]? = some i ∧ i.offset = (cfg.basicBlocks b).finalOffset
    ∧ EndCalled body is (visitedInstrs r.1) r.2 j i

section Runs

variable (h : GraphOf body is m cfg) (hcount : cfg.sortedBasicBlocks.length ≤ 2 ^ 30 + 1)
  (hrun : run World.step (.init isPassiveRun collectMainOnly) acts = some w)
  (hcarries : Along World.step CarriesCollected (.init isPassiveRun collectMainOnly) acts)
  (hruns : RunsRecorded isPassiveRun collectMainOnly isMain body is acts token moduleName runs)
  (hpending : w.pending = []) {result : HistoryResult} (hresult : w.results = [result])
  (hnames : ∀ el ∈ result.methods, ClrName el.2.assemblyName ∧ ClrName el.2.moduleName)

include h hcount hrun hcarries hruns hpending hresult hnames

/-- The blocks that are found in the result are those that the runs have called for. -/
theorem exists_endedBlocks {data : NetBytes} (hdata : data.bytes = result.bytes) :
    ∃ rawReports p visited blocks, getRawReports data = .ok (rawReports, p)
      ∧ reportsFromRawReports rawReports = .ok visited
      ∧ visitedBlocksOf cfg token moduleName visited = .ok blocks
      ∧ ∀ b, b ∈ blocks ↔ b ∈ cfg.sortedBasicBlocks ∧ EndedBlock cfg body is runs b := by
  obtain ⟨rawReports, visited, hread, hvisited, hmade, -⟩ :=
    results_decode hrun hcarries (hresult ▸ List.mem_singleton_self result) hdata hnames
  obtain ⟨blocks, hblocks, hmem⟩ := h.exact.visitedBlocksOf_spec hcount token moduleName visited
  refine ⟨rawReports, _, visited, blocks, hread, hvisited, hblocks, fun b => ⟨fun hb => ?_, ?_⟩⟩
  · obtain ⟨hb, report, hreport, location, hlocation, hhits⟩ := (hmem b).mp hb
    obtain ⟨t, p, offset, methodId, hact, hid, hend⟩ :=
      exists_call_of_hits (hmade report hreport) hlocation hhits
    obtain ⟨r, hr, o, hpassed, rfl⟩ := hruns.called t p _ _ hact hid
    have hmethod := hruns.methodRun r hr
    obtain ⟨j, i, hi, hfinal⟩ := h.exact.exists_final hb
    have hoffset : o = i.offset := by
      rw [toInt_offset (h.call_offset_lt hmethod hpassed), ← hfinal] at hend
      exact_mod_cast hend.symm
    exact ⟨hb, r, hr, j, i, hi, hfinal,
      (h.called_final_iff hmethod hb hi hfinal).mp ⟨p, hoffset ▸ hpassed⟩⟩
  · rintro ⟨hb, r, hr, j, i, hi, hfinal, hcalled⟩
    have hmethod := hruns.methodRun r hr
    obtain ⟨p, hpassed⟩ := (h.called_final_iff hmethod hb hi hfinal).mpr hcalled
    obtain ⟨t, p', methodId, hid, hrecorded⟩ := hruns.recorded r hr p _ hpassed
    obtain ⟨result', hresult', hcounts⟩ := countsBlock_of_recordedCall h hcount hrun hcarries
      hid hpending (h.call_offset_lt hmethod hpassed) hrecorded hb hfinal.symm
    -- there is only one result, which is read back once
    rw [hresult, List.mem_singleton] at hresult'
    subst hresult'
    obtain ⟨rawReports', visited', blocks', hread', hvisited', hblocks', hmem'⟩ :=
      hcounts data hdata hnames
    obtain rfl := (Prod.mk.inj (Except.ok.inj (hread.symm.trans hread'))).1
    obtain rfl := Except.ok.inj (hvisited.symm.trans hvisited')
    obtain rfl := Except.ok.inj (hblocks.symm.trans hblocks')
    exact hmem'

/-- **The coverage of a method is that of its runs.**  When the calls of probes of a method are those of
some runs of it and all of them are recorded, and one collection takes all reports: then the percentage
is the share of the reachable instructions that lie in blocks for whose ends the runs have called, and
it is 100 exactly when there is such a run for every block, as the text says. -/
theorem computeCoverage_of_runs (hlength : result.bytes.length < 2 ^ 31) (newLine : String)
    (opCodeName : ℕ → String) :
    ∃ (percent : Int32) (info : String),
      computeCoverage cfg m newLine opCodeName true result.bytes token moduleName = .ok (percent, info)
      ∧ percent = percentage
        {o | Reachable body.eh is o ∧ ∃ b ∈ cfg.sortedBasicBlocks, EndedBlock cfg body is runs b
          ∧ (cfg.basicBlocks b).startOffset ≤ o ∧ o ≤ (cfg.basicBlocks b).finalOffset}.ncard
        {o | Reachable body.eh is o}.ncard
      ∧ (percent = 100 ↔ ∀ b ∈ cfg.sortedBasicBlocks, EndedBlock cfg body is runs b)
      ∧ (info = "All blocks are covered" ++ newLine
        ↔ ∀ b ∈ cfg.sortedBasicBlocks, EndedBlock cfg body is runs b) := by
  let data : NetBytes := ⟨result.bytes, hlength⟩
  obtain ⟨rawReports, p, visited, blocks, hread, hvisited, hblocks, hmem⟩ :=
    exists_endedBlocks h hcount hrun hcarries hruns hpending hresult hnames
      (show data.bytes = result.bytes from rfl)
  obtain ⟨resolves, fuel, hm, hresolves, hgraph⟩ := h.built
  have hcons := (Method.walkable h.valid hm h.starts h.plain hresolves).consecutive
  obtain ⟨percent, info, hcompute, hpercent, hall, hinfo⟩ := h.exact.computeCoverage_eq h.valid hcons
    h.starts hgraph newLine opCodeName hread hvisited hblocks fun b hb => ((hmem b).mp hb).1
  have hended : (∀ b ∈ cfg.sortedBasicBlocks, b ∈ blocks)
      ↔ ∀ b ∈ cfg.sortedBasicBlocks, EndedBlock cfg body is runs b :=
    forall₂_congr fun b hb => (hmem b).trans (and_iff_right hb)
  have hcovered : coveredOffsets body is cfg blocks.elems
      = {o | Reachable body.eh is o ∧ ∃ b ∈ cfg.sortedBasicBlocks, EndedBlock cfg body is runs b
        ∧ (cfg.basicBlocks b).startOffset ≤ o ∧ o ≤ (cfg.basicBlocks b).finalOffset} := by
    ext o
    refine and_congr_right fun _ => exists_congr fun b => ?_
    exact (and_congr_left fun _ => hmem b).trans and_assoc
  exact ⟨percent, info, hcompute, hcovered ▸ hpercent, hall.trans hended, hinfo.trans hended⟩

end Runs

/-- The exception of the call is caught. -/
theorem computeCoverage_of_runs_try : ∃ m cfg w result vs percent info,
    GraphOf tryBody tryInstrs m cfg ∧ run World.step (.init false true) caughtSchedule = some w
    ∧ w.results = [result]
    ∧ computeCoverage cfg m "\n" toString true result.bytes 0x06000001 [70, 71, 72, 73]
      = .ok (percent, info)
    ∧ (percent = 100 ↔ ∀ b ∈ cfg.sortedBasicBlocks,
      EndedBlock cfg tryBody tryInstrs [(vs, 4)] b) := by
  obtain ⟨m, cfg, hgraph, hfinals⟩ := tryBody_graph
  have hall : ∃ w ∈ run World.step (.init false true) caughtSchedule, w.pending = []
      ∧ w.results.length = 1 ∧ ∀ result ∈ w.results, result.bytes.length < 2 ^ 31
        ∧ result.methods = [(0, tryInfo)] := by
    decide +kernel
  obtain ⟨w, hrun, hpending, hone, hresults⟩ := hall
  obtain ⟨result, hresult⟩ := List.length_eq_one_iff.mp hone
  obtain ⟨hlength, hmethods⟩ := hresults result (hresult ▸ List.mem_singleton_self result)
  obtain ⟨vs, hmethod, -, hpassed⟩ := hgraph.exists_methodRun true tryBody_caught
  have hmarks : passed vs = [.call .enterMain 0, .instr 0, .call .throw 7, .instr 2, .call .branch 8,
      .instr 3, .call .leaveMain 10] := by
    rw [hpassed]
    decide +kernel
  have hid : CollectedAs (caughtSchedule.filterMap Act.collected) 0x06000001 [70, 71, 72, 73] 0 :=
    collectedAs_try rfl
  have hruns : RunsRecorded false true true tryBody tryInstrs caughtSchedule 0x06000001 [70, 71, 72, 73]
      [(vs, 4)] := by
    refine ⟨fun r hr => ?_, fun t p offset methodId hact _ => ⟨_, List.mem_singleton_self _, ?_⟩,
      fun r hr p o hcall => ?_⟩
    · obtain rfl := List.mem_singleton.mp hr
      exact hmethod
    · rw [hmarks]
      rcases probe_caughtSchedule hact with ⟨rfl, rfl⟩ | ⟨rfl, rfl⟩ | ⟨rfl, rfl⟩ | ⟨rfl, rfl⟩
      · exact ⟨0, by decide, rfl⟩
      · exact ⟨7, by decide, rfl⟩
      · exact ⟨8, by decide, rfl⟩
      · exact ⟨10, by decide, rfl⟩
    · obtain rfl := List.mem_singleton.mp hr
      rw [hmarks] at hcall
      simp only [List.mem_cons, Mark.call.injEq, reduceCtorEq, false_or, List.not_mem_nil,
        or_false] at hcall
      rcases hcall with ⟨rfl, rfl⟩ | ⟨rfl, rfl⟩ | ⟨rfl, rfl⟩ | ⟨rfl, rfl⟩
      · exact ⟨1, .enterMain, 0, hid, .of_getElem? 1 24 rfl (by decide +kernel)⟩
      · exact ⟨1, .throw, 0, hid, .of_getElem? 7 18 rfl (by decide +kernel)⟩
      · exact ⟨1, .branch, 0, hid, .of_getElem? 10 15 rfl (by decide +kernel)⟩
      · exact ⟨1, .leaveMain, 0, hid, .of_getElem? 13 12 rfl (by decide +kernel)⟩
  have hnames : ∀ el ∈ result.methods, ClrName el.2.assemblyName ∧ ClrName el.2.moduleName := by
    rw [hmethods]
    exact clrName_try
  obtain ⟨percent, info, hcompute, -, hfull, -⟩ := computeCoverage_of_runs hgraph
    (count_of_finals hfinals) hrun (carries_trySchedule rfl (by decide +kernel)) hruns hpending hresult
    hnames hlength "\n" toString
  exact ⟨m, cfg, w, result, vs, percent, info, hgraph, hrun, hresult, hcompute, hfull⟩

end TestExecutor
