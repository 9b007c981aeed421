import TestExecutor.Coverage.CoveredBlocks
import TestExecutor.Coverage.LocatedCalls
import TestExecutor.Rewriter.BlockProbes

/-!
# Visited blocks

From the runs of a rewritten method to the blocks that the coverage tool counts: the runs call probes,
the profiler records the calls and delivers them, and the tool compares their offsets with the ends of
the blocks of a graph that it has built by itself.

* `GraphOf`, `MethodRun` — the method, its graph, and the runs of what it was rewritten to;
* `blocks_called_iff` — which blocks a run has called for, and which of them it has completed;
* `CollectedAs`, `CalledInRun` — the calls of the method in a schedule;
* `visited_blocks_called`, `completed_blocks_visited` — the blocks that are counted.
-/

namespace TestExecutor

open TestExecutor.Library ILRewriter InteractionCoverageTool

/-! ### Runs of the rewritten method -/

/-- The coverage tool has the graph of the method, which is free of tail calls and jumps and which both
sides decode alike. -/
structure GraphOf (body : MethodBody) (is : List RawInstr) (m : Method) (cfg : CfgInfo) : Prop where
  valid : ValidBody body is
  starts : SameStarts m is
  plain : ∀ i ∈ is, i.opcode ≠ ceeTailcall ∧ i.opcode ≠ ceeJmp
  built : ∃ resolves fuel, Method.ofBody body resolves = .ok m
    ∧ (∀ i ∈ is, i.IsDemandingCall → resolves i.operand = true) ∧ m.cfgInfo fuel = .ok cfg

variable {body : MethodBody} {is : List RawInstr} {m : Method} {cfg : CfgInfo}

theorem GraphOf.exact (h : GraphOf body is m cfg) : CfgExact m body.eh is cfg := by
  obtain ⟨resolves, fuel, hm, hresolves, hrun⟩ := h.built
  exact Method.cfgExact h.valid hm h.starts h.plain hresolves hrun

/-- A run of what the method was rewritten to, which stands in front of an instruction of the original
code. -/
def MethodRun (isMain : Bool) (body : MethodBody) (is : List RawInstr)
    (vs : List (MarkedInstr × Passage)) (k : ℕ) : Prop :=
  ∃ covProb methodId s s' enter gs c rest, importBody body = .ok s
    ∧ s.rewriteIL covProb methodId isMain = .ok s'
    ∧ RewrittenBody covProb methodId isMain body is s' enter gs
    ∧ ListRun (markedList isMain body is 0 enter gs) s'.m_pEH vs (c :: rest)
    ∧ c.mark = some (.instr k)

/-- The last instruction of a block. -/
theorem CfgExact.exists_final (h : CfgExact m body.eh is cfg) {b : ℕ}
    (hb : b ∈ cfg.sortedBasicBlocks) :
    ∃ (j : ℕ) (i : RawInstr), is[j]? = some i ∧ i.offset = (cfg.basicBlocks b).finalOffset := by
  obtain ⟨i, hi, hfinal⟩ := (h.bounds b hb).2.1
  obtain ⟨j, hj⟩ := List.mem_iff_getElem?.mp hi
  exact ⟨j, i, hj, hfinal⟩

namespace GraphOf

variable (h : GraphOf body is m cfg) {isMain : Bool} {vs : List (MarkedInstr × Passage)} {j k b : ℕ}
  {i : RawInstr}

include h

/-- The probe at the entry is called with offset 0. -/
theorem enter_eq {covProb : Probe → ProbeCall} {methodId : Int32} {s s' : ILRewriter}
    {enter : List ILInstr} {gs : List Group} (hs : importBody body = .ok s)
    (hrewrite : s.rewriteIL covProb methodId isMain = .ok s')
    (hr : RewrittenBody covProb methodId isMain body is s' enter gs) :
    enter.map ILInstr.content = enterContents covProb methodId (enterMethod isMain) 0 := by
  rw [← h.valid.entryOffset_eq_zero fun i hi => (h.plain i hi).1]
  exact h.valid.enter_eq hs hrewrite hr

/-- A run of the rewritten method is one of the original code. -/
theorem codeRun (hrun : MethodRun isMain body is vs k) : CodeRun body is (visitedInstrs vs) k := by
  obtain ⟨_, _, _, _, _, _, _, _, hs, hrewrite, hr, hlist, hc⟩ := hrun
  exact (hr.codeRun_of_listRun h.valid (h.enter_eq hs hrewrite hr) hlist hc).1

/-- What the method is rewritten to has the runs of the original code. -/
theorem exists_listRuns (covProb : Probe → ProbeCall) (methodId : Int32) (isMain : Bool) :
    ∃ s s' enter gs, importBody body = .ok s ∧ s.rewriteIL covProb methodId isMain = .ok s'
      ∧ RewrittenBody covProb methodId isMain body is s' enter gs
      ∧ ∀ ds k, CodeRun body is ds k → ∃ vs c rest,
        ListRun (markedList isMain body is 0 enter gs) s'.m_pEH vs (c :: rest)
        ∧ c.mark = some (.instr k) ∧ visitedInstrs vs = ds
        ∧ passed vs = runMarks isMain body is 0 ds
          ++ (annotationAt (leaveMethod isMain) body is k).before.map fun p => .call p.1 p.2 := by
  rw [← h.valid.entryOffset_eq_zero fun i hi => (h.plain i hi).1]
  exact h.valid.exists_listRuns covProb methodId isMain

/-- Every run of the original code is one of the rewritten method. -/
theorem exists_methodRun (isMain : Bool) {ds : List (ℕ × Passage)} (hcode : CodeRun body is ds k) :
    ∃ vs, MethodRun isMain body is vs k ∧ visitedInstrs vs = ds
      ∧ passed vs = runMarks isMain body is 0 ds
        ++ (annotationAt (leaveMethod isMain) body is k).before.map fun p => .call p.1 p.2 := by
  obtain ⟨s, s', enter, gs, hs, hrewrite, hr, hruns⟩ := h.exists_listRuns (fun _ => ⟨0, 0⟩) 0 isMain
  obtain ⟨vs, c, rest, hlist, hc, hvisited, hpassed⟩ := hruns ds k hcode
  exact ⟨vs, ⟨_, 0, s, s', enter, gs, c, rest, hs, hrewrite, hr, hlist, hc⟩, hvisited, hpassed⟩

theorem passed_final_iff (hrun : MethodRun isMain body is vs k) (hb : b ∈ cfg.sortedBasicBlocks)
    (hi : is[j]? = some i) (hfinal : i.offset = (cfg.basicBlocks b).finalOffset) :
    (∃ p, .call p i.offset ∈ (passed vs).tail) ↔ EndPassed body is (visitedInstrs vs) k j i := by
  obtain ⟨_, _, _, _, _, _, _, _, hs, hrewrite, hr, hlist, hc⟩ := hrun
  exact hr.passed_final_iff h.valid h.plain h.exact (h.enter_eq hs hrewrite hr) hlist hc hb hi hfinal

theorem called_final_iff (hrun : MethodRun isMain body is vs k) (hb : b ∈ cfg.sortedBasicBlocks)
    (hi : is[j]? = some i) (hfinal : i.offset = (cfg.basicBlocks b).finalOffset) :
    (∃ p, .call p i.offset ∈ passed vs) ↔ EndCalled body is (visitedInstrs vs) k j i := by
  obtain ⟨_, _, _, _, _, _, _, _, hs, hrewrite, hr, hlist, hc⟩ := hrun
  exact hr.called_final_iff h.valid h.plain h.exact (h.enter_eq hs hrewrite hr) hlist hc hb hi hfinal

/-- The offsets of calls are offsets in the code. -/
theorem call_offset_lt (hrun : MethodRun isMain body is vs k) {p : Probe} {o : ℕ}
    (hcall : .call p o ∈ passed vs) : o < 2 ^ 31 := by
  obtain ⟨_, _, _, _, _, _, _, _, hs, hrewrite, hr, hlist, hc⟩ := hrun
  have hsize : body.code.size < 2 ^ 31 := body.code.length_lt
  rcases hr.mem_passed_cases h.valid (h.enter_eq hs hrewrite hr) hlist hc hcall with
    ⟨-, rfl⟩ | ⟨j', hcall⟩
  · norm_num
  · exact (h.valid.call_offset_lt hcall).trans hsize

end GraphOf

/-- **The two notions of the end of a block agree.**  For every run of what a method is rewritten to,
and every block of the graph: a probe has been called with the offset of the last instruction of the
block if control has fallen on from it, or has come to it and it is a terminator, the start of a
handler or a store to a static field behind no prefix, or if it is the first instruction.  Such a block
has been completed unless its last instruction is a call that has raised an exception and at which the
method or a handler starts. -/
theorem blocks_called_iff (h : GraphOf body is m cfg) (covProb : Probe → ProbeCall) (methodId : Int32)
    (isMain : Bool) : ∃ s s' enter gs, importBody body = .ok s
      ∧ s.rewriteIL covProb methodId isMain = .ok s'
      ∧ (markedList isMain body is 0 enter gs).map MarkedInstr.node = s'.m_IL
      ∧ ∀ vs c rest k, ListRun (markedList isMain body is 0 enter gs) s'.m_pEH vs (c :: rest) →
        c.mark = some (.instr k) → ∀ b ∈ cfg.sortedBasicBlocks, ∃ (j : ℕ) (i : RawInstr),
          is[j]? = some i ∧ i.offset = (cfg.basicBlocks b).finalOffset
          ∧ ((∃ p, .call p i.offset ∈ passed vs) ↔ EndCalled body is (visitedInstrs vs) k j i)
          ∧ (EndCalled body is (visitedInstrs vs) k j i → (EndCompleted (visitedInstrs vs) k j i
            ↔ ¬(i.IsDemandingCall ∧ (j, .fell) ∉ visitedInstrs vs
              ∧ (j = 0 ∨ ∃ c ∈ body.eh, c.handlerOffset = i.offset)))) := by
  obtain ⟨s, s', enter, gs, hs, hrewrite, hr, -, -⟩ := h.valid.exists_rewritten covProb methodId isMain
  refine ⟨s, s', enter, gs, hs, hrewrite, hr.marked_node 0, fun vs c rest k hlist hc b hb => ?_⟩
  have hrun : MethodRun isMain body is vs k :=
    ⟨covProb, methodId, s, s', enter, gs, c, rest, hs, hrewrite, hr, hlist, hc⟩
  obtain ⟨j, i, hi, hfinal⟩ := h.exact.exists_final hb
  exact ⟨j, i, hi, hfinal, h.called_final_iff hrun hb hi hfinal,
    fun hcalled => hcalled.completed_iff (h.codeRun hrun)⟩

/-! ### From runs to blocks -/

/-- The method with the token and the name of its module was collected under the id. -/
def CollectedAs (collected : List MethodInfo) (token : Int32) (moduleName : List UInt16)
    (methodId : Int32) : Prop :=
  ∃ (i : ℕ) (info : MethodInfo), methodId.toInt = i ∧ collected[i]? = some info
    ∧ info.token.toInt32 = token ∧ info.moduleName.dropLast = moduleName

/-- A location of the method is one of a call with its id. -/
theorem LocatesCall.collectedAs {collected : List MethodInfo} {call : UInt32 × Int32}
    {location : CoverageLocation} (h : LocatesCall collected call location) :
    CollectedAs collected location.methodToken location.moduleName call.2
      ∧ location.offset = call.1.toInt32 := by
  obtain ⟨i, info, hi, hget, rfl⟩ := h
  exact ⟨⟨i, info, hi, hget, rfl, rfl⟩, rfl⟩

theorem LocatesCall.of_collectedAs {collected : List MethodInfo} {call : UInt32 × Int32}
    {location : CoverageLocation} (h : LocatesCall collected call location) {token : Int32}
    {moduleName : List UInt16} (hid : CollectedAs collected token moduleName call.2) :
    location.methodToken = token ∧ location.moduleName = moduleName := by
  obtain ⟨i, info, hi, hget, rfl⟩ := h
  obtain ⟨i', info', hi', hget', rfl, rfl⟩ := hid
  obtain rfl : i = i' := by exact_mod_cast hi.symm.trans hi'
  obtain rfl := Option.some.inj (hget.symm.trans hget')
  exact ⟨rfl, rfl⟩

/-- The call is one that a run of the rewritten method makes. -/
def CalledInRun (isMain : Bool) (body : MethodBody) (is : List RawInstr) (p : Probe)
    (offset : UInt32) : Prop :=
  ∃ vs k o, MethodRun isMain body is vs k ∧ .call p o ∈ passed vs ∧ offset = UInt32.ofNat o

/-- Offsets in the code pass through the two 32-bit words as they are. -/
theorem toInt_offset {o : ℕ} (h : o < 2 ^ 31) : (UInt32.ofNat o).toInt32.toInt = o := by
  rw [UInt32.toInt32_ofNat', Int32.toInt_ofNat_of_lt h]

section Runs

variable {isPassiveRun collectMainOnly isMain : Bool} {acts : List Act} {w : World}
  {token : Int32} {moduleName : List UInt16}

/-- A location at the end of a block is one of a call with its offset. -/
theorem exists_call_of_hits {report : CoverageReport} (hmade : ReportMade acts report)
    {location : CoverageLocation} (hlocation : location ∈ report.coverageLocations) {b : ℕ}
    (hhits : cfg.Hits token moduleName location b) : ∃ t p offset methodId,
      .call t (.probe p offset methodId) ∈ acts
        ∧ CollectedAs (acts.filterMap Act.collected) token moduleName methodId
        ∧ ((cfg.basicBlocks b).finalOffset : ℤ) = offset.toInt32.toInt := by
  obtain ⟨t, calls, hsublist, hlocates⟩ := hmade
  obtain ⟨call, hcall, hlocated⟩ := forall₂_exists_left hlocates hlocation
  obtain ⟨hid, hoffset⟩ := hlocated.collectedAs
  obtain ⟨htoken, hmodule, hend⟩ := hhits
  rw [htoken, hmodule] at hid
  obtain ⟨p, hact⟩ := mem_callsOf (hsublist.subset hcall)
  exact ⟨t, p, call.1, call.2, hact, hid, hoffset ▸ hend⟩

/-- **No block is counted that was not called for.**  When the calls of a method in a schedule are those
of its runs, then every block that the coverage tool counts, in whichever result of the schedule, ends
with an instruction for which one of the runs has called a probe; that run has completed the block
unless it ends with a call that has raised an exception and at which the method or a handler starts. -/
theorem visited_blocks_called (h : GraphOf body is m cfg)
    (hcount : cfg.sortedBasicBlocks.length ≤ 2 ^ 30 + 1)
    (hrun : run World.step (.init isPassiveRun collectMainOnly) acts = some w)
    (hcarries : Along World.step CarriesCollected (.init isPassiveRun collectMainOnly) acts)
    (hcalls : ∀ t p offset methodId, .call t (.probe p offset methodId) ∈ acts →
      CollectedAs (acts.filterMap Act.collected) token moduleName methodId →
      CalledInRun isMain body is p offset)
    {result : HistoryResult} (hresult : result ∈ w.results) {data : NetBytes}
    (hdata : data.bytes = result.bytes)
    (hnames : ∀ el ∈ result.methods, ClrName el.2.assemblyName ∧ ClrName el.2.moduleName) :
    ∃ rawReports visited blocks, getRawReports data = .ok (rawReports, Int32.ofNat data.bytes.length)
      ∧ reportsFromRawReports rawReports = .ok visited
      ∧ visitedBlocksOf cfg token moduleName visited = .ok blocks
      ∧ ∀ b ∈ blocks, b ∈ cfg.sortedBasicBlocks ∧ ∃ (vs : _) (k j : ℕ) (i : RawInstr),
        MethodRun isMain body is vs k ∧ is[j]? = some i
          ∧ i.offset = (cfg.basicBlocks b).finalOffset ∧ EndCalled body is (visitedInstrs vs) k j i
          ∧ (EndCompleted (visitedInstrs vs) k j i ↔ ¬(i.IsDemandingCall
            ∧ (j, .fell) ∉ visitedInstrs vs
            ∧ (j = 0 ∨ ∃ c ∈ body.eh, c.handlerOffset = i.offset))) := by
  obtain ⟨rawReports, visited, hread, hvisited, hmade, -⟩ :=
    results_decode hrun hcarries hresult hdata hnames
  obtain ⟨blocks, hblocks, hmem⟩ := h.exact.visitedBlocksOf_spec hcount token moduleName visited
  refine ⟨rawReports, visited, blocks, hread, hvisited, hblocks, fun b hb => ?_⟩
  obtain ⟨hb, report, hreport, location, hlocation, hhits⟩ := (hmem b).mp hb
  obtain ⟨t, p, offset, methodId, hact, hid, hend⟩ :=
    exists_call_of_hits (hmade report hreport) hlocation hhits
  obtain ⟨vs, k, o, hmethod, hpassed, rfl⟩ := hcalls t p _ _ hact hid
  obtain ⟨j, i, hi, hfinal⟩ := h.exact.exists_final hb
  have hoffset : o = i.offset := by
    rw [toInt_offset (h.call_offset_lt hmethod hpassed), ← hfinal] at hend
    exact_mod_cast hend.symm
  have hcalled := (h.called_final_iff hmethod hb hi hfinal).mp ⟨p, hoffset ▸ hpassed⟩
  exact ⟨hb, vs, k, j, i, hmethod, hi, hfinal, hcalled, hcalled.completed_iff (h.codeRun hmethod)⟩

/-- The coverage tool counts the block in the result. -/
def CountsBlock (cfg : CfgInfo) (token : Int32) (moduleName : List UInt16) (result : HistoryResult)
    (b : ℕ) : Prop :=
  ∀ data : NetBytes, data.bytes = result.bytes →
    (∀ el ∈ result.methods, ClrName el.2.assemblyName ∧ ClrName el.2.moduleName) →
    ∃ rawReports visited blocks,
      getRawReports data = .ok (rawReports, Int32.ofNat data.bytes.length)
      ∧ reportsFromRawReports rawReports = .ok visited
      ∧ visitedBlocksOf cfg token moduleName visited = .ok blocks ∧ b ∈ blocks

section Delivered

variable (h : GraphOf body is m cfg) (hcount : cfg.sortedBasicBlocks.length ≤ 2 ^ 30 + 1)
  (hrun : run World.step (.init isPassiveRun collectMainOnly) acts = some w)
  (hcarries : Along World.step CarriesCollected (.init isPassiveRun collectMainOnly) acts)
  {methodId : Int32} (hid : CollectedAs (acts.filterMap Act.collected) token moduleName methodId)

include h hcount hrun hcarries hid

/-- A block is counted when a report of the result has a record with the offset of its end. -/
theorem countsBlock_of_record {result : HistoryResult} (hresult : result ∈ w.results) {threadId : Int32}
    {history : CoverageHistory} (hbuffer : reportBuffer threadId (some history) ∈ result.reports)
    {record : CoverageRecord} (hrecord : record ∈ history.records) {o : ℕ} (hlt : o < 2 ^ 31)
    (hcall : record.call = (UInt32.ofNat o, methodId)) {b : ℕ} (hb : b ∈ cfg.sortedBasicBlocks)
    (hfinal : (cfg.basicBlocks b).finalOffset = o) : CountsBlock cfg token moduleName result b := by
  intro data hdata hnames
  obtain ⟨rawReports, visited, hread, hvisited, -, hlocated⟩ :=
    results_decode hrun hcarries hresult hdata hnames
  obtain ⟨report, hreport, location, hlocation, hlocates⟩ :=
    hlocated threadId history hbuffer record hrecord
  rw [hcall] at hlocates
  obtain ⟨htoken, hmodule⟩ := hlocates.of_collectedAs hid
  obtain ⟨blocks, hblocks, hmem⟩ := h.exact.visitedBlocksOf_spec hcount token moduleName visited
  refine ⟨rawReports, visited, blocks, hread, hvisited, hblocks,
    (hmem b).mpr ⟨hb, report, hreport, location, hlocation, htoken, hmodule, ?_⟩⟩
  rw [hlocates.collectedAs.2, toInt_offset hlt, hfinal]

variable (hpending : w.pending = [])

include hpending

/-- A block is counted when a call with the offset of its end is recorded. -/
theorem countsBlock_of_recordedCall {t : ThreadID} {p : Probe} {o : ℕ} (hlt : o < 2 ^ 31)
    (hcall : RecordedCall isPassiveRun collectMainOnly acts t p (UInt32.ofNat o) methodId) {b : ℕ}
    (hb : b ∈ cfg.sortedBasicBlocks) (hfinal : (cfg.basicBlocks b).finalOffset = o) :
    ∃ result ∈ w.results, CountsBlock cfg token moduleName result b := by
  -- the report with the record is in one of the results
  obtain ⟨threadId, history, hbuffer, record, hrecord, -, hcall⟩ := hcall.inReport hrun
  have hdelivers : Delivers w := run_invariant (fun _ _ _ h hstep => h.step hstep)
    ⟨locked_init isPassiveRun collectMainOnly, rfl⟩ hrun
  rw [← hdelivers.all_eq, hpending, List.append_nil, World.delivered, List.mem_filter,
    List.mem_flatMap] at hbuffer
  obtain ⟨⟨result, hresult, hbuffer⟩, -⟩ := hbuffer
  exact ⟨result, hresult, countsBlock_of_record h hcount hrun hcarries hid hresult hbuffer hrecord hlt
    hcall hb hfinal⟩

variable {b j k : ℕ} {i : RawInstr} (hb : b ∈ cfg.sortedBasicBlocks) (hi : is[j]? = some i)
  (hfinal : i.offset = (cfg.basicBlocks b).finalOffset)

include hb hi hfinal

/-- **No completed block is missed.**  When a thread makes the calls of a run of the method behind the
one at the entry such that they are recorded, and all reports have been delivered, then the coverage
tool counts every block whose end the run has left, or has come to with a terminator. -/
theorem completed_blocks_visited {vs : List (MarkedInstr × Passage)}
    (hmethod : MethodRun isMain body is vs k) {t : ThreadID}
    (hcalls : ∀ p o, .call p o ∈ (passed vs).tail →
      RecordedCall isPassiveRun collectMainOnly acts t p (UInt32.ofNat o) methodId)
    (harrived : Arrived (visitedInstrs vs) k j)
    (hleft : ¬i.IsTerminator → (j, .fell) ∈ visitedInstrs vs) :
    ∃ result ∈ w.results, CountsBlock cfg token moduleName result b := by
  obtain ⟨p, hp⟩ := (h.passed_final_iff hmethod hb hi hfinal).mpr (.of_left harrived hleft)
  exact countsBlock_of_recordedCall h hcount hrun hcarries hid hpending
    (h.call_offset_lt hmethod (List.mem_of_mem_tail hp)) (hcalls p _ hp) hb hfinal.symm

/-- **The first block is counted too early** when it ends with the first instruction: as soon as the
call at the entry is recorded, be the instruction a call that never returns. -/
theorem entered_block_visited (hzero : j = 0) {t : ThreadID}
    (hentry : RecordedCall isPassiveRun collectMainOnly acts t (enterMethod isMain) 0 methodId) :
    (∃ result ∈ w.results, CountsBlock cfg token moduleName result b)
      ∧ ∃ vs, MethodRun isMain body is vs 0 ∧ visitedInstrs vs = []
        ∧ (i.IsDemandingCall → ¬EndCompleted (visitedInstrs vs) 0 j i) := by
  subst hzero
  have hoffset := (h.valid.offset_eq_zero_iff hi).mpr rfl
  refine ⟨countsBlock_of_recordedCall h hcount hrun hcarries hid hpending (Nat.two_pow_pos 31) hentry hb
    (hfinal.symm.trans hoffset), ?_⟩
  obtain ⟨vs, hmethod, hvisited, -⟩ := h.exists_methodRun isMain .entry
  refine ⟨vs, hmethod, hvisited, fun hcall hcompleted => ?_⟩
  have hfell := hcompleted.2 hcall
  rw [hvisited] at hfell
  exact List.not_mem_nil hfell

end Delivered

end Runs

/-! ### A call that raises an exception -/

/-- `call; leave.s` in a `try`, and `pop; leave.s` in its handler; then `ret`. -/
def tryBody : MethodBody where
  flags := 0
  maxStack := 8
  localVarSigTok := 0
  code := ⟨[0x28, 1, 0, 0, 6, 0xDE, 3, 0x26, 0xDE, 0, 0x2A], by decide⟩
  eh := [⟨0, 0, 7, 7, 3, 0x01000001⟩]

def tryInstrs : List RawInstr :=
  [⟨0, ceeCall, 0x06000001, []⟩, ⟨5, ceeLeaveS, 3, []⟩, ⟨7, 0x26, 0, []⟩, ⟨8, ceeLeaveS, 0, []⟩,
    ⟨10, ceeRet, 0, []⟩]

theorem tryBody_valid : ValidBody tryBody tryInstrs := by
  have hhandlers : ∀ i ∈ tryInstrs, i.FallsThrough → ∀ c ∈ tryBody.eh, i.next ∉ c.entries := by
    decide +kernel
  refine ⟨by decide +kernel, by decide, by decide +kernel, by decide +kernel, by decide +kernel,
    by decide +kernel, fun i hi _ => hhandlers i hi, ?_⟩
  exact not_reachable_of_closed [0, 5, 7, 8, 10] (by decide) (by decide +kernel) (by decide)

theorem tryBody_graph : ∃ m cfg, GraphOf tryBody tryInstrs m cfg
    ∧ cfg.sortedBasicBlocks.map (fun b => (cfg.basicBlocks b).finalOffset) = [0, 5, 8, 10] := by
  have hbuild : (build tryBody.code).map (fun p => p.1.map IlInstr.offset) = .ok [0, 5, 7, 8, 10] := by
    decide +kernel
  have hcfg : (Method.ofBody tryBody fun _ => true).toOption.bind
      (fun m => (m.cfgInfo 6).toOption.map fun cfg =>
        cfg.sortedBasicBlocks.map fun b => (cfg.basicBlocks b).finalOffset) = some [0, 5, 8, 10] := by
    decide +kernel
  obtain ⟨m, hm, hstarts⟩ : ∃ m, Method.ofBody tryBody (fun _ => true) = .ok m
      ∧ SameStarts m tryInstrs := by
    rw [Method.ofBody]
    cases hp : build tryBody.code with
    | error e =>
        rw [hp] at hbuild
        cases hbuild
    | ok p =>
        rw [hp] at hbuild
        exact ⟨_, rfl, Except.ok.inj hbuild⟩
  rw [hm] at hcfg
  obtain ⟨cfg, hrun, hfinals⟩ := Option.map_eq_some_iff.mp hcfg
  exact ⟨m, cfg, ⟨tryBody_valid, hstarts, by decide, _, 6, hm, fun _ _ _ => rfl, eq_ok_of_toOption hrun⟩,
    hfinals⟩

/-- The call raises an exception, which is caught. -/
theorem tryBody_caught : CodeRun tryBody tryInstrs [(0, .raised), (2, .fell), (3, .jumped)] 4 := by
  have hraise : CodeStep tryBody tryInstrs [] 0 .raised 2 :=
    .raise rfl (by decide) (List.mem_singleton_self _) (by decide +kernel) (by decide)
      (by decide +kernel)
  have hfall : CodeStep tryBody tryInstrs [(0, .raised)] 2 .fell 3 :=
    .fall rfl (by decide) (by decide)
  have hjump : CodeStep tryBody tryInstrs [(0, .raised), (2, .fell)] 3 .jumped 4 :=
    .jump rfl (by decide) (by decide +kernel)
  exact ((CodeRun.entry.step hraise).step hfall).step hjump

theorem blocks_called_iff_try : ∃ m cfg s s' enter gs, GraphOf tryBody tryInstrs m cfg
    ∧ importBody tryBody = .ok s ∧ s.rewriteIL (fun _ => ⟨0, 0⟩) 0 true = .ok s'
    ∧ ∀ vs c rest k, ListRun (markedList true tryBody tryInstrs 0 enter gs) s'.m_pEH vs (c :: rest) →
      c.mark = some (.instr k) → ∀ b ∈ cfg.sortedBasicBlocks, ∃ (j : ℕ) (i : RawInstr),
        tryInstrs[j]? = some i ∧ i.offset = (cfg.basicBlocks b).finalOffset
        ∧ ((∃ p, .call p i.offset ∈ passed vs) ↔ EndCalled tryBody tryInstrs (visitedInstrs vs) k j i) := by
  obtain ⟨m, cfg, hgraph, -⟩ := tryBody_graph
  obtain ⟨s, s', enter, gs, hs, hrewrite, -, hruns⟩ := blocks_called_iff hgraph (fun _ => ⟨0, 0⟩) 0 true
  refine ⟨m, cfg, s, s', enter, gs, hgraph, hs, hrewrite, fun vs c rest k hlist hc b hb => ?_⟩
  obtain ⟨j, i, hi, hfinal, hcalled, -⟩ := hruns vs c rest k hlist hc b hb
  exact ⟨j, i, hi, hfinal, hcalled⟩

def tryInfo : MethodInfo := ⟨0x06000001, 4, [67, 68, 69, 0], 5, [70, 71, 72, 73, 0], rfl, rfl⟩

theorem clrName_try : ∀ el ∈ [((0 : Int32), tryInfo)],
    ClrName el.2.assemblyName ∧ ClrName el.2.moduleName := by
  intro el hel
  obtain rfl := List.mem_singleton.mp hel
  exact ⟨⟨[67, 68, 69], rfl, by decide +kernel⟩, ⟨[70, 71, 72, 73], rfl, by decide +kernel⟩⟩

/-- The method is collected and runs as the main method of thread 1; thread 2 collects its report. -/
def trySchedule (calls : List (Probe × UInt32)) : List Act :=
  .call 1 (.collectMethod tryInfo) :: .call 1 (.probe .enterMain 0 0) :: (List.replicate 5 (.step 1)
    ++ (calls.flatMap fun c => .call 1 (.probe c.1 c.2 0) :: List.replicate 2 (.step 1))
    ++ .call 1 (.probe .leaveMain 10 0) :: (List.replicate 12 (.step 1)
    ++ .call 2 .getHistory :: List.replicate 16 (.step 2)))

/-- What the rewritten method calls when the call raises an exception. -/
def caughtSchedule : List Act := trySchedule [(.throw, 7), (.branch, 8)]

/-- What it calls when the call returns. -/
def returnedSchedule : List Act := trySchedule [(.call, 0), (.branch, 5)]

theorem collectedAs_try {acts : List Act} (hcollected : acts.filterMap Act.collected = [tryInfo]) :
    CollectedAs (acts.filterMap Act.collected) 0x06000001 [70, 71, 72, 73] 0 := by
  rw [hcollected]
  exact ⟨0, tryInfo, rfl, rfl, rfl, rfl⟩

theorem count_of_finals {cfg : CfgInfo}
    (h : cfg.sortedBasicBlocks.map (fun b => (cfg.basicBlocks b).finalOffset) = [0, 5, 8, 10]) :
    cfg.sortedBasicBlocks.length ≤ 2 ^ 30 + 1 := by
  have hlength := congrArg List.length h
  rw [List.length_map] at hlength
  rw [hlength]
  decide

theorem carries_trySchedule {acts : List Act} {rest : List Act}
    (hacts : acts = .call 1 (.collectMethod tryInfo) :: rest)
    (hids : ∀ act ∈ rest, act.probeId = none ∨ act.probeId = some 0) :
    Along World.step CarriesCollected (.init false true) acts := by
  subst hacts
  refine ⟨(fun _ hid => nomatch hid), fun w hstep => carriesCollected_along fun act hact methodId hid => ?_⟩
  obtain rfl := Option.some.inj hstep
  rcases hids act hact with hnone | hzero
  · rw [hnone] at hid
    cases hid
  · obtain rfl := Option.some.inj (hzero.symm.trans hid)
    exact ⟨0, Nat.one_pos, rfl⟩

/-- The call in the `try` has returned: the blocks of the `try` and of the `ret` are counted. -/
theorem completed_blocks_visited_try : ∃ m cfg w, GraphOf tryBody tryInstrs m cfg
    ∧ run World.step (.init false true) returnedSchedule = some w
    ∧ ∀ b ∈ cfg.sortedBasicBlocks, (cfg.basicBlocks b).finalOffset = 0 →
      ∃ result ∈ w.results, CountsBlock cfg 0x06000001 [70, 71, 72, 73] result b := by
  obtain ⟨m, cfg, hgraph, hfinals⟩ := tryBody_graph
  have hcount := count_of_finals hfinals
  have hall : ∃ w ∈ run World.step (.init false true) returnedSchedule, w.pending = [] := by
    decide +kernel
  obtain ⟨w, hrun, hpending⟩ := hall
  have hcode : CodeRun tryBody tryInstrs [(0, .fell), (1, .jumped)] 4 :=
    (CodeRun.entry.step (.fall rfl (by decide) (by decide))).step
      (.jump rfl (by decide) (by decide +kernel))
  obtain ⟨vs, hmethod, hvisited, hpassed⟩ := hgraph.exists_methodRun true hcode
  have hcalls : ∀ p o, .call p o ∈ (passed vs).tail →
      RecordedCall false true returnedSchedule 1 p (UInt32.ofNat o) 0 := by
    have hmarks : passed vs = [.call .enterMain 0, .instr 0, .call .call 0, .call .branch 5, .instr 1,
        .call .leaveMain 10] := by
      rw [hpassed]
      decide +kernel
    rw [hmarks]
    intro p o hcall
    simp only [List.tail_cons, List.mem_cons, Mark.call.injEq, reduceCtorEq, false_or,
      List.not_mem_nil, or_false] at hcall
    rcases hcall with ⟨rfl, rfl⟩ | ⟨rfl, rfl⟩ | ⟨rfl, rfl⟩
    · exact .of_getElem? 7 18 rfl (by decide +kernel)
    · exact .of_getElem? 10 15 rfl (by decide +kernel)
    · exact .of_getElem? 13 12 rfl (by decide +kernel)
  refine ⟨m, cfg, w, hgraph, hrun, fun b hb hzero => ?_⟩
  exact completed_blocks_visited hgraph hcount hrun (carries_trySchedule rfl (by decide +kernel))
    (collectedAs_try rfl) hpending hb (j := 0) rfl hzero.symm hmethod hcalls
    (Or.inr ⟨.fell, by rw [hvisited]; decide⟩) fun _ => by rw [hvisited]; decide

/-- The call in the `try` has raised an exception, and its block is counted. -/
theorem entered_block_visited_try : ∃ m cfg w, GraphOf tryBody tryInstrs m cfg
    ∧ run World.step (.init false true) caughtSchedule = some w
    ∧ ∀ b ∈ cfg.sortedBasicBlocks, (cfg.basicBlocks b).finalOffset = 0 →
      ∃ result ∈ w.results, CountsBlock cfg 0x06000001 [70, 71, 72, 73] result b := by
  obtain ⟨m, cfg, hgraph, hfinals⟩ := tryBody_graph
  have hall : ∃ w ∈ run World.step (.init false true) caughtSchedule, w.pending = [] := by
    decide +kernel
  obtain ⟨w, hrun, hpending⟩ := hall
  have hentry : RecordedCall false true caughtSchedule 1 (enterMethod true) 0 0 :=
    .of_getElem? 1 24 rfl (by decide +kernel)
  have hfirst : tryInstrs[0]? = some ⟨0, ceeCall, 0x06000001, []⟩ := rfl
  refine ⟨m, cfg, w, hgraph, hrun, fun b hb hzero => ?_⟩
  exact (entered_block_visited hgraph (count_of_finals hfinals) hrun
    (carries_trySchedule rfl (by decide +kernel)) (collectedAs_try rfl) hpending hb hfirst hzero.symm
    rfl hentry).1

/-- The calls of probes in the schedule. -/
theorem probe_caughtSchedule {t : ThreadID} {p : Probe} {offset : UInt32} {methodId : Int32}
    (hact : .call t (.probe p offset methodId) ∈ caughtSchedule) :
    (p = .enterMain ∧ offset = 0) ∨ (p = .throw ∧ offset = 7) ∨ (p = .branch ∧ offset = 8)
      ∨ (p = .leaveMain ∧ offset = 10) := by
  simp [caughtSchedule, trySchedule] at hact
  tauto

/-- What the rewritten method calls in the run in which the exception is caught. -/
theorem calledInRun_try {t : ThreadID} {p : Probe} {offset : UInt32} {methodId : Int32}
    (hact : .call t (.probe p offset methodId) ∈ caughtSchedule) :
    CalledInRun true tryBody tryInstrs p offset := by
  obtain ⟨m, cfg, hgraph, -⟩ := tryBody_graph
  obtain ⟨vs, hmethod, -, hpassed⟩ := hgraph.exists_methodRun true tryBody_caught
  have hmarks : passed vs = [.call .enterMain 0, .instr 0, .call .throw 7, .instr 2, .call .branch 8,
      .instr 3, .call .leaveMain 10] := by
    rw [hpassed]
    decide +kernel
  rcases probe_caughtSchedule hact with ⟨rfl, rfl⟩ | ⟨rfl, rfl⟩ | ⟨rfl, rfl⟩ | ⟨rfl, rfl⟩
  · exact ⟨vs, 4, 0, hmethod, by rw [hmarks]; decide, rfl⟩
  · exact ⟨vs, 4, 7, hmethod, by rw [hmarks]; decide, rfl⟩
  · exact ⟨vs, 4, 8, hmethod, by rw [hmarks]; decide, rfl⟩
  · exact ⟨vs, 4, 10, hmethod, by rw [hmarks]; decide, rfl⟩

theorem visited_blocks_called_try : ∃ m cfg w result visited blocks, GraphOf tryBody tryInstrs m cfg
    ∧ run World.step (.init false true) caughtSchedule = some w ∧ result ∈ w.results
    ∧ visitedBlocksOf cfg 0x06000001 [70, 71, 72, 73] visited = .ok blocks
    ∧ ∀ b ∈ blocks, ∃ vs k j i, MethodRun true tryBody tryInstrs vs k
      ∧ tryInstrs[j]? = some i ∧ i.offset = (cfg.basicBlocks b).finalOffset
      ∧ EndCalled tryBody tryInstrs (visitedInstrs vs) k j i := by
  obtain ⟨m, cfg, hgraph, hfinals⟩ := tryBody_graph
  have hall : ∃ w ∈ run World.step (.init false true) caughtSchedule, ∃ result ∈ w.results,
      result.bytes.length < 2 ^ 31 ∧ result.methods = [(0, tryInfo)] := by
    decide +kernel
  obtain ⟨w, hrun, result, hresult, hlt, hmethods⟩ := hall
  have hnames : ∀ el ∈ result.methods, ClrName el.2.assemblyName ∧ ClrName el.2.moduleName := by
    rw [hmethods]
    exact clrName_try
  have hcalls : ∀ t p offset methodId, .call t (.probe p offset methodId) ∈ caughtSchedule →
      CollectedAs (caughtSchedule.filterMap Act.collected) 0x06000001 [70, 71, 72, 73] methodId →
      CalledInRun true tryBody tryInstrs p offset := fun _ _ _ _ hact _ => calledInRun_try hact
  let data : NetBytes := ⟨result.bytes, hlt⟩
  obtain ⟨_, visited, blocks, -, -, hvisited, hblocks⟩ := visited_blocks_called hgraph
    (count_of_finals hfinals) hrun (carries_trySchedule rfl (by decide +kernel)) hcalls hresult
    (show data.bytes = result.bytes from rfl) hnames
  refine ⟨m, cfg, w, result, visited, blocks, hgraph, hrun, hresult, hvisited, fun b hb => ?_⟩
  obtain ⟨-, vs, k, j, i, hmethod, hi, hfinal, hcalled, -⟩ := hblocks b hb
  exact ⟨vs, k, j, i, hmethod, hi, hfinal, hcalled⟩

end TestExecutor
