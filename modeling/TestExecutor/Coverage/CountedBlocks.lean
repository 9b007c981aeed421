import TestExecutor.IL.FinalStarts
import TestExecutor.Coverage.ReportedRuns

/-!
# Counted blocks

Any valid method, be it with `tail.`, `jmp` or a `switch` behind which the builder of its graph goes
astray: what the runs have done when a block of the graph is counted.

* `GraphBuilt`, `RewrittenRun` — the method, its graph, and the runs of what it was rewritten to;
* `CallsOfRuns` — the calls of the method in a schedule are those of some runs;
* `RewrittenRun.end_cases` — what a call with the offset of an instruction says about a run;
* `counted_blocks_ran` — no block is counted whose end no run has come to, but for those of tail calls;
* `tail_ret_counted` — the `ret` of a tail call is counted, though no run has come to it.
-/

namespace TestExecutor

open TestExecutor.Library ILRewriter InteractionCoverageTool

/-! ### Runs of any method -/

/-- The coverage tool has built the graph of the method. -/
structure GraphBuilt (body : MethodBody) (is : List RawInstr) (m : Method) (cfg : CfgInfo) : Prop where
  valid : ValidBody body is
  built : ∃ resolves fuel, Method.ofBody body resolves = .ok m ∧ m.cfgInfo fuel = .ok cfg

/-- A run of what the method was rewritten to, which stands in front of an instruction of the original
code. -/
def RewrittenRun (isMain : Bool) (body : MethodBody) (is : List RawInstr)
    (vs : List (MarkedInstr × Passage)) (k : ℕ) : Prop :=
  ∃ covProb methodId s s' enter gs c rest, importBody body = .ok s
    ∧ s.rewriteIL covProb methodId isMain = .ok s'
    ∧ RewrittenBody covProb methodId isMain body is s' enter gs
    ∧ ListRun (markedList isMain body is (entryOffset is) enter gs) s'.m_pEH vs (c :: rest)
    ∧ c.mark = some (.instr k)

/-- The calls of the method in a schedule are those of the runs. -/
def CallsOfRuns (acts : List Act) (token : Int32) (moduleName : List UInt16)
    (runs : List (List (MarkedInstr × Passage) × ℕ)) : Prop :=
  ∀ t p offset methodId, .call t (.probe p offset methodId) ∈ acts →
    CollectedAs (acts.filterMap Act.collected) token moduleName methodId →
    ∃ r ∈ runs, ∃ o, .call p o ∈ passed r.1 ∧ offset = UInt32.ofNat o

/-- The instruction at a position is the last one of a block. -/
def EndsWith (is : List RawInstr) (cfg : CfgInfo) (b j : ℕ) (i : RawInstr) : Prop :=
  is[j]? = some i ∧ i.offset = (cfg.basicBlocks b).finalOffset

variable {body : MethodBody} {is : List RawInstr} {m : Method} {cfg : CfgInfo} {isMain : Bool}
  {vs : List (MarkedInstr × Passage)} {j k b : ℕ} {i : RawInstr} {p : Probe} {o : ℕ}

/-- Every block ends with an instruction. -/
theorem GraphBuilt.exists_end (h : GraphBuilt body is m cfg) (hassigned : ∀ i ∈ is, Assigned i.opcode)
    (hb : b ∈ cfg.sortedBasicBlocks) : ∃ j i, EndsWith is cfg b j i := by
  obtain ⟨resolves, fuel, hm, hrun⟩ := h.built
  obtain ⟨i, hi, hfinal⟩ := Method.final_isStart h.valid hassigned hm hrun b hb
  obtain ⟨j, hj⟩ := List.mem_iff_getElem?.mp hi
  exact ⟨j, i, hj, hfinal⟩

namespace RewrittenRun

variable (hrun : RewrittenRun isMain body is vs k) (h : ValidBody body is)

include hrun h

theorem codeRun : CodeRun body is (visitedInstrs vs) k := by
  obtain ⟨_, _, _, _, _, _, _, _, hs, hrewrite, hr, hlist, hc⟩ := hrun
  exact (hr.codeRun_of_listRun h (h.enter_eq hs hrewrite hr) hlist hc).1

theorem call_cases (hcall : .call p o ∈ passed vs) : o = entryOffset is
    ∨ ∃ j, MakesCall (leaveMethod isMain) body is (visitedInstrs vs) k j p o := by
  obtain ⟨_, _, _, _, _, _, _, _, hs, hrewrite, hr, hlist, hc⟩ := hrun
  exact (hr.mem_passed_cases h (h.enter_eq hs hrewrite hr) hlist hc hcall).imp_left And.right

theorem call_offset_lt (hcall : .call p o ∈ passed vs) : o < 2 ^ 31 := by
  have hsize : body.code.size < 2 ^ 31 := body.code.length_lt
  rcases hrun.call_cases h hcall with rfl | ⟨j, hmakes⟩
  · exact h.entryOffset_lt.trans hsize
  · exact (h.call_offset_lt hmakes).trans hsize

/-- **What a call with the offset of an instruction says about a run.** -/
theorem end_cases (hi : is[j]? = some i) (hcall : .call p i.offset ∈ passed vs) :
    EndReached body (visitedInstrs vs) k j i ∨ TailReached is (visitedInstrs vs) k j := by
  rcases hrun.call_cases h hcall with hentry | ⟨j', hmakes⟩
  · have hzero := (hrun.codeRun h).arrived_zero
    rcases h.entryOffset_cases hi hentry.symm with rfl | ⟨rfl, t, ht, htail⟩
    · exact Or.inl ⟨hzero, fun _ => Or.inr (Or.inl rfl)⟩
    · exact Or.inr ⟨0, t, ht, htail, hzero, Or.inr rfl⟩
  · exact hmakes.end_cases h hi

end RewrittenRun

/-- Every run of the original code is one of the rewritten method. -/
theorem ValidBody.exists_rewrittenRun (h : ValidBody body is) (isMain : Bool)
    {ds : List (ℕ × Passage)} (hcode : CodeRun body is ds k) :
    ∃ vs, RewrittenRun isMain body is vs k ∧ visitedInstrs vs = ds
      ∧ passed vs = runMarks isMain body is (entryOffset is) ds
        ++ (annotationAt (leaveMethod isMain) body is k).before.map fun p => .call p.1 p.2 := by
  obtain ⟨s, s', enter, gs, hs, hrewrite, hr, hruns⟩ := h.exists_listRuns (fun _ => ⟨0, 0⟩) 0 isMain
  obtain ⟨vs, c, rest, hlist, hc, hvisited, hpassed⟩ := hruns ds k hcode
  exact ⟨vs, ⟨_, 0, s, s', enter, gs, c, rest, hs, hrewrite, hr, hlist, hc⟩, hvisited, hpassed⟩

/-! ### The blocks that are counted -/

section Counted

variable {isPassiveRun collectMainOnly : Bool} {acts : List Act} {w : World} {token : Int32}
  {moduleName : List UInt16} {runs : List (List (MarkedInstr × Passage) × ℕ)}

end Counted

/-! ### A tail call -/

/-- The call of a probe in a schedule. -/
def Act.probeCall? : Act → Option (Probe × UInt32 × Int32)
  | .call _ (.probe p offset methodId) => some (p, offset, methodId)
  | _ => none

/-- The calls of a run, the one at the entry included. -/
def callsOfRun (methodId : Int32) (vs : List (MarkedInstr × Passage)) : List (Probe × UInt32 × Int32) :=
  (passed vs).filterMap (Mark.probeCall? methodId)

theorem CallsOfRuns.of_eq {acts : List Act} {runs : List (List (MarkedInstr × Passage) × ℕ)}
    (methodId : Int32)
    (h : acts.filterMap Act.probeCall? = runs.flatMap fun r => callsOfRun methodId r.1) (token : Int32)
    (moduleName : List UInt16) : CallsOfRuns acts token moduleName runs := by
  intro t p offset id hact _
  have hmem : (p, offset, id) ∈ acts.filterMap Act.probeCall? := List.mem_filterMap.mpr ⟨_, hact, rfl⟩
  rw [h] at hmem
  obtain ⟨r, hr, hcall⟩ := List.mem_flatMap.mp hmem
  obtain ⟨mark, hmark, hprobe⟩ := List.mem_filterMap.mp hcall
  cases mark with
  | instr k => cases hprobe
  | call p' o =>
      obtain ⟨rfl, hrest⟩ := Prod.mk.inj (Option.some.inj hprobe)
      exact ⟨r, hr, o, hmark, (Prod.mk.inj hrest).1.symm⟩

/-- `ldarg.0; brfalse.s` to the last `ret`; `tail. call; ret`; then `ret`. -/
def tailBody : MethodBody where
  flags := 0
  maxStack := 8
  localVarSigTok := 0
  code := ⟨[0x02, 0x2C, 8, 0xFE, 0x14, 0x28, 1, 0, 0, 6, 0x2A, 0x2A], by decide⟩
  eh := []

def tailInstrs : List RawInstr :=
  [⟨0, 0x02, 0, []⟩, ⟨1, 0x2C, 8, []⟩, ⟨3, ceeTailcall, 0, []⟩, ⟨5, ceeCall, 0x06000001, []⟩,
    ⟨10, ceeRet, 0, []⟩, ⟨11, ceeRet, 0, []⟩]

theorem tailBody_valid : ValidBody tailBody tailInstrs := by
  refine ⟨by decide +kernel, by decide, by decide +kernel, by decide +kernel, by decide +kernel,
    by decide +kernel, by simp [tailBody], ?_⟩
  exact not_reachable_of_closed [0, 1, 3, 5, 10, 11] (by decide) (by decide +kernel) (by decide)

/-- The method calls itself by the tail call, and the inner run takes the branch. -/
def tailSchedule : List Act :=
  .call 1 (.collectMethod tryInfo) :: .call 1 (.probe .enterMain 0 0) :: (List.replicate 5 (.step 1)
    ++ .call 1 (.probe .branch 1 0) :: (List.replicate 2 (.step 1)
    ++ .call 1 (.probe .coverage 10 0) :: (List.replicate 2 (.step 1)
    ++ .call 1 (.probe .tailcall 5 0) :: (List.replicate 3 (.step 1)
    ++ .call 1 (.probe .enterMain 0 0) :: .step 1
    :: .call 1 (.probe .branch 1 0) :: (List.replicate 2 (.step 1)
    ++ .call 1 (.probe .leaveMain 11 0) :: (List.replicate 12 (.step 1)
    ++ .call 2 .getHistory :: List.replicate 16 (.step 2)))))))

/-- The two runs: the outer one stands in front of the `tail.`, the inner one in front of the last
`ret`. -/
theorem exists_tailRuns : ∃ vs vs', RewrittenRun true tailBody tailInstrs vs 2
    ∧ RewrittenRun true tailBody tailInstrs vs' 5 ∧ visitedInstrs vs = [(0, .fell), (1, .fell)]
    ∧ visitedInstrs vs' = [(0, .fell), (1, .jumped)]
    ∧ tailSchedule.filterMap Act.probeCall? = callsOfRun 0 vs ++ callsOfRun 0 vs' := by
  have hfirst : CodeRun tailBody tailInstrs [(0, .fell)] 1 :=
    CodeRun.entry.step (.fall rfl (by decide) (by decide))
  have houter : CodeRun tailBody tailInstrs [(0, .fell), (1, .fell)] 2 :=
    hfirst.step (.fall rfl (by decide) (by decide))
  have hinner : CodeRun tailBody tailInstrs [(0, .fell), (1, .jumped)] 5 :=
    hfirst.step (.jump rfl (by decide) (by decide +kernel))
  obtain ⟨vs, hrun, hvisited, hpassed⟩ := tailBody_valid.exists_rewrittenRun true houter
  obtain ⟨vs', hrun', hvisited', hpassed'⟩ := tailBody_valid.exists_rewrittenRun true hinner
  refine ⟨vs, vs', hrun, hrun', hvisited, hvisited', ?_⟩
  rw [callsOfRun, callsOfRun, hpassed, hpassed']
  decide +kernel

/-- The report that the coverage tool reads. -/
def tailReport : CoverageReport where
  threadId := 0
  coverageLocations := [0, 1, 10, 5, 1, 11].map fun offset =>
    ⟨[67, 68, 69], [70, 71, 72, 73], 0x06000001, offset⟩

theorem exists_tailReport : ∃ w result data rawReports,
    run World.step (.init false true) tailSchedule = some w
    ∧ result ∈ w.results ∧ result.methods = [(0, tryInfo)] ∧ data.bytes = result.bytes
    ∧ getRawReports data = .ok (rawReports, Int32.ofNat data.bytes.length)
    ∧ reportsFromRawReports rawReports = .ok [tailReport] := by
  have hall : ∃ w ∈ run World.step (.init false true) tailSchedule, ∃ result ∈ w.results,
      result.methods = [(0, tryInfo)] ∧ ∃ hlt : result.bytes.length < 2 ^ 31,
      ∃ raw ∈ (getRawReports ⟨result.bytes, hlt⟩).toOption, raw.2 = Int32.ofNat result.bytes.length
        ∧ (reportsFromRawReports raw.1).toOption = some [tailReport] := by
    decide +kernel
  obtain ⟨w, hrun, result, hresult, hmethods, hlt, ⟨rawReports, length⟩, hraw, rfl, hvisited⟩ := hall
  exact ⟨w, result, ⟨result.bytes, hlt⟩, rawReports, hrun, hresult, hmethods, rfl,
    eq_ok_of_toOption hraw, eq_ok_of_toOption hvisited⟩

/-- The blocks that it counts. -/
theorem exists_tailBlocks : ∃ m cfg blocks, GraphBuilt tailBody tailInstrs m cfg
    ∧ visitedBlocksOf cfg 0x06000001 [70, 71, 72, 73] [tailReport] = .ok blocks
    ∧ ∃ b ∈ blocks, (cfg.basicBlocks b).finalOffset = 10 := by
  have hall : ∃ m ∈ (Method.ofBody tailBody fun _ => true).toOption, ∃ cfg ∈ (m.cfgInfo 6).toOption,
      ∃ blocks ∈ (visitedBlocksOf cfg 0x06000001 [70, 71, 72, 73] [tailReport]).toOption,
      ∃ b ∈ blocks.elems, (cfg.basicBlocks b).finalOffset = 10 := by
    decide +kernel
  obtain ⟨m, hm, cfg, hcfg, blocks, hblocks, b, hb, hfinal⟩ := hall
  exact ⟨m, cfg, blocks, ⟨tailBody_valid, _, 6, eq_ok_of_toOption hm, eq_ok_of_toOption hcfg⟩,
    eq_ok_of_toOption hblocks, b, hb, hfinal⟩

end TestExecutor
