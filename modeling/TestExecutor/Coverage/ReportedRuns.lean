import Mathlib.Algebra.BigOperators.Fin
import Mathlib.Algebra.Order.BigOperators.Group.Finset
import Mathlib.Combinatorics.Enumerative.DoubleCounting
import TestExecutor.Coverage.VisitedBlocks
import TestExecutor.Profiler.Reported
import TestExecutor.Rewriter.RegionLayout

/-!
# Reported runs

The runs of a main method whose rewritten body was exported, on a thread that is tracked until it
pushes its report: every block that such a run completes has its record in the report, and is counted.

* `length_lt_of_exportBody`, `RewrittenBody.blocks_length` — an exported list has few enough blocks for
  the lookup of `CfgInfo`;
* `ExportedRun`, `callsOf` — the runs of an exported body, and what they call behind the entry;
* `BlockCompleted` — a run has completed a block;
* `completed_blocks_reported` — completed blocks are in the report, and are counted.
-/

namespace TestExecutor

open TestExecutor.Library ILRewriter InteractionCoverageTool

/-! ### The blocks of an exported list -/

/-- Probes take four nodes. -/
theorem PaddedWith.four_le_length {covProb : Probe → ProbeCall} {methodId : Int32}
    {probes : List (Probe × ℕ)} {nodes : List ILInstr} (h : PaddedWith covProb methodId probes nodes)
    (hne : probes ≠ []) : 4 ≤ nodes.length := by
  obtain ⟨items, -, hprobes, -, hnodes⟩ := h
  obtain ⟨q, hq⟩ := List.exists_mem_of_ne_nil _ hne
  rw [← hprobes] at hq
  obtain ⟨item, hitem, hprobe⟩ := List.mem_filterMap.mp hq
  obtain ⟨front, back, rfl⟩ := List.append_of_mem hitem
  have hlength := congrArg List.length hnodes
  rw [List.length_map, List.flatMap_append, List.flatMap_cons, List.length_append,
    List.length_append] at hlength
  cases item with
  | instr opcode arg => cases hprobe
  | probe p o =>
      have hfour : ((Item.probe p o).contents covProb methodId).length = 4 := rfl
      omega

/-- An instruction with a probe takes five. -/
theorem GroupOf.five_le_length {covProb : Probe → ProbeCall} {methodId : Int32} {t : ℕ → ℕ}
    {ann : Annotations} {i : RawInstr} {g : Group} (h : GroupOf covProb methodId t ann i g)
    (hprobes : ann.before ≠ [] ∨ ann.after ≠ none) : 5 ≤ g.nodes.length := by
  rw [Group.nodes, List.length_append, List.length_cons, List.length_append]
  rcases hprobes with hbefore | hafter
  · have hlead := h.lead.four_le_length hbefore
    omega
  · have htrail := h.trail.four_le_length fun hnil => hafter (Option.toList_eq_nil_iff.mp hnil)
    omega

namespace RewrittenBody

variable {covProb : Probe → ProbeCall} {methodId : Int32} {isMain : Bool} {body : MethodBody}
  {is : List RawInstr} {s' : ILRewriter} {enter : List ILInstr} {gs : List Group} {m : Method}
  {cfg : CfgInfo} (hr : RewrittenBody covProb methodId isMain body is s' enter gs)
  (h : ValidBody body is)

include hr h

/-- An exported list fits into the buffer, whose size has 32 bits. -/
theorem length_lt_of_exportBody {rounds : ℕ} {out : ExportedBody}
    (hout : s'.exportBody rounds = some (.ok out)) : s'.m_IL.length < 2 ^ 32 := by
  rw [exportBody] at hout
  cases hrounds : exportRounds s'.maxSize rounds s'.m_IL with
  | none => rw [hrounds] at hout; cases hout
  | some result =>
      cases result with
      | error e => rw [hrounds] at hout; cases hout
      | ok result =>
          obtain ⟨nodes, code⟩ := result
          obtain ⟨il, hwidened, hsize, -, -⟩ := exportRounds_ok rounds (hr.targetsInList h) hrounds
          have hpos : il.length ≤ totalSize il := by
            have hsum := List.length_le_sum_of_one_le (il.map ILInstr.byteSize) fun n hn => by
              obtain ⟨i, hi, rfl⟩ := List.mem_map.mp hn
              exact hr.sized_widened h hwidened i hi
            rwa [List.length_map] at hsum
          have hmax : s'.maxSize < 2 ^ 32 := Nat.mod_lt _ (by decide)
          rw [hwidened.length_eq]
          omega

variable (hplain : ∀ i ∈ is, i.opcode ≠ ceeTailcall ∧ i.opcode ≠ ceeJmp)
  (hcfg : CfgExact m body.eh is cfg)

include hplain hcfg

/-- The last instruction of every block has a probe. -/
theorem exists_final_group {b : ℕ} (hb : b ∈ cfg.sortedBasicBlocks) : ∃ (k : ℕ) (i : RawInstr)
    (g : Group), is[k]? = some i ∧ i.offset = (cfg.basicBlocks b).finalOffset ∧ gs[k]? = some g
      ∧ 5 ≤ g.nodes.length := by
  obtain ⟨k, i, hi, hfinal⟩ := hcfg.exists_final hb
  obtain ⟨g, hg, -⟩ := hr.getElem?_group hi
  refine ⟨k, i, g, hi, hfinal, hg, ?_⟩
  obtain ⟨-, hgroup⟩ := hr.groupOf_getElem? hi hg
  rw [← annotationAt_eq hi] at hgroup
  have hends := hcfg.final_cases h hb (List.mem_of_getElem? hi) hfinal
  refine hgroup.five_le_length ?_
  by_cases hbefore : (annotationAt (leaveMethod isMain) body is k).before = []
  · obtain ⟨p, hp⟩ := h.after_final hplain hi hends hbefore
    exact Or.inr (hp ▸ Option.some_ne_none _)
  · exact Or.inl hbefore

/-- So there are at least five times as many nodes as blocks. -/
theorem blocks_length : 5 * cfg.sortedBasicBlocks.length ≤ s'.m_IL.length := by
  have hcard : cfg.sortedBasicBlocks.toFinset.card
      ≤ {k : Fin gs.length | 5 ≤ gs[k].nodes.length}.toFinset.card := by
    refine Finset.card_le_card_of_forall_subsingleton
      (fun b k => ∃ i, is[k.1]? = some i ∧ i.offset = (cfg.basicBlocks b).finalOffset) ?_ ?_
    · intro b hb
      obtain ⟨k, i, g, hi, hfinal, hg, hfive⟩ :=
        hr.exists_final_group h hplain hcfg (List.mem_toFinset.mp hb)
      obtain ⟨hlt, rfl⟩ := List.getElem?_eq_some_iff.mp hg
      exact ⟨⟨k, hlt⟩, by simpa using hfive, i, hi, hfinal⟩
    · rintro k - b ⟨hb, i, hi, hfinal⟩ c ⟨hc, i', hi', hfinal'⟩
      have hb := List.mem_toFinset.mp hb
      have hc := List.mem_toFinset.mp hc
      obtain rfl := Option.some.inj (hi.symm.trans hi')
      -- no two blocks end with the same instruction
      exact hcfg.eq_of_overlap hb hc ⟨i, List.mem_of_getElem? hi, rfl⟩
        ⟨hfinal ▸ (hcfg.bounds b hb).2.2, le_of_eq hfinal⟩
        ⟨hfinal' ▸ (hcfg.bounds c hc).2.2, le_of_eq hfinal'⟩
  have hsum : 5 * {k : Fin gs.length | 5 ≤ gs[k].nodes.length}.toFinset.card
      ≤ ∑ k : Fin gs.length, gs[k].nodes.length := by
    rw [mul_comm, ← smul_eq_mul]
    refine (Finset.card_nsmul_le_sum _ (fun k => gs[k].nodes.length) 5 fun k hk => ?_).trans
      (Finset.sum_le_sum_of_subset (Finset.subset_univ _))
    simpa using hk
  have hnodes : ∑ k : Fin gs.length, gs[k].nodes.length = (gs.flatMap Group.nodes).length := by
    rw [List.length_flatMap]
    exact Fin.sum_univ_fun_getElem gs fun g => g.nodes.length
  rw [List.toFinset_card_of_nodup hcfg.nodup] at hcard
  rw [hr.list_eq, List.length_append]
  omega

/-- The lookup does not overflow. -/
theorem blocks_length_le {rounds : ℕ} {out : ExportedBody}
    (hout : s'.exportBody rounds = some (.ok out)) : cfg.sortedBasicBlocks.length ≤ 2 ^ 30 + 1 := by
  have hlt := hr.length_lt_of_exportBody h hout
  have hblocks := hr.blocks_length h hplain hcfg
  omega

end RewrittenBody

/-! ### What a run calls -/

variable {body : MethodBody} {is : List RawInstr} {m : Method} {cfg : CfgInfo} {methodId : Int32}
  {vs : List (MarkedInstr × Passage)} {j k b : ℕ}

/-- A run of a main method whose rewritten body was exported. -/
def ExportedRun (methodId : Int32) (body : MethodBody) (is : List RawInstr)
    (vs : List (MarkedInstr × Passage)) (k : ℕ) : Prop :=
  ∃ covProb s s' enter gs c rest rounds out, importBody body = .ok s
    ∧ s.rewriteIL covProb methodId true = .ok s' ∧ s'.exportBody rounds = some (.ok out)
    ∧ RewrittenBody covProb methodId true body is s' enter gs
    ∧ ListRun (markedList true body is 0 enter gs) s'.m_pEH vs (c :: rest)
    ∧ c.mark = some (.instr k)

theorem ExportedRun.methodRun (h : ExportedRun methodId body is vs k) : MethodRun true body is vs k := by
  obtain ⟨covProb, s, s', enter, gs, c, rest, rounds, out, hs, hrewrite, -, hr, hlist, hc⟩ := h
  exact ⟨covProb, methodId, s, s', enter, gs, c, rest, hs, hrewrite, hr, hlist, hc⟩

theorem GraphOf.blocks_length_le (h : GraphOf body is m cfg) (hrun : ExportedRun methodId body is vs k) :
    cfg.sortedBasicBlocks.length ≤ 2 ^ 30 + 1 := by
  obtain ⟨_, _, _, _, _, _, _, _, _, _, _, hout, hr, _⟩ := hrun
  exact hr.blocks_length_le h.valid h.plain h.exact hout

/-- When the export succeeds, every run of the original code is one of the exported body. -/
theorem GraphOf.exists_exportedRun (h : GraphOf body is m cfg) {covProb : Probe → ProbeCall}
    {s s' : ILRewriter} {rounds : ℕ} {out : ExportedBody} (hs : importBody body = .ok s)
    (hrewrite : s.rewriteIL covProb methodId true = .ok s') (hout : s'.exportBody rounds = some (.ok out))
    {ds : List (ℕ × Passage)} (hcode : CodeRun body is ds k) :
    ∃ vs, ExportedRun methodId body is vs k ∧ visitedInstrs vs = ds
      ∧ passed vs = runMarks true body is 0 ds
        ++ (annotationAt (leaveMethod true) body is k).before.map fun p => .call p.1 p.2 := by
  obtain ⟨s₁, s₁', enter, gs, hs₁, hrewrite₁, hr, hruns⟩ := h.exists_listRuns covProb methodId true
  obtain rfl := Except.ok.inj (hs.symm.trans hs₁)
  obtain rfl := Except.ok.inj (hrewrite.symm.trans hrewrite₁)
  obtain ⟨vs, c, rest, hlist, hc, hvisited, hpassed⟩ := hruns ds k hcode
  exact ⟨vs, ⟨covProb, s, s', enter, gs, c, rest, rounds, out, hs, hrewrite, hout, hr, hlist, hc⟩,
    hvisited, hpassed⟩

/-- The probes behind the entry are such that record for every tracked thread. -/
theorem GraphOf.recordsTracked (h : GraphOf body is m cfg) (hrun : MethodRun true body is vs k)
    {p : Probe} {o : ℕ} (hcall : .call p o ∈ (passed vs).tail) : p.RecordsTracked := by
  have plain : ∀ {p : Probe}, p.IsPlain → p.RecordsTracked := by
    intro p hp
    cases p with
    | enterMain | enter => exact absurd hp.1 (by decide)
    | leave => exact absurd hp.2.1 (by decide)
    | _ => trivial
  obtain ⟨_, _, _, _, _, _, _, _, hs, hrewrite, hr, hlist, hc⟩ := hrun
  obtain ⟨hcode, ⟨i, -, hi, -, -⟩, hpassed⟩ :=
    hr.codeRun_of_listRun h.valid (h.enter_eq hs hrewrite hr) hlist hc
  rw [hpassed, runMarks, List.cons_append, List.tail_cons, List.mem_append] at hcall
  rcases hcall with hcall | hcall
  · exact plain (runMarks_plain hcode true hcall)
  · have hbefore := mem_calls hcall
    rw [annotationAt_eq hi] at hbefore
    by_cases hret : i.opcode = ceeRet
    · rw [annotate_ret hret] at hbefore
      rcases List.mem_append.mp hbefore with hhandler | hleave
      · obtain ⟨q, hq, heq⟩ := List.mem_map.mp hhandler
        obtain ⟨rfl, -⟩ := Prod.mk.inj heq
        exact plain (handlerProbes_plain q hq)
      · split at hleave
        · exact absurd hleave List.not_mem_nil
        · obtain ⟨rfl, -⟩ := Prod.mk.inj (List.mem_singleton.mp hleave)
          trivial
    · exact plain ((annotate_plain hret (h.plain i (List.mem_of_getElem? hi)).1).1 _ hbefore)

/-- The call that a mark stands for. -/
def Mark.probeCall? (methodId : Int32) : Mark → Option (Probe × UInt32 × Int32)
  | .instr _ => none
  | .call p o => some (p, UInt32.ofNat o, methodId)

/-- The calls behind the one at the entry. -/
def callsBehindEntry (methodId : Int32) (vs : List (MarkedInstr × Passage)) : List (Probe × UInt32 × Int32) :=
  (passed vs).tail.filterMap (Mark.probeCall? methodId)

theorem mem_callsBehindEntry {p : Probe} {o : ℕ} (hcall : .call p o ∈ (passed vs).tail) :
    (p, UInt32.ofNat o, methodId) ∈ callsBehindEntry methodId vs :=
  List.mem_filterMap.mpr ⟨_, hcall, rfl⟩

/-! ### Completed blocks -/

/-- The run has executed the block to completion: control has come to its last instruction, and has
fallen on from it unless it is a terminator. -/
def BlockCompleted (cfg : CfgInfo) (is : List RawInstr) (ds : List (ℕ × Passage)) (k b : ℕ) : Prop :=
  ∃ (j : ℕ) (i : RawInstr), is[j]? = some i ∧ i.offset = (cfg.basicBlocks b).finalOffset
    ∧ Arrived ds k j ∧ (¬i.IsTerminator → (j, .fell) ∈ ds)

/-- **No completed block is missed.**  A thread makes the calls of a run of the exported main method
while it is tracked, up to where it pushes its report, and the report is delivered.  Then every block
that the run has completed has a record in the report, with the id of the method and the offset of the
last instruction of the block, and the coverage tool counts it. -/
theorem completed_blocks_reported {isPassiveRun collectMainOnly : Bool} {acts : List Act} {w : World}
    {token : Int32} {moduleName : List UInt16} {t : ThreadID} {threadId : Int32}
    {history : CoverageHistory} {result : HistoryResult} (h : GraphOf body is m cfg)
    (hmethod : ExportedRun methodId body is vs k)
    (hrun : run World.step (.init isPassiveRun collectMainOnly) acts = some w)
    (hcarries : Along World.step CarriesCollected (.init isPassiveRun collectMainOnly) acts)
    (hid : CollectedAs (acts.filterMap Act.collected) token moduleName methodId)
    (hcalls : ReportedCalls isPassiveRun collectMainOnly acts t (callsBehindEntry methodId vs) threadId
      history)
    (hresult : result ∈ w.results) (hreport : reportBuffer threadId (some history) ∈ result.reports) :
    ∀ b ∈ cfg.sortedBasicBlocks, BlockCompleted cfg is (visitedInstrs vs) k b →
      (∃ record ∈ history.records, record.methodId = methodId
        ∧ record.offset.toNat = (cfg.basicBlocks b).finalOffset)
      ∧ CountsBlock cfg token moduleName result b := by
  rintro b hb ⟨j, i, hi, hfinal, harrived, hleft⟩
  have hrunMethod := hmethod.methodRun
  obtain ⟨p, hcall⟩ := (h.passed_final_iff hrunMethod hb hi hfinal).mpr (.of_left harrived hleft)
  have hlt := h.call_offset_lt hrunMethod (List.mem_of_mem_tail hcall)
  obtain ⟨record, hrecord, -, heq⟩ :=
    hcalls.hasRecord (mem_callsBehindEntry hcall) (h.recordsTracked hrunMethod hcall)
  refine ⟨⟨record, hrecord, (Prod.mk.inj heq).2, ?_⟩,
    countsBlock_of_record h (h.blocks_length_le hmethod) hrun hcarries hid hresult hreport hrecord hlt
      heq hb hfinal.symm⟩
  rw [← hfinal, (Prod.mk.inj heq).1, UInt32.toNat_ofNat', Nat.mod_eq_of_lt (by omega)]

/-- `tryBody` is exported. -/
theorem tryBody_exported : ∃ s s' out, importBody tryBody = .ok s
    ∧ s.rewriteIL (fun _ => ⟨0, 0⟩) 0 true = .ok s' ∧ s'.exportBody 1 = some (.ok out) := by
  have hexport : ∃ s ∈ (importBody tryBody).toOption,
      ∃ s' ∈ (s.rewriteIL (fun _ => ⟨0, 0⟩) 0 true).toOption,
        ∃ result ∈ s'.exportBody 1, result.toOption.isSome := by
    decide +kernel
  obtain ⟨s, hs, s', hs', result, hresult, hsome⟩ := hexport
  obtain ⟨out, hout⟩ := Option.isSome_iff_exists.mp hsome
  obtain rfl := eq_ok_of_toOption hout
  exact ⟨s, s', out, eq_ok_of_toOption hs, eq_ok_of_toOption hs', hresult⟩

/-- What the report has when the call in the `try` has returned. -/
def returnedHistory : CoverageHistory where
  records := [⟨0, .enterMain, 1, 0⟩, ⟨0, .call, 1, 0⟩, ⟨5, .branchHit, 1, 0⟩, ⟨10, .leaveMain, 1, 0⟩]
  visitedMethods := {0}

/-- The call in the `try` returns: its block, which ends with it, is in the report. -/
theorem completed_blocks_reported_try : ∃ m cfg w result, GraphOf tryBody tryInstrs m cfg
    ∧ run World.step (.init false true) returnedSchedule = some w ∧ result ∈ w.results
    ∧ ∃ b ∈ cfg.sortedBasicBlocks, (cfg.basicBlocks b).finalOffset = 0
      ∧ CountsBlock cfg 0x06000001 [70, 71, 72, 73] result b := by
  obtain ⟨m, cfg, hgraph, hfinals⟩ := tryBody_graph
  obtain ⟨s, s', out, hs, hrewrite, hout⟩ := tryBody_exported
  have hcode : CodeRun tryBody tryInstrs [(0, .fell), (1, .jumped)] 4 :=
    (CodeRun.entry.step (.fall rfl (by decide) (by decide))).step
      (.jump rfl (by decide) (by decide +kernel))
  obtain ⟨vs, hmethod, hvisited, hpassed⟩ := hgraph.exists_exportedRun hs hrewrite hout hcode
  have hcalled : callsBehindEntry 0 vs = [(.call, 0, 0), (.branch, 5, 0), (.leaveMain, 10, 0)] := by
    rw [callsBehindEntry, hpassed]
    decide +kernel
  have hcalls : ReportedCalls false true returnedSchedule 1 (callsBehindEntry 0 vs) 0
      returnedHistory := by
    refine .of_take 7 15 (fun c hc => ?_) (by decide +kernel)
    rw [hcalled] at hc
    simp only [List.mem_cons, List.not_mem_nil, or_false] at hc
    rcases hc with rfl | rfl | rfl
    · exact List.mem_of_getElem? (i := 0) rfl
    · exact List.mem_of_getElem? (i := 3) rfl
    · exact List.mem_of_getElem? (i := 6) rfl
  have hall : ∃ w ∈ run World.step (.init false true) returnedSchedule, ∃ result ∈ w.results,
      reportBuffer 0 (some returnedHistory) ∈ result.reports := by
    decide +kernel
  obtain ⟨w, hrun, result, hresult, hreport⟩ := hall
  have hfirst : 0 ∈ cfg.sortedBasicBlocks.map fun b => (cfg.basicBlocks b).finalOffset := by
    rw [hfinals]
    exact List.mem_cons_self
  obtain ⟨b, hb, hfinal⟩ := List.mem_map.mp hfirst
  refine ⟨m, cfg, w, result, hgraph, hrun, hresult, b, hb, hfinal, ?_⟩
  have hcompleted : BlockCompleted cfg tryInstrs (visitedInstrs vs) 4 b := by
    rw [hvisited]
    exact ⟨0, _, rfl, hfinal.symm, Or.inr ⟨.fell, List.mem_cons_self⟩, fun _ => List.mem_cons_self⟩
  exact (completed_blocks_reported hgraph hmethod hrun (carries_trySchedule rfl (by decide +kernel))
    (collectedAs_try rfl) hcalls hresult hreport b hb hcompleted).2

end TestExecutor
