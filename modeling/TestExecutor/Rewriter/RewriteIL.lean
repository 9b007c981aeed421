import Mathlib.Data.Finset.Basic
import TestExecutor.IL.ControlFlow
import TestExecutor.Profiler.Probes
import TestExecutor.Rewriter.Import

/-!
# Inserting the probes

`RewriteIL` between `Import` and `Export`: a scan over the list collects where probes have to go, and
then they are inserted, those for branch targets last.

* `ProbeCall`, `ProbeInsertion` — what is called, and where;
* `addProbe`, `addEnterProbe`, `addCoverageProbeBefore`, `addCoverageProbeAfter`,
  `correctHandlers` — the insertions;
* `scanInstr`, `scanFrom` — the scan, whose rounds follow `m_pNext`;
* `insertPriorityProbes`, `insertTargetProbes`, `rerouteTailcallRet` — the two insertion loops;
* `rewriteIL` — everything together, up to the list that `Export` gets.

The sentinel has no opcode: `ImportIL` sets `m_IL.m_opcode` to -1.  Its other fields are never set.
-/

namespace TestExecutor

open TestExecutor.Library

/-- `ProbeCall`: the address, and the signature token for the calling thread. -/
structure ProbeCall where
  addr : ℕ
  sig : ℕ

/-- A node to insert at, the branch that asks for it, the probe, and the side. -/
structure ProbeInsertion where
  target : ℕ
  parent : ℕ
  probe : Probe
  isBeforeInstr : Bool
  deriving DecidableEq, Repr

/-- `OpcodeIsBranch`. -/
def opcodeIsBranch (opcode : ℕ) : Bool :=
  (decide (ceeBrS ≤ opcode) && decide (opcode ≤ ceeSwitch)) || decide (opcode = ceeLeave)
    || decide (opcode = ceeLeaveS)

namespace ILRewriter

/-! ### Insertions -/

/-- A new node in front of another one. -/
def newBefore (s : ILRewriter) (pWhere opcode arg : ℕ) : ILRewriter :=
  let (pNewInstr, s) := s.newILInstr
  s.insertBefore pWhere ⟨pNewInstr, opcode, 0, arg⟩

/-- A new node behind another one. -/
def newAfter (s : ILRewriter) (pWhere opcode arg : ℕ) : ILRewriter :=
  let (pNewInstr, s) := s.newILInstr
  s.insertAfter pWhere ⟨pNewInstr, opcode, 0, arg⟩

/-- `AddProbe`; `CEE_LDC_I` is `CEE_LDC_I8`. -/
def addProbe (s : ILRewriter) (probe : ProbeCall) (pInsertProbeBeforeThisInstr : ℕ) : ILRewriter :=
  (s.newBefore pInsertProbeBeforeThisInstr ceeLdcI8 probe.addr).newBefore
    pInsertProbeBeforeThisInstr ceeCalli probe.sig

/-- `AddLDCInstrBefore`. -/
def addLDCInstrBefore (s : ILRewriter) (pInstr arg : ℕ) : ILRewriter :=
  s.newBefore pInstr ceeLdcI4 (arg % 2 ^ 32)

/-- `CorrectHandlers`. -/
def correctHandlers (s : ILRewriter) (pInstr pNewInstr : ℕ) : ILRewriter :=
  { s with m_pEH := s.m_pEH.map fun clause =>
      if clause.m_pHandlerEnd = pInstr then { clause with m_pHandlerEnd := pNewInstr }
      else clause }

/-- A node that is not in the list is the sentinel, or there is none. -/
def noNode (p : ℕ) : RewriteError := if p = pIL then .unsetRead else .nullDereference

variable (covProb : Probe → ProbeCall) (methodId : Int32)

/-- `AddEnterProbe`. -/
def addEnterProbe (s : ILRewriter) (probe : Probe) : Except RewriteError ILRewriter :=
  let pFirstOriginalInstr := s.first
  match s.node pFirstOriginalInstr with
  | none => .error (noNode pFirstOriginalInstr)
  | some firstOriginalInstr =>
      let s := s.addLDCInstrBefore pFirstOriginalInstr firstOriginalInstr.m_offset
      let s := s.addLDCInstrBefore pFirstOriginalInstr methodId.toBitVec.toNat
      let s := s.newBefore pFirstOriginalInstr ceeLdcI40 0
      .ok (s.addProbe (covProb probe) pFirstOriginalInstr)

/-- `AddCoverageProbeAfter`: the probe stands in front of a new `nop`. -/
def addCoverageProbeAfter (s : ILRewriter) (pInstr : ℕ) (probe : Probe) :
    Except RewriteError ILRewriter :=
  match s.node pInstr with
  | none => .error (noNode pInstr)
  | some instr =>
      let pNewInstr := s.fresh
      let s := s.newAfter pInstr ceeNop 0
      let s := s.addLDCInstrBefore pNewInstr instr.m_offset
      let s := s.addLDCInstrBefore pNewInstr methodId.toBitVec.toNat
      let s := s.addProbe (covProb probe) pNewInstr
      .ok (s.correctHandlers pInstr pNewInstr)

/-- `AddCoverageProbeBefore`: the node becomes a `nop`, and its copy stands behind the probe. -/
def addCoverageProbeBefore (s : ILRewriter) (pInstr : ℕ) (probe : Probe) :
    Except RewriteError ILRewriter :=
  match s.node pInstr with
  | none => .error (noNode pInstr)
  | some instr =>
      let pNewInstr := s.fresh
      let s := s.newAfter pInstr instr.m_opcode instr.m_Arg64
      let s := s.modify pInstr fun i => { i with m_opcode := ceeNop }
      let s := s.addLDCInstrBefore pNewInstr instr.m_offset
      let s := s.addLDCInstrBefore pNewInstr methodId.toBitVec.toNat
      let s := s.addProbe (covProb probe) pNewInstr
      .ok (s.correctHandlers pInstr pNewInstr)

/-- `MakeProbeInsertion`. -/
def makeProbeInsertion (s : ILRewriter) (toInsert : ProbeInsertion) :
    Except RewriteError ILRewriter :=
  if toInsert.isBeforeInstr then
    s.addCoverageProbeBefore covProb methodId toInsert.target toInsert.probe
  else s.addCoverageProbeAfter covProb methodId toInsert.target toInsert.probe

/-! ### The scan -/

def opcodeAt (s : ILRewriter) (p : ℕ) : Option ℕ := (s.node p).map ILInstr.m_opcode

def offsetAt (s : ILRewriter) (p : ℕ) : ℕ := ((s.node p).map ILInstr.m_offset).getD 0

/-- `IsPrefix` of the node at an address. -/
def isPrefixAt (s : ILRewriter) (p : ℕ) : Bool :=
  match s.opcodeAt p with
  | none => false
  | some opcode => decide (IsPrefix opcode)

end ILRewriter

/-- The variables of the scan. -/
structure Scan where
  rewriter : ILRewriter
  isTailCall : Bool
  addPriorityProbe : List ProbeInsertion
  addTargetProbe : List ProbeInsertion

namespace Scan

def priority (st : Scan) (insertion : ProbeInsertion) : Scan :=
  { st with addPriorityProbe := st.addPriorityProbe ++ [insertion] }

/-- A probe behind the node in front of a branch target. -/
def target (st : Scan) (m_pTarget branch : ℕ) : Except RewriteError Scan :=
  if m_pTarget = nullPtr then .error .nullDereference
  else .ok { st with
    addTargetProbe :=
      st.addTargetProbe ++ [⟨st.rewriter.m_pPrev m_pTarget, branch, .coverage, false⟩] }

/-- The loop over the slots of a switch. -/
def switchTargets (branch : ℕ) : ℕ → ℕ → Scan → Except RewriteError Scan
  | 0, _, st => .ok st
  | n + 1, curSwitchArg, st =>
      match st.rewriter.node curSwitchArg with
      | none => .error (ILRewriter.noNode curSwitchArg)
      | some slot => do
          let st ← st.target slot.m_pTarget branch
          switchTargets branch n (st.rewriter.m_pNext curSwitchArg) st

/-- The number of rounds of a loop up to a signed word. -/
def loopBound (word : ℕ) : ℕ := if word < 2 ^ 31 then word else 0

/-- One round of the scan: the variables behind it, and `pInstr`. -/
def scanInstr (leaveMethod : Probe) (pInstr : ℕ) (instr : ILInstr) (st : Scan) :
    Except RewriteError (Scan × ℕ) :=
  let s := st.rewriter
  let opcode := instr.m_opcode
  if opcodeIsBranch opcode then
    let st := st.priority ⟨pInstr, nullPtr, .branch, true⟩
    if opcode = ceeSwitch then do
      let st ← switchTargets pInstr (loopBound instr.m_Arg32) (s.m_pNext pInstr) st
      pure (st, pInstr)
    else do
      let st ← st.target instr.m_pTarget pInstr
      pure (st, pInstr)
  else if opcode = ceeStsfld then
    let target := if s.isPrefixAt (s.m_pPrev pInstr) then s.m_pPrev pInstr else pInstr
    .ok (st.priority ⟨target, nullPtr, .stsfld, true⟩, pInstr)
  else if opcode = ceeTailcall then
    let newTailcall := s.fresh
    let s := (s.modify pInstr fun i => { i with m_opcode := ceeNop }).newAfter pInstr ceeTailcall 0
    let call := s.m_pNext newTailcall
    let s := s.modify newTailcall fun i => { i with m_offset := s.offsetAt call }
    let s := s.modify pInstr fun i => { i with m_offset := s.offsetAt (s.m_pNext call) }
    .ok ((({ st with rewriter := s, isTailCall := true }.priority
      ⟨newTailcall, nullPtr, .tailcall, true⟩).priority ⟨pInstr, nullPtr, .coverage, true⟩),
      newTailcall)
  else if opcode = ceeCall ∨ opcode = ceeCalli ∨ opcode = ceeCallvirt ∨ opcode = ceeNewobj then
    if st.isTailCall then .ok (st, pInstr)
    else .ok (st.priority ⟨pInstr, nullPtr, .call, false⟩, pInstr)
  else if opcode = ceeRet then
    if st.isTailCall then .ok ({ st with isTailCall := false }, pInstr)
    else .ok (st.priority ⟨pInstr, nullPtr, leaveMethod, true⟩, pInstr)
  else if opcode = ceeEndfinally ∨ opcode = ceeEndfilter then
    .ok (st.priority ⟨pInstr, nullPtr, .coverage, true⟩, pInstr)
  else if opcode = ceeThrow ∨ opcode = ceeRethrow then
    .ok (st.priority ⟨pInstr, nullPtr, .throw, true⟩, pInstr)
  else .ok (st, pInstr)

/-- The scan from a node on.  A round leaves the scan behind the node that it looked at, so the
nodes of the imported list are as many rounds as there can be. -/
def scanFrom (leaveMethod : Probe) : ℕ → ℕ → Scan → Except RewriteError Scan
  | 0, _, st => .ok st
  | fuel + 1, pInstr, st =>
      if pInstr = pIL then .ok st
      else match st.rewriter.node pInstr with
        | none => .error .nullDereference
        | some instr => do
            let (st, pInstr) ← scanInstr leaveMethod pInstr instr st
            scanFrom leaveMethod fuel (st.rewriter.m_pNext pInstr) st

end Scan

/-! ### The insertion loops -/

namespace ILRewriter

/-- `IsTailcallRet`. -/
def isTailcallRet (s : ILRewriter) (p : ℕ) : Bool :=
  decide (s.opcodeAt p = some ceeRet)
    && decide (s.opcodeAt (s.m_pPrev (s.m_pPrev p)) = some ceeTailcall)

variable (covProb : Probe → ProbeCall) (methodId : Int32)

/-- The loop over `addPriorityProbe`, which collects `coveredInstructions`. -/
def insertPriorityProbes : List ProbeInsertion → ILRewriter → Finset ℕ →
    Except RewriteError (ILRewriter × Finset ℕ)
  | [], s, covered => .ok (s, covered)
  | insertion :: rest, s, covered => do
      let s ← s.makeProbeInsertion covProb methodId insertion
      insertPriorityProbes rest s (insert (s.offsetAt insertion.target) covered)

/-- A branch to the `ret` of a tail call gets a `ret` of its own behind it. -/
def rerouteTailcallRet (s : ILRewriter) (leaveMethod : Probe) (target branch : ℕ) : ILRewriter :=
  let pNewRet := s.fresh
  let s := s.newAfter branch ceeRet 0
  let probeStart := s.fresh
  let s := s.addLDCInstrBefore pNewRet (s.offsetAt target)
  let s := s.addLDCInstrBefore pNewRet methodId.toBitVec.toNat
  let s := s.addProbe (covProb leaveMethod) pNewRet
  let s := s.modify branch fun i => { i with m_Arg64 := probeStart }
  if s.opcodeAt branch = some ceeBr ∨ s.opcodeAt branch = some ceeBrS then s
  else s.newAfter branch ceeBr (s.m_pNext pNewRet)

/-- The loop over `addTargetProbe`. -/
def insertTargetProbes (leaveMethod : Probe) : List ProbeInsertion → ILRewriter → Finset ℕ →
    Except RewriteError ILRewriter
  | [], s, _ => .ok s
  | insertion :: rest, s, covered =>
      let target := insertion.target
      if target = pIL ∨ s.offsetAt target ∈ covered then
        insertTargetProbes leaveMethod rest s covered
      else
        let covered := insert (s.offsetAt target) covered
        if !s.isTailcallRet (s.m_pNext target) then do
          let s ← s.addCoverageProbeAfter covProb methodId target insertion.probe
          insertTargetProbes leaveMethod rest s covered
        else
          insertTargetProbes leaveMethod rest
            (s.rerouteTailcallRet covProb methodId leaveMethod target insertion.parent) covered

/-- `enterMethod` and `leaveMethod`. -/
def enterMethod (isMain : Bool) : Probe := if isMain then .enterMain else .enter

def leaveMethod (isMain : Bool) : Probe := if isMain then .leaveMain else .leave

/-- `RewriteIL` on an imported list, up to the list that `Export` gets. -/
def rewriteIL (s : ILRewriter) (isMain : Bool) : Except RewriteError ILRewriter := do
  let s := s.countOffsets
  let st ← Scan.scanFrom (leaveMethod isMain) s.m_IL.length s.first ⟨s, false, [], []⟩
  let handlers := st.rewriter.m_pEH.map fun clause =>
    (⟨clause.m_pHandlerBegin, nullPtr, .throw, true⟩ : ProbeInsertion)
  let (s, covered) ←
    insertPriorityProbes covProb methodId (st.addPriorityProbe ++ handlers) st.rewriter ∅
  let s ← insertTargetProbes covProb methodId (leaveMethod isMain) st.addTargetProbe s covered
  s.addEnterProbe covProb methodId (enterMethod isMain)

end ILRewriter

end TestExecutor
