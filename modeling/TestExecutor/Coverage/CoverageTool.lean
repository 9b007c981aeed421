import TestExecutor.Coverage.Deserializer
import TestExecutor.IL.Cfg
import TestExecutor.Library.Doubles

/-!
# The coverage tool

`CoverageTool.fs`: the bytes of `GetHistory` are read back, the locations of one method are looked up
in its control-flow graph, and the sizes of the blocks that were found are compared with its size.

* `ToolError` — what can be thrown;
* `getRawHistory` — the array of `GetHistory`;
* `visitLocation`, `visitedBlocksOf` — the loops over the reports;
* `getCoverageInfo` — the text about the blocks;
* `percentage`, `computeCoverage` — the result.
-/

namespace TestExecutor

open TestExecutor.Library

/-- What `ComputeCoverage` can throw. -/
inductive ToolError where
  | internalException (message : String)
  | failure (message : String)
  | net (e : NetException)
  | cfg (e : CfgError)
  deriving DecidableEq, Repr

/-- The exceptions of a part of the computation. -/
def ToolError.lift {E A : Type} (f : E → ToolError) : Except E A → Except ToolError A
  | .error e => .error (f e)
  | .ok a => .ok a

namespace InteractionCoverageTool

/-- `GetRawHistory`; the size of the array comes back as a 32-bit word. -/
def getRawHistory (entryMainWasSet : Bool) (history : List UInt8) : Except ToolError NetBytes :=
  if !entryMainWasSet then
    .error (.internalException "Try call GetRawHistory, while entryMain wasn't set")
  else
    let size := Int32.ofNat history.length
    -- `Array.zeroCreate` of the size
    if size < 0 then .error (.net .overflow)
    else .ok ⟨history.take size.toNatClampNeg, by
      have hlt := Int32.toInt_lt size
      rw [List.length_take, Int32.toNatClampNeg]
      omega⟩

variable (cfg : CfgInfo)

/-- The body of the inner loop.  No start of a block is below 0, so an offset below it is looked up
like 0. -/
def visitLocation (token : Int32) (moduleName : List UInt16) (visitedBlocks : HashSet ℕ)
    (loc : CoverageLocation) : Except CfgError (HashSet ℕ) :=
  if loc.methodToken = token ∧ loc.moduleName = moduleName then do
    let offset := loc.offset
    let block ← cfg.resolveBasicBlock offset.toNatClampNeg
    if ((cfg.basicBlocks block).finalOffset : ℤ) = offset.toInt then
      pure (visitedBlocks.insert block)
    else pure visitedBlocks
  else pure visitedBlocks

/-- The loops over the reports. -/
def visitedBlocksOf (token : Int32) (moduleName : List UInt16) (visited : List CoverageReport) :
    Except CfgError (HashSet ℕ) :=
  visited.foldlM (fun visitedBlocks coverageReport =>
    coverageReport.coverageLocations.foldlM (visitLocation cfg token moduleName) visitedBlocks) .empty

/-! ### The text -/

/-- `{offset:X}`. -/
def hexadecimal (offset : ℕ) : String := (String.ofList (Nat.toDigits 16 offset)).toUpper

variable (m : Method) (newLine : String) (opCodeName : ℕ → String)

/-- The lines about a block, in which `newLine` is that of the platform, and `opCodeName` is
`OpCode.Name`. -/
def blockInfo (block : BasicBlock) : Except CfgError String := do
  let instructions ← m.getInstructions block
  pure ("Block [0x" ++ hexadecimal block.startOffset ++ " .. 0x" ++ hexadecimal block.finalOffset
    ++ "] not covered" ++ newLine
    ++ String.join (instructions.map fun inst => opCodeName inst.opcode ++ newLine))

/-- One round of the loop of `getCoverageInfo`, over the text and `allCovered`. -/
def addBlockInfo (visited : HashSet ℕ) (sb : String × Bool) (block : ℕ) :
    Except CfgError (String × Bool) :=
  if block ∉ visited then do
    let lines ← blockInfo m newLine opCodeName (cfg.basicBlocks block)
    pure (sb.1 ++ lines, false)
  else pure sb

def getCoverageInfo (allBlocks : List ℕ) (visited : HashSet ℕ) : Except CfgError String := do
  let (sb, allCovered) ← allBlocks.foldlM (addBlockInfo cfg m newLine opCodeName visited) ("", true)
  pure (if allCovered then sb ++ ("All blocks are covered" ++ newLine) else sb)

/-! ### The result -/

/-- `(double coveredSize) / (double methodSize) * 100. |> int`.  No method is empty. -/
def percentage (coveredSize methodSize : ℕ) : Int32 :=
  Int32.ofInt ⌊roundDouble (roundDouble (coveredSize / methodSize) * 100)⌋

/-- `ComputeCoverage`: the percentage and the text; `token` and `moduleName` are those of the
method of the graph. -/
def computeCoverage (entryMainWasSet : Bool) (history : List UInt8) (token : Int32)
    (moduleName : List UInt16) : Except ToolError (Int32 × String) := do
  let data ← getRawHistory entryMainWasSet history
  let (rawReports, _) ← ToolError.lift .failure (getRawReports data)
  let visited ← ToolError.lift .net (reportsFromRawReports rawReports)
  let visitedBlocks ← ToolError.lift .cfg (visitedBlocksOf cfg token moduleName visited)
  let sizes ← ToolError.lift .cfg
    (visitedBlocks.elems.mapM fun block => m.blockSize (cfg.basicBlocks block))
  let coveredSize := sizes.sum
  let info ← ToolError.lift .cfg
    (getCoverageInfo cfg m newLine opCodeName cfg.sortedBasicBlocks visitedBlocks)
  pure (percentage coveredSize cfg.methodSize, info)

end InteractionCoverageTool

end TestExecutor
