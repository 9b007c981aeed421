import Mathlib.Data.List.Sort
import TestExecutor.Library.HashSet
import TestExecutor.IL.MethodBody

/-!
# The control-flow graph

`CFG.fs`: the depth-first walk that cuts a method into basic blocks while it discovers them.
Objects are numbered in the order of their creation, the continuations of the source are returns,
and a failed assertion is an error.

* `BasicBlock`, `DfsState` — blocks, and the variables of `dfs`;
* `findFinalVertex`, `splitBasicBlock`, `makeNewBasicBlock`, `addEdge` — the local functions;
* `dfs'` — the walk;
* `CfgInfo`, `Method.cfgInfo` — the whole construction;
* `CfgInfo.resolveBasicBlockIndex` — the binary search;
* `CfgInfo.IsLoopEntry` — what the walk found of loops.
-/

namespace TestExecutor

open TestExecutor.Library

/-- A block; its outgoing edges are the set under the only terminal that is used. -/
structure BasicBlock where
  startOffset : ℕ
  finalOffset : ℕ
  incomingCFGEdges : HashSet ℕ
  outgoingEdges : Option (HashSet ℕ)

def BasicBlock.new (startOffset : ℕ) : BasicBlock := ⟨startOffset, startOffset, .empty, none⟩

/-- The variables of `dfs`; a block is named by its number. -/
structure DfsState where
  used : HashSet ℕ
  greyVertices : HashSet ℕ
  vertexToBasicBlock : ℕ → Option ℕ
  basicBlocks : ℕ → BasicBlock
  basicBlocksCount : ℕ
  sinks : List ℕ
  loopEntries : HashSet ℕ

namespace DfsState

def init : DfsState where
  used := .empty
  greyVertices := .empty
  vertexToBasicBlock := fun _ => none
  basicBlocks := fun _ => .new 0
  basicBlocksCount := 0
  sinks := []
  loopEntries := .empty

/-- Changes one block. -/
def modifyBlock (s : DfsState) (b : ℕ) (f : BasicBlock → BasicBlock) : DfsState :=
  { s with basicBlocks := Function.update s.basicBlocks b (f (s.basicBlocks b)) }

def setFinalOffset (s : DfsState) (b v : ℕ) : DfsState :=
  s.modifyBlock b fun block => { block with finalOffset := v }

end DfsState

/-- `assert (set.Add x)`. -/
def addNew (set : HashSet ℕ) (x : ℕ) : Except CfgError (HashSet ℕ) :=
  if x ∈ set then .error .assertFailed else .ok (set.insert x)

/-! ### Local functions of `dfs` -/

/-- The first loop of `findFinalVertex`: the last slot below `n` that holds the block. -/
def lastSlot (vertexToBasicBlock : ℕ → Option ℕ) (block : ℕ) : ℕ → Except CfgError ℕ
  | 0 => .error .indexOutOfRange
  | n + 1 =>
      if vertexToBasicBlock n = some block then .ok n else lastSlot vertexToBasicBlock block n

/-- The second loop: the last instruction at or before an index. -/
def lastInstr (offsetToInstr : Dictionary ℕ IlInstr) : ℕ → Except CfgError ℕ
  | 0 => if 0 ∈ offsetToInstr.keys then .ok 0 else .error .endlessLoop
  | n + 1 => if n + 1 ∈ offsetToInstr.keys then .ok (n + 1) else lastInstr offsetToInstr n

namespace Method

variable (m : Method)

def findFinalVertex (s : DfsState) (intermediatePoint block : ℕ) : Except CfgError ℕ := do
  let index ← lastSlot s.vertexToBasicBlock block intermediatePoint
  lastInstr m.offsetToInstr index

end Method

/-- One parent of a block that is split: its edge goes to the new block instead. -/
def redirectParent (block newBlock : ℕ) (s : DfsState) (parent : ℕ) : Except CfgError DfsState :=
  match (s.basicBlocks parent).outgoingEdges with
  | none => .error .assertFailed
  | some edges =>
      -- exactly one set holds the block
      if block ∉ edges then .error .assertFailed
      else do
        let edges ← addNew (edges.remove block) newBlock
        let s := s.modifyBlock parent fun b => { b with outgoingEdges := some edges }
        let incoming ← addNew (s.basicBlocks newBlock).incomingCFGEdges parent
        pure (s.modifyBlock newBlock fun b => { b with incomingCFGEdges := incoming })

namespace Method

variable (m : Method)

/-- The new block is the head, the old one stays the tail. -/
def splitBasicBlock (s : DfsState) (block intermediatePoint : ℕ) : Except CfgError DfsState := do
  let newBlock := s.basicBlocksCount
  let startOffset := (s.basicBlocks block).startOffset
  let s := { s with
    basicBlocks := Function.update s.basicBlocks newBlock (.new startOffset)
    basicBlocksCount := s.basicBlocksCount + 1 }
  let s := s.modifyBlock block fun b => { b with startOffset := intermediatePoint }
  let finalOffset ← m.findFinalVertex s intermediatePoint block
  let s := s.setFinalOffset newBlock finalOffset
  let s := { s with
    vertexToBasicBlock := fun v =>
      if startOffset ≤ v ∧ v < intermediatePoint then some newBlock else s.vertexToBasicBlock v }
  let s ← (s.basicBlocks block).incomingCFGEdges.elems.foldlM (redirectParent block newBlock) s
  let s := s.modifyBlock block fun b => { b with incomingCFGEdges := .singleton newBlock }
  pure (s.modifyBlock newBlock fun b => { b with outgoingEdges := some (.singleton block) })

/-- The block that starts at a vertex, and the state with it. -/
def makeNewBasicBlock (s : DfsState) (startVertex : ℕ) : Except CfgError (ℕ × DfsState) :=
  -- the array has one slot for each byte and one more
  if startVertex > m.bytecode.size then .error .indexOutOfRange
  else
    match s.vertexToBasicBlock startVertex with
    | none =>
        let newBasicBlock := s.basicBlocksCount
        .ok (newBasicBlock, { s with
          vertexToBasicBlock := Function.update s.vertexToBasicBlock startVertex (some newBasicBlock)
          basicBlocks := Function.update s.basicBlocks newBasicBlock (.new startVertex)
          basicBlocksCount := s.basicBlocksCount + 1 })
    | some block =>
        if (s.basicBlocks block).startOffset = startVertex then .ok (block, s)
        else do
          let s ← m.splitBasicBlock s block startVertex
          pure (block, s)

end Method

def addEdge (s : DfsState) (src dst : ℕ) : Except CfgError DfsState := do
  let incoming ← addNew (s.basicBlocks dst).incomingCFGEdges src
  let s := s.modifyBlock dst fun b => { b with incomingCFGEdges := incoming }
  match (s.basicBlocks src).outgoingEdges with
  | some edges => do
      let edges ← addNew edges dst
      pure (s.modifyBlock src fun b => { b with outgoingEdges := some edges })
  | none => pure (s.modifyBlock src fun b => { b with outgoingEdges := some (.singleton dst) })

/-! ### The walk -/

namespace Method

variable (m : Method)

/-- `dfs'` at a vertex that was visited before. -/
def revisit (s : DfsState) (currentBasicBlock currentVertex : ℕ) : Except CfgError DfsState := do
  match s.vertexToBasicBlock currentVertex with
  | none => .error .nullReference
  | some existingBasicBlock =>
      let s ←
        if currentBasicBlock ≠ existingBasicBlock then do
          let finalOffset ← m.findFinalVertex s currentVertex currentBasicBlock
          addEdge (s.setFinalOffset currentBasicBlock finalOffset) currentBasicBlock
            existingBasicBlock
        else pure s
      if currentVertex ∈ s.greyVertices then
        pure { s with loopEntries := s.loopEntries.insert currentVertex }
      else pure s

/-- `dfs'` enters a new vertex. -/
def enter (s : DfsState) (currentBasicBlock currentVertex : ℕ) : Except CfgError DfsState := do
  if currentVertex > m.bytecode.size then .error .indexOutOfRange
  else
    let greyVertices ← addNew s.greyVertices currentVertex
    let used ← addNew s.used currentVertex
    pure { s with
      vertexToBasicBlock :=
        Function.update s.vertexToBasicBlock currentVertex (some currentBasicBlock)
      greyVertices
      used }

end Method

/-- `dfs'` leaves a vertex: the continuation behind it. -/
def DfsState.leave (s : DfsState) (currentVertex : ℕ) : Except CfgError DfsState :=
  if currentVertex ∈ s.greyVertices then
    .ok { s with greyVertices := s.greyVertices.remove currentVertex }
  else .error .assertFailed

namespace Method

variable (m : Method)

/-- `dealWithJump`; `walk` is `dfs'`. -/
def dealWithJump (walk : ℕ → ℕ → DfsState → Except CfgError DfsState) (srcBasicBlock : ℕ)
    (s : DfsState) (dst : ℕ) : Except CfgError DfsState := do
  let (newBasicBlock, s) ← m.makeNewBasicBlock s dst
  let s ← addEdge s srcBasicBlock newBasicBlock
  walk newBasicBlock dst s

/-- The transition out of a vertex; `walk` is `dfs'`. -/
def transfer (walk : ℕ → ℕ → DfsState → Except CfgError DfsState)
    (currentBasicBlock currentVertex : ℕ) (s : DfsState) : Except CfgError DfsState := do
  match m.offsetToInstr.lookup currentVertex with
  | none => .error .keyNotFound
  | some instr =>
      let opCode := instr.opcode
      let ipTransition ← findNextInstructionOffsetAndEdges opCode m.bytecode currentVertex
      match ipTransition with
      | .fallThrough offset =>
          if isDemandingCallOpCode opCode then do
            let opCode' ← m.parseCallSite currentVertex
            if opCode' ≠ opCode then .error .assertFailed
            else
              m.dealWithJump walk currentBasicBlock
                (s.setFinalOffset currentBasicBlock currentVertex) offset
          else walk currentBasicBlock offset (s.setFinalOffset currentBasicBlock offset)
      | .exceptionMechanism => pure (s.setFinalOffset currentBasicBlock currentVertex)
      | .ret =>
          pure ({ s with sinks := s.sinks ++ [currentBasicBlock] }.setFinalOffset currentBasicBlock
            currentVertex)
      | .unconditionalBranch target =>
          m.dealWithJump walk currentBasicBlock
            (s.setFinalOffset currentBasicBlock currentVertex) target
      | .conditionalBranch fallThrough offsets =>
          (HashSet.ofList (fallThrough :: offsets)).elems.foldlM
            (m.dealWithJump walk currentBasicBlock)
            (s.setFinalOffset currentBasicBlock currentVertex)

/-- The walk; the recursion is as deep as there are vertices, at most. -/
def dfs' : ℕ → ℕ → ℕ → DfsState → Except CfgError DfsState
  | 0, _, _, _ => .error .outOfFuel
  | fuel + 1, currentBasicBlock, currentVertex, s =>
      if currentVertex ∈ s.used then m.revisit s currentBasicBlock currentVertex
      else do
        let s ← m.enter s currentBasicBlock currentVertex
        let s ← m.transfer (dfs' fuel) currentBasicBlock currentVertex s
        s.leave currentVertex

/-! ### The graph -/

/-- The vertices that the walk starts from. -/
def startVertices : List ℕ :=
  0 :: m.ehClauses.flatMap fun handler =>
    handler.handlerOffset ::
      match handler.ehcType with
      | .filter offset => [offset]
      | _ => []

def walkFrom (fuel : ℕ) (s : DfsState) (v : ℕ) : Except CfgError DfsState := do
  let (block, s) ← m.makeNewBasicBlock s v
  m.dfs' fuel block v s

/-- The loop of `GetInstructions`, up to the final offset. -/
def takeThrough (finalOffset : ℕ) : List IlInstr → Except CfgError (List IlInstr)
  | [] => .error .indexOutOfRange
  | instr :: instrs =>
      if instr.offset = finalOffset then .ok [instr]
      else do
        let rest ← takeThrough finalOffset instrs
        pure (instr :: rest)

/-- `GetInstructions` of a block. -/
def getInstructions (block : BasicBlock) : Except CfgError (List IlInstr) :=
  takeThrough block.finalOffset
    (m.instructions.dropWhile fun instr => instr.offset ≠ block.startOffset)

def blockSize (block : BasicBlock) : Except CfgError ℕ := do
  let instructions ← m.getInstructions block
  pure instructions.length

end Method

/-- What a `CfgInfo` holds; blocks are again named by their numbers. -/
structure CfgInfo where
  basicBlocks : ℕ → BasicBlock
  sortedBasicBlocks : List ℕ
  methodSize : ℕ
  sinks : List ℕ
  loopEntries : HashSet ℕ

namespace Method

variable (m : Method)

/-- The constructor of `CfgInfo`. -/
def cfgInfo (fuel : ℕ) : Except CfgError CfgInfo := do
  let s ← m.startVertices.foldlM (m.walkFrom fuel) .init
  let sorted := (List.range s.basicBlocksCount).insertionSort fun b b' =>
    (s.basicBlocks b).startOffset ≤ (s.basicBlocks b').startOffset
  let sizes ← sorted.mapM fun b => m.blockSize (s.basicBlocks b)
  pure ⟨s.basicBlocks, sorted, sizes.sum, s.sinks, s.loopEntries⟩

end Method

namespace CfgInfo

variable (cfg : CfgInfo)

/-- `sortedBasicBlocks.Count`. -/
def count : Int32 := Int32.ofNat cfg.sortedBasicBlocks.length

/-- `sortedBasicBlocks[i]`. -/
def sortedBlock (i : Int32) : Except CfgError ℕ :=
  if i < 0 then .error .indexOutOfRange
  else
    match cfg.sortedBasicBlocks[i.toNatClampNeg]? with
    | none => .error .indexOutOfRange
    | some block => .ok block

/-- `sortedBasicBlocks[i].StartOffset`. -/
def sortedStart (i : Int32) : Except CfgError ℕ := do
  let block ← cfg.sortedBlock i
  pure (cfg.basicBlocks block).startOffset

/-- `binSearch`; the bounds are `int`s, and their sum is not checked. -/
def binSearch (offset : ℕ) : ℕ → Int32 → Int32 → Except CfgError Int32
  | 0, _, _ => .error .outOfFuel
  | fuel + 1, l, r =>
      if l ≥ r then .ok l
      else do
        let mid := (l + r) / 2
        let midValue ← cfg.sortedStart mid
        let leftIsLefter := decide (midValue ≤ offset)
        let rightIsRighter ←
          if mid + 1 ≥ cfg.count then pure true
          else do
            let nextValue ← cfg.sortedStart (mid + 1)
            pure (decide (nextValue > offset))
        if leftIsLefter && rightIsRighter then .ok mid
        else if !rightIsRighter then binSearch offset fuel (mid + 1) r
        else binSearch offset fuel l (mid - 1)

/-- Every round takes at least one block out of the range. -/
def resolveBasicBlockIndex (offset : ℕ) : Except CfgError Int32 :=
  cfg.binSearch offset (cfg.sortedBasicBlocks.length + 1) 0 (cfg.count - 1)

def resolveBasicBlock (offset : ℕ) : Except CfgError ℕ := do
  let index ← cfg.resolveBasicBlockIndex offset
  cfg.sortedBlock index

def IsLoopEntry (offset : ℕ) : Prop := offset ∈ cfg.loopEntries

instance (offset : ℕ) : Decidable (cfg.IsLoopEntry offset) :=
  inferInstanceAs (Decidable (offset ∈ cfg.loopEntries))

end CfgInfo

end TestExecutor
