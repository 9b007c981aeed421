import TestExecutor.Rewriter.Import

/-!
# Exporting the instruction list

`ILRewriter::Export`: the nodes get their byte offsets and their bytes, the branch operands are
patched in, and everything is done again as long as a short branch had to be widened.

* `emit` — the first pass: offsets, and bytes with room for the branch operands;
* `resolve` — the second pass: branch operands and switch slots, and the widening of the short
  branches that do not reach;
* `exportRounds` — the `again` loop, as many rounds as it is given;
* `exportBody` — the method body behind it, with its exception clauses.
-/

namespace TestExecutor

open TestExecutor.Library

/-! ### The first pass -/

/-- The bytes of an opcode; a switch slot has none. -/
def opcodeBytes (opcode : ℕ) : List UInt8 :=
  if opcode < ceeCount then
    (if opcode ≥ 0x100 then [UInt8.ofNat ceePrefix1] else []) ++ [UInt8.ofNat opcode]
  else []

/-- The bytes of an operand; those of a branch are written by the second pass. -/
def operandBytes (i : ILInstr) : List UInt8 :=
  match opCodeFlags i.m_opcode with
  | .arg0 => []
  | .arg8 => leBytes 1 i.m_Arg8
  | .arg16 => leBytes 2 i.m_Arg16
  | .arg32 => leBytes 4 i.m_Arg32
  | .arg64 => leBytes 8 i.m_Arg64
  | .branch8 => leBytes 1 0
  | .branch32 => leBytes 4 0
  | .switch => leBytes 4 i.m_Arg32

/-- The first pass, from a byte offset on.  Writing behind the buffer is an error. -/
def emit (maxSize : ℕ) : ℕ → List ILInstr → Except RewriteError (List ILInstr × List UInt8)
  | _, [] => .ok ([], [])
  | offset, i :: is =>
      if offset + i.byteSize > maxSize then .error .bufferOverrun
      else do
        let (nodes, bytes) ← emit maxSize (offset + i.byteSize) is
        pure ({ i with m_offset := offset } :: nodes,
          opcodeBytes i.m_opcode ++ operandBytes i ++ bytes)

/-! ### The second pass -/

/-- `pTarget->m_offset - base`, as an unsigned word. -/
def offsetDelta (target base : ℕ) : ℕ := (target + (2 ^ 32 - base % 2 ^ 32)) % 2 ^ 32

/-- `(INT8)delta == delta`. -/
def fitsInt8 (delta : ℕ) : Bool := delta < 2 ^ 7 || 2 ^ 32 - 2 ^ 7 ≤ delta

/-- The long form of a short branch. -/
def widenOpcode (opcode : ℕ) : ℕ :=
  if opcode = ceeLeaveS then ceeLeave else opcode - ceeBrS + ceeBr

/-- Overwrites `w` bytes at `p`. -/
def patchBytes (bytes : List UInt8) (p w v : ℕ) : List UInt8 :=
  bytes.take p ++ leBytes w v ++ bytes.drop (p + w)

/-- The byte offset of a node, or of the end for the sentinel; no other pointer can be followed. -/
def nodeOffset (nodes : List ILInstr) (endOffset : ℕ) (p : ℕ) : Except RewriteError ℕ :=
  if p = pIL then .ok endOffset
  else
    match findNode ILInstr.addr p nodes with
    | none => .error .nullDereference
    | some i => .ok i.m_offset

/-- The offset of the first node of a list, or of the sentinel behind it. -/
def headOffset (endOffset : ℕ) : List ILInstr → ℕ
  | [] => endOffset
  | i :: _ => i.m_offset

/-- The second pass over the rest of the list: the nodes, the bytes, and whether a branch was
widened.  `offsetOf` reads `m_offset` through a pointer. -/
def resolve (offsetOf : ℕ → Except RewriteError ℕ) (endOffset : ℕ) :
    ℕ → List ILInstr → List UInt8 → Except RewriteError (List ILInstr × List UInt8 × Bool)
  | _, [], bytes => .ok ([], bytes, false)
  | switchBase, i :: is, bytes =>
      if i.m_opcode = ceeSwitch then do
        let switchBase := (i.m_offset + 1 + 4 * (i.m_Arg32 + 1)) % 2 ^ 32
        let (nodes, bytes, again) ← resolve offsetOf endOffset switchBase is bytes
        pure (i :: nodes, bytes, again)
      else if i.m_opcode = ceeSwitchArg then do
        let target ← offsetOf i.m_pTarget
        let bytes := patchBytes bytes i.m_offset 4 (offsetDelta target switchBase)
        let (nodes, bytes, again) ← resolve offsetOf endOffset switchBase is bytes
        pure (i :: nodes, bytes, again)
      else if (opCodeFlags i.m_opcode).branchTarget then do
        let target ← offsetOf i.m_pTarget
        let next := headOffset endOffset is
        let delta := offsetDelta target next
        if opCodeFlags i.m_opcode = .branch8 then
          if !fitsInt8 delta then do
            let (nodes, bytes, _) ← resolve offsetOf endOffset switchBase is bytes
            pure ({ i with m_opcode := widenOpcode i.m_opcode } :: nodes, bytes, true)
          else do
            let bytes := patchBytes bytes (next - 1) 1 delta
            let (nodes, bytes, again) ← resolve offsetOf endOffset switchBase is bytes
            pure (i :: nodes, bytes, again)
        else do
          let bytes := patchBytes bytes (next - 4) 4 delta
          let (nodes, bytes, again) ← resolve offsetOf endOffset switchBase is bytes
          pure (i :: nodes, bytes, again)
      else do
        let (nodes, bytes, again) ← resolve offsetOf endOffset switchBase is bytes
        pure (i :: nodes, bytes, again)

/-! ### The loop -/

/-- One round from the label `again`.  Without a branch node the second pass changes nothing, so
it need not be guarded. -/
def exportRound (maxSize : ℕ) (il : List ILInstr) :
    Except RewriteError (List ILInstr × List UInt8 × Bool) := do
  let (nodes, bytes) ← emit maxSize 0 il
  resolve (nodeOffset nodes bytes.length) bytes.length 0 nodes bytes

/-- The `again` loop; `none` when the rounds did not suffice. -/
def exportRounds (maxSize : ℕ) :
    ℕ → List ILInstr → Option (Except RewriteError (List ILInstr × List UInt8))
  | 0, _ => none
  | rounds + 1, il =>
      match exportRound maxSize il with
      | .error e => some (.error e)
      | .ok (nodes, bytes, again) =>
          if again then exportRounds maxSize rounds nodes else some (.ok (nodes, bytes))

/-! ### The body -/

/-- What is handed to `SetILFunctionBody`. -/
structure ExportedBody where
  flags : ℕ
  maxStack : ℕ
  localVarSigTok : ℕ
  code : List UInt8
  eh : List EhInfo

namespace ILRewriter

variable (s : ILRewriter)

/-- `m_nInstrs * 10`, an `unsigned`. -/
def maxSize : ℕ := s.m_nInstrs * 10 % 2 ^ 32

/-- An exception clause over the final byte offsets. -/
def exportClause (endOffset : ℕ) (c : EHClause) : Except RewriteError EhInfo := do
  let tryBegin ← nodeOffset s.m_IL endOffset c.m_pTryBegin
  let tryEnd ← nodeOffset s.m_IL endOffset c.m_pTryEnd
  let handlerBegin ← nodeOffset s.m_IL endOffset c.m_pHandlerBegin
  let handlerEnd ← nodeOffset s.m_IL endOffset (s.m_pNext c.m_pHandlerEnd)
  let classTokenOrFilterOffset ←
    if isFilterFlags c.m_Flags then nodeOffset s.m_IL endOffset c.m_ClassTokenOrFilter
    else pure c.m_ClassTokenOrFilter
  pure {
    flags := c.m_Flags
    tryOffset := tryBegin
    tryLength := offsetDelta tryEnd tryBegin
    handlerOffset := handlerBegin
    handlerLength := offsetDelta handlerEnd handlerBegin
    classTokenOrFilterOffset }

/-- The header and the sections behind the code. -/
def exportHeader (code : List UInt8) : Except RewriteError ExportedBody :=
  if s.m_fGenerateTinyHeader then
    -- a tiny header holds neither a stack depth nor clauses
    if code.length ≥ 64 then .error .eFail
    else .ok ⟨2, 8, 0, code, []⟩
  else do
    let eh ← s.m_pEH.mapM (s.exportClause code.length)
    pure ⟨s.m_flags + (if s.m_pEH.length ≠ 0 then 8 else 0) + 3, s.m_maxStack % 2 ^ 16,
      s.m_tkLocalVarSig, code, eh⟩

/-- `Export`, with a number of rounds for the `again` loop. -/
def exportBody (rounds : ℕ) : Option (Except RewriteError ExportedBody) :=
  match exportRounds s.maxSize rounds s.m_IL with
  | none => none
  | some (.error e) => some (.error e)
  | some (.ok (nodes, code)) => some ({ s with m_IL := nodes }.exportHeader code)

end ILRewriter

/-- The body as `GetILFunctionBody` hands it in again. -/
def ExportedBody.toMethodBody (body : ExportedBody) (h : body.code.length < 2 ^ 31) : MethodBody :=
  ⟨body.flags, body.maxStack, body.localVarSigTok, ⟨body.code, h⟩, body.eh⟩

end TestExecutor
