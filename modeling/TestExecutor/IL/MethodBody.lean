import TestExecutor.IL.MethodInstrBuilder
import TestExecutor.Rewriter.Import

/-!
# Transitions of managed instructions

`MethodBody.fs`, and what `Method` holds: where control goes from an instruction, as the managed
side reads it out of the bytes.  A managed `int` is represented by its unsigned word.

* `CfgError` — how the construction of a control-flow graph can fail;
* `operandType2operandSize`, `findNextInstructionOffsetAndEdges` — transitions;
* `isDemandingCallOpCode`, `parseCallSite` — calls;
* `EhcType`, `EhClause`, `Method` — clauses and methods.
-/

namespace TestExecutor

open TestExecutor.Library

/-- What can go wrong: exceptions, failed assertions, and a loop that never ends. -/
inductive CfgError where
  | keyNotFound | indexOutOfRange | nullReference | assertFailed | notImplemented
  | unresolvedMethod | endlessLoop | outOfFuel
  deriving DecidableEq, Repr

/-- `ipTransition`. -/
inductive IpTransition where
  | fallThrough (offset : ℕ)
  | ret
  | unconditionalBranch (target : ℕ)
  | conditionalBranch (fallThrough : ℕ) (offsets : List ℕ)
  | exceptionMechanism
  deriving DecidableEq, Repr

/-! ### Operands -/

/-- The array over the values of `OperandType`; the entry of `InlinePhi` is not used. -/
def operandType2operandSize : OperandType → ℕ
  | .inlineBrTarget | .inlineField | .inlineI | .inlineMethod | .inlineSig | .inlineString
  | .inlineSwitch | .inlineTok | .inlineType | .shortInlineR => 4
  | .inlineI8 | .inlineR => 8
  | .inlineNone => 0
  | .inlineVar => 2
  | .shortInlineBrTarget | .shortInlineI | .shortInlineVar => 1

/-- Reads a word; reading behind the array is an exception. -/
def extractWord (ilBytes : IlCode) (pos w : ℕ) : Except CfgError ℕ :=
  if pos + w > ilBytes.size then .error .indexOutOfRange else .ok (ilBytes.word pos w)

def extractInt32 (ilBytes : IlCode) (pos : ℕ) : Except CfgError ℕ := extractWord ilBytes pos 4

/-- A signed byte. -/
def extractInt8 (ilBytes : IlCode) (pos : ℕ) : Except CfgError ℕ := do
  let b ← extractWord ilBytes pos 1
  pure (signExtend8 b)

/-- The sum of two `int`s. -/
def intAdd (a b : ℕ) : ℕ := (a + b) % 2 ^ 32

/-! ### Transitions -/

def ceeLeaveOpCode (opCode : ℕ) : Bool := opCode = ceeLeave || opCode = ceeLeaveS

/-- Where the instruction without a table ends. -/
def nextInstruction (opCode pos : ℕ) : ℕ :=
  pos + opcodeSize opCode + operandType2operandSize (opArgs opCode)

/-- The distance of a branch, by its operand type. -/
def branchOffset (opCode : ℕ) (ilBytes : IlCode) (pos : ℕ) : Except CfgError ℕ :=
  if opArgs opCode = .inlineBrTarget then extractInt32 ilBytes pos else extractInt8 ilBytes pos

def jumpTargetsForBranch (opCode : ℕ) (ilBytes : IlCode) (pos : ℕ) :
    Except CfgError IpTransition := do
  let offset ← branchOffset opCode ilBytes (pos + opcodeSize opCode)
  let nextInstruction := nextInstruction opCode pos
  if offset = 0 ∧ !ceeLeaveOpCode opCode then pure (.unconditionalBranch nextInstruction)
  else pure (.unconditionalBranch (intAdd offset nextInstruction))

def inlineBrTarget (extract : IlCode → ℕ → Except CfgError ℕ) (opCode : ℕ) (ilBytes : IlCode)
    (pos : ℕ) : Except CfgError IpTransition := do
  let offset ← extract ilBytes (pos + opcodeSize opCode)
  let nextInstruction := nextInstruction opCode pos
  pure (.conditionalBranch nextInstruction [intAdd nextInstruction offset])

/-- The number of slots is an `int`, and `List.init` throws for a negative one. -/
def inlineSwitch (opCode : ℕ) (ilBytes : IlCode) (pos : ℕ) : Except CfgError IpTransition := do
  let opcodeSize := opcodeSize opCode
  let n ← extractInt32 ilBytes (pos + opcodeSize)
  if n ≥ 2 ^ 31 then .error .indexOutOfRange
  else do
    let nextInstruction := (pos + opcodeSize + 4 * n + 4) % 2 ^ 32
    let nextOffsets ← (List.range n).mapM fun x => do
      let slot ← extractInt32 ilBytes (pos + opcodeSize + 4 * (x + 1))
      pure (intAdd nextInstruction slot)
    pure (.conditionalBranch nextInstruction nextOffsets)

def findNextInstructionOffsetAndEdges (opCode : ℕ) (ilBytes : IlCode) (pos : ℕ) :
    Except CfgError IpTransition :=
  match opCtrl opCode with
  | .ctrlNext | .ctrlCall | .ctrlBreak | .ctrlMeta => .ok (.fallThrough (nextInstruction opCode pos))
  | .ctrlBranch => jumpTargetsForBranch opCode ilBytes pos
  | .ctrlCondBranch =>
      match opArgs opCode with
      | .inlineBrTarget => inlineBrTarget extractInt32 opCode ilBytes pos
      | .shortInlineBrTarget => inlineBrTarget extractInt8 opCode ilBytes pos
      | .inlineSwitch => inlineSwitch opCode ilBytes pos
      | _ => .error .notImplemented
  | .ctrlReturn => .ok .ret
  | .ctrlThrow => .ok .exceptionMechanism

/-! ### Calls -/

def isCallOpCode (opCode : ℕ) : Bool :=
  opCode = ceeCall || opCode = ceeCallvirt || opCode = ceeTailcall

def isNewObjOpCode (opCode : ℕ) : Bool := opCode = ceeNewobj

def isDemandingCallOpCode (opCode : ℕ) : Bool := isCallOpCode opCode || isNewObjOpCode opCode

/-! ### Methods -/

inductive EhcType where
  | filter (offset : ℕ)
  | catchType
  | finallyType
  | faultType
  deriving DecidableEq, Repr

/-- The fields of `ehClause` that the graph reads. -/
structure EhClause where
  handlerOffset : ℕ
  ehcType : EhcType
  deriving DecidableEq, Repr

/-- `ehClause.Create`; the options are `Filter = 1`, `Finally = 2` and `Fault = 4`. -/
def EhClause.create (eh : EhInfo) : EhClause where
  handlerOffset := eh.handlerOffset
  ehcType :=
    if eh.flags = 1 then .filter eh.classTokenOrFilterOffset
    else if eh.flags = 2 then .finallyType
    else if eh.flags = 4 then .faultType
    else .catchType

/-- A method: its bytes, its instructions as `MethodInstrBuilder.build` returns them, its clauses,
and which tokens its module resolves. -/
structure Method where
  bytecode : IlCode
  instructions : List IlInstr
  offsetToInstr : Dictionary ℕ IlInstr
  ehClauses : List EhClause
  resolvesMethod : ℕ → Bool

/-- The constructor; `resolvesMethod` stands for `Module.ResolveMethod`. -/
def Method.ofBody (body : MethodBody) (resolvesMethod : ℕ → Bool) : Except IncorrectCIL Method := do
  let (instructions, offsetToInstr) ← build body.code
  pure {
    bytecode := body.code
    instructions
    offsetToInstr
    ehClauses := body.eh.map EhClause.create
    resolvesMethod }

/-- `getOpCode` on the bytes of a method. -/
def readOpCode (ilBytes : IlCode) (pos : ℕ) : Except CfgError ℕ :=
  match getOpCode ilBytes pos with
  | .ok opCode => .ok opCode
  | .error _ => .error .indexOutOfRange

/-- `parseCallSite`: the opcode again, when the token behind it can be resolved. -/
def Method.parseCallSite (m : Method) (pos : ℕ) : Except CfgError ℕ := do
  let opCode ← readOpCode m.bytecode pos
  let token ← extractInt32 m.bytecode (pos + opcodeSize opCode)
  if m.resolvesMethod token then pure opCode else .error .unresolvedMethod

end TestExecutor
