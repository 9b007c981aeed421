import TestExecutor.IL.ControlFlow

/-!
# Call sites

The tokens that the construction of the graph resolves: `parseCallSite` at the instructions that
`isDemandingCallOpCode` takes for calls.

* `callSiteToken`, `parseCallSite_eq` — what is resolved;
* `ParsesCallSite` — the instructions at which the walk asks for a token;
* `OwnToken`, `OwnTokens` — the token is the operand of the instruction itself;
* `ownTokens_iff` — it always is, `tail.` apart, which has no operand.
-/

namespace TestExecutor

open TestExecutor.Library

/-- Where `parseCallSite` reads the token. -/
def callSiteTokenOffset (ilBytes : IlCode) (pos : ℕ) : Except CfgError ℕ := do
  let opCode ← readOpCode ilBytes pos
  pure (pos + opcodeSize opCode)

/-- The token that `parseCallSite` resolves. -/
def callSiteToken (ilBytes : IlCode) (pos : ℕ) : Except CfgError ℕ := do
  let tokenOffset ← callSiteTokenOffset ilBytes pos
  extractInt32 ilBytes tokenOffset

theorem parseCallSite_eq (m : Method) (pos : ℕ) : m.parseCallSite pos = (do
    let opCode ← readOpCode m.bytecode pos
    let token ← callSiteToken m.bytecode pos
    if m.resolvesMethod token then pure opCode else .error .unresolvedMethod) := by
  rw [Method.parseCallSite, callSiteToken, callSiteTokenOffset]
  cases readOpCode m.bytecode pos with
  | error e => rfl
  | ok opCode => rfl

/-- The walk calls `parseCallSite` at the instruction: its opcode counts as a call, and control
falls through. -/
def ParsesCallSite (code : IlCode) (i : RawInstr) : Prop :=
  ∃ opCode offset, readOpCode code i.offset = .ok opCode ∧ isDemandingCallOpCode opCode = true
    ∧ findNextInstructionOffsetAndEdges opCode code i.offset = .ok (.fallThrough offset)

/-- The four bytes that are resolved are the method operand of the instruction. -/
structure OwnToken (code : IlCode) (i : RawInstr) : Prop where
  operand_kind : opArgs i.opcode = .inlineMethod
  offset_eq : callSiteTokenOffset code i.offset = .ok i.operandOffset
  token_eq : callSiteToken code i.offset = .ok i.operand
  in_instruction : i.operandOffset + 4 ≤ i.next
  in_bytecode : i.operandOffset + 4 ≤ code.size

/-- All tokens that the construction of the graph resolves are operands of their own
instructions. -/
def OwnTokens (body : MethodBody) (is : List RawInstr) : Prop :=
  ∀ i ∈ is, Reachable body.eh is i.offset → ParsesCallSite body.code i → OwnToken body.code i

variable {code : IlCode} {i : RawInstr}

theorem readOpCode_of_decoded (hdec : DecodedAt code i.offset i) :
    readOpCode code i.offset = .ok (managedOpCode i.opcode) := by
  rw [readOpCode, getOpCode_eq hdec.opcode_eq]

/-- What counts as a call has a method operand; `tail.` apart. -/
theorem demandingCall_operand {opcode : ℕ} (hlt : opcode < ceeCount)
    (hcall : isDemandingCallOpCode (managedOpCode opcode) = true) :
    managedOpCode opcode = opcode ∧ (opcode = ceeTailcall ∨ opArgs opcode = .inlineMethod) := by
  have hall : ∀ opcode < ceeCount, isDemandingCallOpCode (managedOpCode opcode) = true →
      managedOpCode opcode = opcode ∧ (opcode = ceeTailcall ∨ opArgs opcode = .inlineMethod) := by
    decide +kernel
  exact hall opcode hlt hcall

theorem ownToken_of_operand (hdec : DecodedAt code i.offset i)
    (hmanaged : managedOpCode i.opcode = i.opcode) (hargs : opArgs i.opcode = .inlineMethod) :
    OwnToken code i := by
  have hne : i.opcode ≠ ceeSwitchArg := by
    intro heq
    have hlt := hdec.opcode_lt
    rw [heq] at hlt
    exact absurd hlt (by decide)
  have hsize : operandSize i.opcode = 4 := by
    rw [operandSize, opCodeFlags, if_neg hne, hargs]
    rfl
  have hnext : i.operandOffset + 4 ≤ i.next := by
    rw [RawInstr.next, hsize]
    exact Nat.le_add_right _ _
  have hoffset : callSiteTokenOffset code i.offset = .ok i.operandOffset := by
    rw [callSiteTokenOffset, readOpCode_of_decoded hdec, hmanaged]
    rfl
  refine ⟨hargs, hoffset, ?_, hnext, hnext.trans hdec.next_le⟩
  rw [callSiteToken, hoffset]
  exact extract_operand hdec hsize

/-- At every `tail.` the walk asks for a token. -/
theorem parsesCallSite_tail (hdec : DecodedAt code i.offset i) (htail : i.opcode = ceeTailcall) :
    ParsesCallSite code i := by
  refine ⟨ceeTailcall, nextInstruction ceeTailcall i.offset, ?_, by decide, rfl⟩
  rw [readOpCode_of_decoded hdec, htail]
  rfl

/-- **Whose bytes are resolved.**  In a valid body all tokens are operands of their own
instructions exactly if no `tail.` can be reached. -/
theorem ownTokens_iff {body : MethodBody} {is : List RawInstr} (hvalid : ValidBody body is) :
    OwnTokens body is
      ↔ ∀ i ∈ is, Reachable body.eh is i.offset → i.opcode ≠ ceeTailcall := by
  constructor
  · intro howns i hi hreach htail
    have hown := howns i hi hreach (parsesCallSite_tail (hvalid.decodedAt hi) htail)
    have hargs := hown.operand_kind
    rw [htail] at hargs
    exact absurd hargs (by decide)
  · intro hno i hi hreach hparses
    have hdec := hvalid.decodedAt hi
    obtain ⟨opCode, offset, hread, hcall, -⟩ := hparses
    rw [readOpCode_of_decoded hdec] at hread
    obtain rfl := Except.ok.inj hread
    obtain ⟨hmanaged, hargs⟩ := demandingCall_operand hdec.opcode_lt hcall
    exact ownToken_of_operand hdec hmanaged (hargs.resolve_left (hno i hi hreach))

/-- `call; ret`. -/
def callRetBody : MethodBody where
  flags := 0
  maxStack := 8
  localVarSigTok := 0
  code := ⟨[0x28, 1, 0, 0, 6, 0x2A], by decide⟩
  eh := []

def callRetInstrs : List RawInstr := [⟨0, ceeCall, 0x06000001, []⟩, ⟨5, ceeRet, 0, []⟩]

theorem ownTokens_iff_call_ret : OwnTokens callRetBody callRetInstrs
    ↔ ∀ i ∈ callRetInstrs, Reachable callRetBody.eh callRetInstrs i.offset →
      i.opcode ≠ ceeTailcall := by
  refine ownTokens_iff ⟨by decide +kernel, by decide, by decide +kernel, by decide,
    by decide +kernel, by decide +kernel, by simp [callRetBody], ?_⟩
  exact not_reachable_of_closed [0, 5] (by decide) (by decide +kernel) (by decide)

/-- `tail. call; ret`. -/
def tailCallBody : MethodBody where
  flags := 0
  maxStack := 8
  localVarSigTok := 0
  code := ⟨[0xFE, 0x14, 0x28, 1, 0, 0, 6, 0x2A], by decide⟩
  eh := []

def tailCallInstrs : List RawInstr :=
  [⟨0, ceeTailcall, 0, []⟩, ⟨2, ceeCall, 0x06000001, []⟩, ⟨7, ceeRet, 0, []⟩]

theorem tailCallBody_valid : ValidBody tailCallBody tailCallInstrs := by
  refine ⟨by decide +kernel, by decide, by decide +kernel, by decide, by decide +kernel,
    by decide +kernel, by simp [tailCallBody], ?_⟩
  exact not_reachable_of_closed [0, 2, 7] (by decide) (by decide +kernel) (by decide)

/-- The token that is resolved at the `tail.` is the opcode of the call and three bytes of its
operand. -/
theorem tailCall_not_ownTokens : ValidBody tailCallBody tailCallInstrs
    ∧ ParsesCallSite tailCallBody.code ⟨0, ceeTailcall, 0, []⟩
    ∧ callSiteToken tailCallBody.code 0 = .ok 0x00000128
    ∧ ¬OwnTokens tailCallBody tailCallInstrs := by
  have hdec : DecodedAt tailCallBody.code 0 ⟨0, ceeTailcall, 0, []⟩ :=
    tailCallBody_valid.decodedAt (i := ⟨0, ceeTailcall, 0, []⟩) List.mem_cons_self
  have hparses : ParsesCallSite tailCallBody.code ⟨0, ceeTailcall, 0, []⟩ :=
    parsesCallSite_tail hdec rfl
  refine ⟨tailCallBody_valid, hparses, by decide +kernel, fun howns => ?_⟩
  have hown := howns _ List.mem_cons_self (Reachable.entry List.mem_cons_self) hparses
  exact absurd hown.operand_kind (by decide)

end TestExecutor
