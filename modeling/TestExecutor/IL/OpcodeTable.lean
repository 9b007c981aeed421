import Mathlib.Order.Basic

/-!
# The opcode table

The columns of `opcode.def` that the rewriter and the F# side read: operand kind, number of
pushed stack slots and control flow.  An opcode is the number the rewriter uses for it: the
byte of a one-byte opcode, `0x100 + b` for the two-byte opcode `FE b`, then the three internal
entries of `opcode.def`, `CEE_COUNT` and `CEE_SWITCH_ARG`.

* `opArgs`, `opCtrl`, `rgnStackPushes` — the table columns, as ranges over the opcode number;
* `opCodeFlags` — `s_OpCodeFlags`: operand size, branch-target bit, switch bit;
* `opcodeSize` — one byte, or two behind the `FE` lead byte;
* `Assigned` — the opcodes that have a meaning (no `CEE_UNUSED…` entry, none of the internal
  ones), which are those `System.Reflection.Emit.OpCodes` has a field for.
-/

namespace TestExecutor

/-! ### Named opcodes -/

def ceeNop : ℕ := 0x00
def ceeLdcI40 : ℕ := 0x16
def ceeLdcI4 : ℕ := 0x20
def ceeLdcI8 : ℕ := 0x21
def ceeJmp : ℕ := 0x27
def ceeCall : ℕ := 0x28
def ceeCalli : ℕ := 0x29
def ceeRet : ℕ := 0x2A
def ceeBrS : ℕ := 0x2B
def ceeBltUnS : ℕ := 0x37
def ceeBr : ℕ := 0x38
def ceeBltUn : ℕ := 0x44
def ceeSwitch : ℕ := 0x45
def ceeCallvirt : ℕ := 0x6F
def ceeNewobj : ℕ := 0x73
def ceeThrow : ℕ := 0x7A
def ceeStsfld : ℕ := 0x80
def ceeEndfinally : ℕ := 0xDC
def ceeLeave : ℕ := 0xDD
def ceeLeaveS : ℕ := 0xDE
def ceePrefix7 : ℕ := 0xF8
def ceePrefix2 : ℕ := 0xFD
/-- The lead byte of the two-byte opcodes. -/
def ceePrefix1 : ℕ := 0xFE
def ceeEndfilter : ℕ := 0x111
def ceeUnaligned : ℕ := 0x112
def ceeVolatile : ℕ := 0x113
def ceeTailcall : ℕ := 0x114
def ceeConstrained : ℕ := 0x116
def ceeRethrow : ℕ := 0x11A
def ceeReadonly : ℕ := 0x11E
/-- One past the last entry of `opcode.def`. -/
def ceeCount : ℕ := 294
/-- The pseudo-instruction of one switch-table slot. -/
def ceeSwitchArg : ℕ := 295

/-! ### Operand kinds -/

/-- The `args` column of `opcode.def`, which is also .NET's `OperandType`. -/
inductive OperandType where
  | inlineNone | shortInlineVar | inlineVar | shortInlineI | inlineI | inlineI8
  | shortInlineR | inlineR | shortInlineBrTarget | inlineBrTarget | inlineMethod
  | inlineField | inlineType | inlineString | inlineSig | inlineTok | inlineSwitch
  deriving DecidableEq, Repr

open OperandType in
/-- The `args` column as runs of equal entries: the last opcode of a run and its operand kind. -/
def opArgsRuns : List (ℕ × OperandType) :=
  [(0x0D, inlineNone), (0x13, shortInlineVar), (0x1E, inlineNone), (0x1F, shortInlineI),
   (0x20, inlineI), (0x21, inlineI8), (0x22, shortInlineR), (0x23, inlineR),
   (0x26, inlineNone), (0x28, inlineMethod), (0x29, inlineSig), (0x2A, inlineNone),
   (0x37, shortInlineBrTarget), (0x44, inlineBrTarget), (0x45, inlineSwitch),
   (0x6E, inlineNone), (0x6F, inlineMethod), (0x71, inlineType), (0x72, inlineString),
   (0x73, inlineMethod), (0x75, inlineType), (0x78, inlineNone), (0x79, inlineType),
   (0x7A, inlineNone), (0x80, inlineField), (0x81, inlineType), (0x8B, inlineNone),
   (0x8D, inlineType), (0x8E, inlineNone), (0x8F, inlineType), (0xA2, inlineNone),
   (0xA5, inlineType), (0xC1, inlineNone), (0xC2, inlineType), (0xC5, inlineNone),
   (0xC6, inlineType), (0xCF, inlineNone), (0xD0, inlineTok), (0xDC, inlineNone),
   (0xDD, inlineBrTarget), (0xDE, shortInlineBrTarget), (0x105, inlineNone),
   (0x107, inlineMethod), (0x108, inlineNone), (0x10E, inlineVar), (0x111, inlineNone),
   (0x112, shortInlineI), (0x114, inlineNone), (0x116, inlineType), (0x11B, inlineNone),
   (0x11C, inlineType)]

/-- The operand kind of an opcode; behind the last run there is only `InlineNone`. -/
def opArgs (opcode : ℕ) : OperandType :=
  match opArgsRuns.find? fun run => decide (opcode ≤ run.1) with
  | some run => run.2
  | none => .inlineNone

/-! ### Operand flags -/

/-- The values of `s_OpCodeFlags`: the operand size in the low bits, `0x10` for a branch target,
`0x20` for a switch. -/
inductive OpCodeFlags where
  | arg0 | arg8 | arg16 | arg32 | arg64 | branch8 | branch32 | switch
  deriving DecidableEq, Repr

/-- The `#define`s in front of `s_OpCodeFlags`. -/
def OperandType.flags : OperandType → OpCodeFlags
  | .inlineNone => .arg0
  | .shortInlineVar | .shortInlineI => .arg8
  | .inlineVar => .arg16
  | .inlineI | .shortInlineR | .inlineMethod | .inlineField | .inlineType | .inlineString
  | .inlineSig | .inlineTok => .arg32
  | .inlineI8 | .inlineR => .arg64
  | .shortInlineBrTarget => .branch8
  | .inlineBrTarget => .branch32
  | .inlineSwitch => .switch

/-- `flags & OPCODEFLAGS_SizeMask`. -/
def OpCodeFlags.sizeMask : OpCodeFlags → ℕ
  | .arg0 | .switch => 0
  | .arg8 | .branch8 => 1
  | .arg16 => 2
  | .arg32 | .branch32 => 4
  | .arg64 => 8

/-- `flags & OPCODEFLAGS_BranchTarget`. -/
def OpCodeFlags.branchTarget : OpCodeFlags → Bool
  | .branch8 | .branch32 => true
  | _ => false

/-- `s_OpCodeFlags`, with the two entries behind `opcode.def`. -/
def opCodeFlags (opcode : ℕ) : OpCodeFlags :=
  if opcode = ceeSwitchArg then .branch32 else (opArgs opcode).flags

/-- Bytes of the opcode itself: the lead byte `FE` stands in front of the second page. -/
def opcodeSize (opcode : ℕ) : ℕ := if opcode ≥ 0x100 then 2 else 1

theorem opcodeSize_pos (opcode : ℕ) : 1 ≤ opcodeSize opcode := by
  unfold opcodeSize; split <;> omega

@[simp] theorem opCodeFlags_switchArg : opCodeFlags ceeSwitchArg = .branch32 := by decide

@[simp] theorem opCodeFlags_switch : opCodeFlags ceeSwitch = .switch := by decide

/-- Behind the table every entry is the default. -/
theorem opArgs_of_large {opcode : ℕ} (h : 0x11C < opcode) : opArgs opcode = .inlineNone := by
  have hnone : opArgsRuns.find? (fun run => decide (opcode ≤ run.1)) = none := by
    rw [List.find?_eq_none]
    intro run hrun
    have hmax : ∀ run ∈ opArgsRuns, run.1 ≤ 0x11C := by decide
    have := hmax run hrun
    simp only [decide_eq_true_eq]
    omega
  rw [opArgs, hnone]

/-- A property of the operand kinds holds of every opcode once it holds along the table. -/
theorem opArgs_forall {P : ℕ → OperandType → Prop} (hrow : ∀ opcode < 0x11D, P opcode (opArgs opcode))
    (hdefault : ∀ opcode, 0x11C < opcode → P opcode .inlineNone) (opcode : ℕ) :
    P opcode (opArgs opcode) := by
  rcases Nat.lt_or_ge opcode 0x11D with hlt | hge
  · exact hrow opcode hlt
  · rw [opArgs_of_large (by omega)]
    exact hdefault opcode (by omega)

/-- `switch` is the only opcode with a table. -/
theorem opCodeFlags_eq_switch_iff {opcode : ℕ} :
    opCodeFlags opcode = .switch ↔ opcode = ceeSwitch := by
  have h : opArgs opcode = .inlineSwitch ↔ opcode = ceeSwitch :=
    opArgs_forall (P := fun opcode k => k = .inlineSwitch ↔ opcode = ceeSwitch) (by decide +kernel)
      (fun opcode hop => by simp only [reduceCtorEq, false_iff, ceeSwitch]; omega) opcode
  unfold opCodeFlags
  split
  · rename_i harg
    subst harg
    decide
  · rw [← h]
    cases opArgs opcode <;> simp [OperandType.flags]

/-! ### Control flow -/

/-- The `ctrl` column of `opcode.def`, which is also .NET's `FlowControl`. -/
inductive FlowControl where
  | ctrlNext | ctrlBreak | ctrlCall | ctrlReturn | ctrlBranch | ctrlCondBranch | ctrlThrow
  | ctrlMeta
  deriving DecidableEq, Repr

open FlowControl in
/-- The control flow of an opcode; `NEXT` is the default of the table. -/
def opCtrl (opcode : ℕ) : FlowControl :=
  if opcode = 0x01 then ctrlBreak
  else if 0x27 ≤ opcode ∧ opcode ≤ 0x29 then ctrlCall
  else if opcode = 0x2A then ctrlReturn
  else if opcode = 0x2B then ctrlBranch
  else if 0x2C ≤ opcode ∧ opcode ≤ 0x37 then ctrlCondBranch
  else if opcode = 0x38 then ctrlBranch
  else if 0x39 ≤ opcode ∧ opcode ≤ 0x45 then ctrlCondBranch
  else if opcode = 0x6F ∨ opcode = 0x73 then ctrlCall
  else if opcode = 0x7A then ctrlThrow
  else if opcode = 0xDC then ctrlReturn
  else if opcode = 0xDD ∨ opcode = 0xDE then ctrlBranch
  else if 0xF8 ≤ opcode ∧ opcode ≤ 0xFF then ctrlMeta
  else if opcode = 0x111 then ctrlReturn
  else if 0x112 ≤ opcode ∧ opcode ≤ 0x114 then ctrlMeta
  else if opcode = 0x116 then ctrlMeta
  else if opcode = 0x11A then ctrlThrow
  else if opcode = 0x11E then ctrlMeta
  else if 0x123 ≤ opcode ∧ opcode ≤ 0x125 then ctrlMeta
  else ctrlNext

/-! ### Stack pushes -/

/-- The opcodes whose `push` column is `Push0`. -/
def PushesNothing (opcode : ℕ) : Prop :=
  opcode < 0x02 ∨ (0x0A ≤ opcode ∧ opcode ≤ 0x0D) ∨ opcode = 0x10 ∨ opcode = 0x13
  ∨ opcode = 0x24 ∨ opcode = 0x26 ∨ opcode = 0x27 ∨ (0x2A ≤ opcode ∧ opcode ≤ 0x45)
  ∨ (0x51 ≤ opcode ∧ opcode ≤ 0x57) ∨ opcode = 0x70 ∨ opcode = 0x77 ∨ opcode = 0x78
  ∨ opcode = 0x7A ∨ opcode = 0x7D ∨ opcode = 0x80 ∨ opcode = 0x81
  ∨ (0x9B ≤ opcode ∧ opcode ≤ 0xA2) ∨ opcode = 0xA4 ∨ (0xA6 ≤ opcode ∧ opcode ≤ 0xB2)
  ∨ (0xBB ≤ opcode ∧ opcode ≤ 0xC1) ∨ opcode = 0xC4 ∨ opcode = 0xC5
  ∨ (0xC7 ≤ opcode ∧ opcode ≤ 0xCF) ∨ (0xDC ≤ opcode ∧ opcode ≤ 0xDF)
  ∨ (0xE1 ≤ opcode ∧ opcode ≤ 0xFF) ∨ opcode = 0x108 ∨ opcode = 0x10B ∨ opcode = 0x10E
  ∨ (0x110 ≤ opcode ∧ opcode ≤ 0x11B) ∨ 0x11E ≤ opcode

instance (opcode : ℕ) : Decidable (PushesNothing opcode) := by
  unfold PushesNothing; infer_instance

/-- `k_rgnStackPushes`: `dup` pushes two slots, every other pushing opcode one. -/
def rgnStackPushes (opcode : ℕ) : ℕ :=
  if PushesNothing opcode then 0 else if opcode = 0x25 then 2 else 1

/-! ### Assigned opcodes -/

/-- An opcode with a meaning: not one of the `CEE_UNUSED…` entries, not one of the internal
entries behind them. -/
def Assigned (opcode : ℕ) : Prop :=
  opcode < 0x11F ∧ opcode ≠ 0x24 ∧ opcode ≠ 0x77 ∧ opcode ≠ 0x78
  ∧ ¬ (0xA6 ≤ opcode ∧ opcode ≤ 0xB2) ∧ ¬ (0xBB ≤ opcode ∧ opcode ≤ 0xC1)
  ∧ opcode ≠ 0xC4 ∧ opcode ≠ 0xC5 ∧ ¬ (0xC7 ≤ opcode ∧ opcode ≤ 0xCF)
  ∧ ¬ (0xE1 ≤ opcode ∧ opcode ≤ 0xF7) ∧ opcode ≠ 0x108 ∧ opcode ≠ 0x110
  ∧ opcode ≠ 0x119 ∧ opcode ≠ 0x11B

instance (opcode : ℕ) : Decidable (Assigned opcode) := by
  unfold Assigned; infer_instance

end TestExecutor
