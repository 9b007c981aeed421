import TestExecutor.Library.Dictionary
import TestExecutor.IL.IlCode

/-!
# The managed instruction decoder

`OpCodes.fs` and `MethodInstrBuilder.fs`: the second decoder of method bodies.

* `singleByteOpCodes`, `twoBytesOpCodes`, `getOpCode` — opcodes out of the runtime's table, in
  which an unassigned slot holds `nop`;
* `instrOperandSize` — the operand size that the builder skips, none for a `switch`;
* `buildInstrs`, `build` — the loop, and the instructions with their dictionary;
* `Adjacent` — instructions as the builder steps over them, and `buildInstrs_adjacent`.
-/

namespace TestExecutor

open TestExecutor.Library

/-- What the managed decoder raises. -/
inductive IncorrectCIL where
  | prefixWithoutSuffix | unexpectedEnd
  deriving DecidableEq, Repr

/-- `ilInstr`. -/
structure IlInstr where
  opcode : ℕ
  offset : ℕ
  deriving DecidableEq, Repr

/-! ### Opcodes -/

/-- Filled from the runtime's opcodes over an array of `nop`s. -/
def singleByteOpCodes (b : ℕ) : ℕ := if Assigned b then b else ceeNop

def twoBytesOpCodes (b : ℕ) : ℕ := if Assigned (0x100 + b) then 0x100 + b else ceeNop

/-- `b ≠ OpCodes.Prefix1.Value`. -/
def isSingleByteOpCode (b : ℕ) : Bool := b ≠ ceePrefix1

def getOpCode (ilBytes : IlCode) (offset : ℕ) : Except IncorrectCIL ℕ :=
  let b1 := ilBytes.word offset 1
  if isSingleByteOpCode b1 then .ok (singleByteOpCodes b1)
  else if offset + 1 ≥ ilBytes.size then .error .prefixWithoutSuffix
  else .ok (twoBytesOpCodes (ilBytes.word (offset + 1) 1))

/-! ### The builder -/

/-- The operand sizes of the builder; the table of a `switch` is not among them. -/
def instrOperandSize : OperandType → ℕ
  | .inlineNone | .inlineSwitch => 0
  | .shortInlineVar | .shortInlineI | .shortInlineBrTarget => 1
  | .inlineVar => 2
  | .inlineI | .inlineMethod | .inlineType | .inlineString | .inlineSig | .inlineTok
  | .shortInlineR | .inlineField | .inlineBrTarget => 4
  | .inlineI8 | .inlineR => 8

/-- The bytes that the builder steps over. -/
def IlInstr.size (i : IlInstr) : ℕ := opcodeSize i.opcode + instrOperandSize (opArgs i.opcode)

/-- The loop of `build`: every round takes at least one byte. -/
def buildInstrs (bytecode : IlCode) : ℕ → ℕ → Except IncorrectCIL (List IlInstr)
  | 0, _ => .ok []
  | fuel + 1, offset =>
      if offset < bytecode.size then do
        let op ← getOpCode bytecode offset
        let instr : IlInstr := ⟨op, offset⟩
        if offset + instr.size > bytecode.size then .error .unexpectedEnd
        else do
          let rest ← buildInstrs bytecode fuel (offset + instr.size)
          pure (instr :: rest)
      else .ok []

/-- `build`: the instructions, and the dictionary from their offsets. -/
def build (bytecode : IlCode) : Except IncorrectCIL (List IlInstr × Dictionary ℕ IlInstr) := do
  let instList ← buildInstrs bytecode bytecode.size 0
  pure (instList,
    instList.foldl (fun dictionary inst => dictionary.set inst.offset inst) Dictionary.empty)

/-! ### What is built -/

/-- The instructions as the builder steps over them, from `start` to `stop`. -/
def Adjacent : ℕ → List IlInstr → ℕ → Prop
  | start, [], stop => start = stop
  | start, i :: is, stop => i.offset = start ∧ Adjacent (start + i.size) is stop

theorem IlInstr.size_pos (i : IlInstr) : 0 < i.size := by
  have := opcodeSize_pos i.opcode
  unfold IlInstr.size
  omega

theorem buildInstrs_adjacent {bytecode : IlCode} (fuel : ℕ) : ∀ (offset : ℕ) (is : List IlInstr),
    buildInstrs bytecode fuel offset = .ok is → offset ≤ bytecode.size →
      bytecode.size - offset ≤ fuel → Adjacent offset is bytecode.size := by
  induction fuel with
  | zero =>
      intro offset is h hle hfuel
      obtain rfl : [] = is := Except.ok.inj h
      unfold Adjacent
      omega
  | succ fuel ih =>
      intro offset is h hle hfuel
      rw [buildInstrs] at h
      split at h
      · cases hop : getOpCode bytecode offset with
        | error e => rw [hop] at h; cases h
        | ok op =>
            rw [hop] at h
            change (if offset + (⟨op, offset⟩ : IlInstr).size > bytecode.size then _ else _) = _ at h
            split at h
            · cases h
            · rename_i hfits
              have hpos := (⟨op, offset⟩ : IlInstr).size_pos
              cases hrest : buildInstrs bytecode fuel (offset + (⟨op, offset⟩ : IlInstr).size) with
              | error e => rw [hrest] at h; cases h
              | ok rest =>
                  rw [hrest] at h
                  obtain rfl : ⟨op, offset⟩ :: rest = is := Except.ok.inj h
                  exact ⟨rfl, ih _ rest hrest (by omega) (by omega)⟩
      · obtain rfl : [] = is := Except.ok.inj h
        unfold Adjacent
        omega

theorem Adjacent.le {start stop : ℕ} {is : List IlInstr} (h : Adjacent start is stop) :
    start ≤ stop := by
  induction is generalizing start with
  | nil => exact le_of_eq h
  | cons i is ih => exact le_trans (Nat.le_add_right _ _) (ih h.2)

theorem Adjacent.le_of_mem {start stop : ℕ} {is : List IlInstr} (h : Adjacent start is stop)
    {i : IlInstr} (hi : i ∈ is) : i.offset + i.size ≤ stop := by
  induction is generalizing start with
  | nil => simp at hi
  | cons j is ih =>
      rcases List.mem_cons.mp hi with rfl | hi
      · rw [h.1]
        exact h.2.le
      · exact ih h.2 hi

/-- Behind every instruction that does not end the body stands another one. -/
theorem Adjacent.next_mem {start stop : ℕ} {is : List IlInstr} (h : Adjacent start is stop)
    {i : IlInstr} (hi : i ∈ is) (hlt : i.offset + i.size < stop) :
    ∃ j ∈ is, j.offset = i.offset + i.size := by
  induction is generalizing start with
  | nil => simp at hi
  | cons k is ih =>
      rcases List.mem_cons.mp hi with rfl | hi
      · have hstart := h.1
        cases is with
        | nil =>
            have hstop : start + i.size = stop := h.2
            omega
        | cons j is =>
            have hj : j.offset = start + i.size := h.2.1
            exact ⟨j, by simp, by omega⟩
      · obtain ⟨j, hj, hoffset⟩ := ih h.2 hi
        exact ⟨j, List.mem_cons_of_mem k hj, hoffset⟩

/-- The keys of the dictionary are the offsets of the instructions. -/
theorem mem_keys_foldl_set (is : List IlInstr) : ∀ (d : Dictionary ℕ IlInstr) (o : ℕ),
    o ∈ (is.foldl (fun dictionary inst => dictionary.set inst.offset inst) d).keys
      ↔ o ∈ d.keys ∨ o ∈ is.map IlInstr.offset := by
  induction is with
  | nil => intro d o; simp
  | cons i is ih =>
      intro d o
      rw [List.foldl_cons, ih, Dictionary.mem_keys_set, List.map_cons, List.mem_cons]
      tauto

end TestExecutor
