import TestExecutor.Library.LittleEndian
import TestExecutor.IL.OpcodeTable

/-!
# Method bodies and their instructions

The byte string of a method body and the instruction records that decoding it yields.

* `IlCode` — the bytes; the size is an `int` on both sides;
* `RawInstr` — one decoded instruction: where it starts, its opcode, its operand and its switch table;
* `RawInstr.next` — where the next instruction starts;
* `Consecutive` — records that follow one another.
-/

namespace TestExecutor

open TestExecutor.Library

/-- The bytes of a method body. -/
structure IlCode where
  bytes : List UInt8
  length_lt : bytes.length < 2 ^ 31

namespace IlCode

/-- `m_CodeSize`. -/
def size (code : IlCode) : ℕ := code.bytes.length

/-- The unsigned word of `w` bytes at `offset`. -/
def word (code : IlCode) (offset w : ℕ) : ℕ := leNat ((code.bytes.drop offset).take w)

theorem word_lt (code : IlCode) (offset w : ℕ) : code.word offset w < 256 ^ w := by
  refine lt_of_lt_of_le (leNat_lt _) (Nat.pow_le_pow_right (by decide) ?_)
  rw [List.length_take]
  exact Nat.min_le_left _ _

theorem word_one_lt (code : IlCode) (offset : ℕ) : code.word offset 1 < 256 := by
  simpa using code.word_lt offset 1

end IlCode

/-- An instruction of a method body: its first byte, its opcode, the unsigned operand (the number
of slots of a `switch`) and the unsigned words of its switch table. -/
structure RawInstr where
  offset : ℕ
  opcode : ℕ
  operand : ℕ
  slots : List ℕ
  deriving DecidableEq, Repr

/-- Bytes of the operand; that of a `switch` is the number of its slots. -/
def operandSize (opcode : ℕ) : ℕ :=
  match opCodeFlags opcode with
  | .switch => 4
  | flags => flags.sizeMask

namespace RawInstr

/-- Where the operand starts. -/
def operandOffset (i : RawInstr) : ℕ := i.offset + opcodeSize i.opcode

/-- Where the next instruction starts. -/
def next (i : RawInstr) : ℕ := i.operandOffset + operandSize i.opcode + 4 * i.slots.length

theorem offset_lt_next (i : RawInstr) : i.offset < i.next := by
  have := opcodeSize_pos i.opcode
  unfold next operandOffset
  omega

end RawInstr

/-- The instructions follow one another from `start` to `stop`. -/
def Consecutive : ℕ → List RawInstr → ℕ → Prop
  | start, [], stop => start = stop
  | start, i :: is, stop => i.offset = start ∧ Consecutive i.next is stop

theorem Consecutive.append {start middle stop : ℕ} {is js : List RawInstr}
    (h : Consecutive start is middle) (h' : Consecutive middle js stop) :
    Consecutive start (is ++ js) stop := by
  induction is generalizing start with
  | nil =>
      obtain rfl : start = middle := h
      exact h'
  | cons i is ih => exact ⟨h.1, ih h.2⟩

theorem Consecutive.split {start stop : ℕ} {is js : List RawInstr}
    (h : Consecutive start (is ++ js) stop) :
    ∃ middle, Consecutive start is middle ∧ Consecutive middle js stop := by
  induction is generalizing start with
  | nil => exact ⟨start, rfl, h⟩
  | cons i is ih =>
      obtain ⟨middle, his, hjs⟩ := ih h.2
      exact ⟨middle, ⟨h.1, his⟩, hjs⟩

theorem Consecutive.le {start stop : ℕ} {is : List RawInstr} (h : Consecutive start is stop) :
    start ≤ stop := by
  induction is generalizing start with
  | nil => exact le_of_eq h
  | cons i is ih =>
      have hle := ih h.2
      have hlt := i.offset_lt_next
      rw [h.1] at hlt
      omega

/-- Every instruction lies between the bounds. -/
theorem Consecutive.bounds {start stop : ℕ} {is : List RawInstr} (h : Consecutive start is stop)
    {i : RawInstr} (hi : i ∈ is) : start ≤ i.offset ∧ i.next ≤ stop := by
  induction is generalizing start with
  | nil => simp at hi
  | cons j is ih =>
      have hlt := j.offset_lt_next
      rcases List.mem_cons.mp hi with rfl | hi
      · exact ⟨le_of_eq h.1.symm, h.2.le⟩
      · obtain ⟨hstart, hstop⟩ := ih h.2 hi
        have := h.1
        exact ⟨by omega, hstop⟩

/-- No instruction starts inside another one. -/
theorem Consecutive.disjoint {start stop : ℕ} {is : List RawInstr} (h : Consecutive start is stop)
    {i j : RawInstr} (hi : i ∈ is) (hj : j ∈ is) (hle : i.offset ≤ j.offset)
    (hlt : j.offset < i.next) : i = j := by
  induction is generalizing start with
  | nil => simp at hi
  | cons k is ih =>
      have hk := k.offset_lt_next
      rcases List.mem_cons.mp hi with rfl | hi' <;> rcases List.mem_cons.mp hj with rfl | hj'
      · rfl
      · have := (h.2.bounds hj').1
        omega
      · have := (h.2.bounds hi').1
        omega
      · exact ih h.2 hi' hj'

/-- Between an instruction and the next one nothing starts. -/
theorem Consecutive.lt_next_iff {start stop : ℕ} {is : List RawInstr}
    (h : Consecutive start is stop) {i w : RawInstr}
    (hi : i ∈ is) (hw : w ∈ is) : i.offset < w.next ↔ i.offset ≤ w.offset := by
  have hlt := w.offset_lt_next
  constructor
  · intro hbefore
    rcases Nat.lt_or_ge w.offset i.offset with hgt | hle
    · rw [h.disjoint hw hi (le_of_lt hgt) hbefore]
    · exact hle
  · intro hle
    omega

theorem Consecutive.offsets_pairwise {start stop : ℕ} {is : List RawInstr}
    (h : Consecutive start is stop) : (is.map RawInstr.offset).Pairwise (· < ·) := by
  induction is generalizing start with
  | nil => simp
  | cons i is ih =>
      rw [List.map_cons, List.pairwise_cons]
      refine ⟨fun o ho => ?_, ih h.2⟩
      obtain ⟨j, hj, rfl⟩ := List.mem_map.mp ho
      have := (h.2.bounds hj).1
      have := i.offset_lt_next
      omega

end TestExecutor
