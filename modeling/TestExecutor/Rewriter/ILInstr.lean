import TestExecutor.Library.NodeList
import TestExecutor.IL.IlCode

/-!
# The instruction list of the rewriter

`ILRewriter` before its algorithms: nodes that point to one another, the linked list behind the
sentinel `m_IL`, and the operations that grow it.

* `nullPtr`, and `pIL`, the address of the sentinel; addresses are numbers;
* `ILInstr` — a node; its operand union is one word, of which the narrow members are the low
  bytes and `m_pTarget` is the word read as an address;
* `EHClause`, `MethodBody` — exception clauses over nodes, and what the CLR hands in;
* `ILRewriter` — the list, the clauses and the counters;
* `newILInstr`, `insertBefore`, `insertAfter`, `getInstrFromOffset`, `countOffsets` — the
  operations, and what they leave alone.
-/

namespace TestExecutor

open TestExecutor.Library

/-- Addresses are numbers; no node has this one. -/
def nullPtr : ℕ := 0

/-- `&m_IL`. -/
def pIL : ℕ := 1

/-- A node of the list. -/
structure ILInstr where
  addr : ℕ
  m_opcode : ℕ
  m_offset : ℕ
  m_Arg64 : ℕ
  deriving DecidableEq, Repr

namespace ILInstr

def m_Arg8 (i : ILInstr) : ℕ := i.m_Arg64 % 2 ^ 8

def m_Arg16 (i : ILInstr) : ℕ := i.m_Arg64 % 2 ^ 16

def m_Arg32 (i : ILInstr) : ℕ := i.m_Arg64 % 2 ^ 32

def m_pTarget (i : ILInstr) : ℕ := i.m_Arg64

end ILInstr

/-- `COR_ILEXCEPTION_CLAUSE_FILTER`. -/
def corIlexceptionClauseFilter : ℕ := 1

/-- `m_Flags & COR_ILEXCEPTION_CLAUSE_FILTER`. -/
def isFilterFlags (flags : ℕ) : Bool := flags % 2 = corIlexceptionClauseFilter

/-- An exception clause over nodes; its last field is the union of `m_ClassToken` and
`m_pFilter`. -/
structure EHClause where
  m_Flags : ℕ
  m_pTryBegin : ℕ
  m_pTryEnd : ℕ
  m_pHandlerBegin : ℕ
  -- the last node inside the handler
  m_pHandlerEnd : ℕ
  m_ClassTokenOrFilter : ℕ
  deriving DecidableEq, Repr

/-- An exception clause in its fat form, over byte offsets. -/
structure EhInfo where
  flags : ℕ
  tryOffset : ℕ
  tryLength : ℕ
  handlerOffset : ℕ
  handlerLength : ℕ
  classTokenOrFilterOffset : ℕ
  deriving DecidableEq, Repr

/-- A method body as the CLR hands it in. -/
structure MethodBody where
  flags : ℕ
  maxStack : ℕ
  localVarSigTok : ℕ
  code : IlCode
  eh : List EhInfo

/-- How the rewriter gives up; the last three are undefined behaviour, of which `unsetRead` reads a
field of the sentinel that nothing has set. -/
inductive RewriteError where
  | corEInvalidProgram | eFail | nullDereference | bufferOverrun | unsetRead
  deriving DecidableEq, Repr

structure ILRewriter where
  -- the ring behind the sentinel, in order
  m_IL : List ILInstr
  -- the address of the next node
  fresh : ℕ
  m_nInstrs : ℕ
  m_maxStack : ℕ
  m_flags : ℕ
  m_tkLocalVarSig : ℕ
  m_fGenerateTinyHeader : Bool
  m_CodeSize : ℕ
  m_pOffsetToInstr : ℕ → ℕ
  m_pEH : List EHClause

namespace ILRewriter

/-- The constructor: an empty ring. -/
def new : ILRewriter where
  m_IL := []
  fresh := pIL + 1
  m_nInstrs := 0
  m_maxStack := 0
  m_flags := 0
  m_tkLocalVarSig := 0
  m_fGenerateTinyHeader := false
  m_CodeSize := 0
  m_pOffsetToInstr := fun _ => nullPtr
  m_pEH := []

/-! ### Links -/

def node (s : ILRewriter) (p : ℕ) : Option ILInstr := findNode ILInstr.addr p s.m_IL

/-- `m_pNext` of the sentinel. -/
def first (s : ILRewriter) : ℕ := headAddr ILInstr.addr pIL s.m_IL

def m_pNext (s : ILRewriter) (p : ℕ) : ℕ :=
  if p = pIL then s.first else nextAddr ILInstr.addr pIL p s.m_IL

def m_pPrev (s : ILRewriter) (p : ℕ) : ℕ := prevAddr ILInstr.addr pIL p s.m_IL

/-! ### Growing the list -/

/-- `NewILInstr`: the address of a node that is not linked yet. -/
def newILInstr (s : ILRewriter) : ℕ × ILRewriter :=
  (s.fresh, { s with fresh := s.fresh + 1, m_nInstrs := s.m_nInstrs + 1 })

def adjustState (s : ILRewriter) (pNewInstr : ILInstr) : ILRewriter :=
  { s with m_maxStack := (s.m_maxStack + rgnStackPushes pNewInstr.m_opcode) % 2 ^ 32 }

def insertBefore (s : ILRewriter) (pWhere : ℕ) (pWhat : ILInstr) : ILRewriter :=
  { s with m_IL := spliceBefore ILInstr.addr pWhere pWhat s.m_IL }.adjustState pWhat

def insertAfter (s : ILRewriter) (pWhere : ℕ) (pWhat : ILInstr) : ILRewriter :=
  { s with
    m_IL := if pWhere = pIL then pWhat :: s.m_IL
      else spliceAfter ILInstr.addr pWhere pWhat s.m_IL }.adjustState pWhat

def modify (s : ILRewriter) (p : ℕ) (f : ILInstr → ILInstr) : ILRewriter :=
  { s with m_IL := modifyNode ILInstr.addr p f s.m_IL }

/-- `GetInstrFromOffset`: null behind the end and inside an instruction. -/
def getInstrFromOffset (s : ILRewriter) (offset : ℕ) : ℕ :=
  if offset ≤ s.m_CodeSize then s.m_pOffsetToInstr offset else nullPtr

@[simp] theorem adjustState_m_IL (s : ILRewriter) (i : ILInstr) :
    (s.adjustState i).m_IL = s.m_IL := rfl

@[simp] theorem insertBefore_m_IL (s : ILRewriter) (p : ℕ) (i : ILInstr) :
    (s.insertBefore p i).m_IL = spliceBefore ILInstr.addr p i s.m_IL := rfl

@[simp] theorem modify_m_IL (s : ILRewriter) (p : ℕ) (f : ILInstr → ILInstr) :
    (s.modify p f).m_IL = modifyNode ILInstr.addr p f s.m_IL := rfl

/-! ### Addresses -/

/-- The addresses of the ring are those of allocated nodes, each once. -/
structure Linked (s : ILRewriter) : Prop where
  nodup : (s.m_IL.map ILInstr.addr).Nodup
  allocated : ∀ i ∈ s.m_IL, pIL < i.addr ∧ i.addr < s.fresh
  sentinel_lt : pIL < s.fresh

theorem Linked.pIL_notMem {s : ILRewriter} (h : s.Linked) : pIL ∉ s.m_IL.map ILInstr.addr := by
  intro hmem
  obtain ⟨i, hi, haddr⟩ := List.mem_map.mp hmem
  exact absurd haddr (ne_of_gt (h.allocated i hi).1)

theorem Linked.fresh_notMem {s : ILRewriter} (h : s.Linked) :
    s.fresh ∉ s.m_IL.map ILInstr.addr := by
  intro hmem
  obtain ⟨i, hi, haddr⟩ := List.mem_map.mp hmem
  exact absurd haddr (ne_of_lt (h.allocated i hi).2)

/-- A list with one more node, a new one. -/
theorem Linked.of_perm {s s' : ILRewriter} {x : ILInstr} (h : s.Linked) (hx : x.addr = s.fresh)
    (hfresh : s'.fresh = s.fresh + 1) (hperm : s'.m_IL.Perm (x :: s.m_IL)) : s'.Linked := by
  refine ⟨?_, fun i hi => ?_, ?_⟩
  · refine (hperm.map ILInstr.addr).nodup_iff.mpr ?_
    rw [List.map_cons, hx]
    exact List.nodup_cons.mpr ⟨h.fresh_notMem, h.nodup⟩
  · rw [hfresh]
    rcases List.mem_cons.mp (hperm.mem_iff.mp hi) with rfl | hi
    · have := h.sentinel_lt
      omega
    · have := h.allocated i hi
      omega
  · rw [hfresh]
    exact Nat.lt_succ_of_lt h.sentinel_lt

/-- A list with the same addresses. -/
theorem Linked.of_addr {s s' : ILRewriter} (h : s.Linked) (hfresh : s'.fresh = s.fresh)
    (haddr : s'.m_IL.map ILInstr.addr = s.m_IL.map ILInstr.addr) : s'.Linked := by
  refine ⟨haddr ▸ h.nodup, fun i hi => ?_, hfresh ▸ h.sentinel_lt⟩
  have hmem : i.addr ∈ s.m_IL.map ILInstr.addr := haddr ▸ List.mem_map_of_mem hi
  obtain ⟨j, hj, hij⟩ := List.mem_map.mp hmem
  rw [← hij, hfresh]
  exact h.allocated j hj

theorem linked_new : ILRewriter.new.Linked := ⟨List.nodup_nil, by simp [new], by decide⟩

/-! ### Byte offsets of the nodes -/

end ILRewriter

/-- The bytes that a node stands for: those of an instruction, or of one switch slot. -/
def ILInstr.byteSize (i : ILInstr) : ℕ :=
  (if i.m_opcode < ceeCount then opcodeSize i.m_opcode else 0) + operandSize i.m_opcode

/-- The loop of `countOffsets`. -/
def countOffsetsFrom : ℕ → List ILInstr → List ILInstr
  | _, [] => []
  | offset, i :: is => { i with m_offset := offset } :: countOffsetsFrom (offset + i.byteSize) is

def ILRewriter.countOffsets (s : ILRewriter) : ILRewriter :=
  { s with m_IL := countOffsetsFrom 0 s.m_IL }

end TestExecutor
