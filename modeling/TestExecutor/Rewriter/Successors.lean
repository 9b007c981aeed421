import TestExecutor.Rewriter.Imported

/-!
# Successors in the list

Where control goes from a node of the imported list, compared with the transition that the managed
side reads out of the bytes.

* `ILRewriter.instrOffset` — the byte offset of a node, or of the end;
* `ILRewriter.listTransition` — the transition by the links and targets of the list;
* `Decoded.instrOffset_targetOf` — targets are resolved to nodes with the right offset;
* `transitions_agree` — both sides see the same successors.
-/

namespace TestExecutor

open TestExecutor.Library

/-! ### Opcodes by name -/

def IsUnconditionalBranch (opcode : ℕ) : Prop :=
  opcode = ceeBr ∨ opcode = ceeBrS ∨ opcode = ceeLeave ∨ opcode = ceeLeaveS

instance (opcode : ℕ) : Decidable (IsUnconditionalBranch opcode) := by
  unfold IsUnconditionalBranch; infer_instance

/-- The short and the long conditional branches. -/
def IsConditionalBranch (opcode : ℕ) : Prop :=
  ceeBrS < opcode ∧ opcode ≤ ceeBltUnS ∨ ceeBr < opcode ∧ opcode ≤ ceeBltUn

instance (opcode : ℕ) : Decidable (IsConditionalBranch opcode) := by
  unfold IsConditionalBranch; infer_instance

def IsReturn (opcode : ℕ) : Prop :=
  opcode = ceeRet ∨ opcode = ceeEndfinally ∨ opcode = ceeEndfilter

instance (opcode : ℕ) : Decidable (IsReturn opcode) := by unfold IsReturn; infer_instance

def IsThrow (opcode : ℕ) : Prop := opcode = ceeThrow ∨ opcode = ceeRethrow

instance (opcode : ℕ) : Decidable (IsThrow opcode) := by unfold IsThrow; infer_instance

/-- The names and the control-flow column of the table. -/
theorem opCtrl_eq_iff {opcode : ℕ} (hlt : opcode < ceeCount) :
    (opCtrl opcode = .ctrlBranch ↔ IsUnconditionalBranch opcode)
      ∧ (opCtrl opcode = .ctrlCondBranch ↔ IsConditionalBranch opcode ∨ opcode = ceeSwitch)
      ∧ (opCtrl opcode = .ctrlReturn ↔ IsReturn opcode)
      ∧ (opCtrl opcode = .ctrlThrow ↔ IsThrow opcode) := by
  have hall : ∀ opcode < ceeCount, (opCtrl opcode = .ctrlBranch ↔ IsUnconditionalBranch opcode)
      ∧ (opCtrl opcode = .ctrlCondBranch ↔ IsConditionalBranch opcode ∨ opcode = ceeSwitch)
      ∧ (opCtrl opcode = .ctrlReturn ↔ IsReturn opcode)
      ∧ (opCtrl opcode = .ctrlThrow ↔ IsThrow opcode) := by decide +kernel
  exact hall opcode hlt

/-! ### The transition of a node -/

/-- A switch-argument node. -/
def ILInstr.isSlot (i : ILInstr) : Bool := decide (i.m_opcode = ceeSwitchArg)

namespace ILRewriter

/-- The byte offset of a node, or of the end. -/
def instrOffset (s : ILRewriter) (p : ℕ) : ℕ := if p = pIL then s.m_CodeSize else s.offsetAt p

/-- The switch slots at the start of a list. -/
def leadingSlots (il : List ILInstr) : List ILInstr := il.takeWhile ILInstr.isSlot

/-- The byte offset of the first instruction of a list. -/
def instrBehind (s : ILRewriter) (il : List ILInstr) : ℕ :=
  s.instrOffset (headAddr ILInstr.addr pIL (il.dropWhile ILInstr.isSlot))

/-- The transition of a node, where `rest` stands behind it. -/
def listTransition (s : ILRewriter) (n : ILInstr) (rest : List ILInstr) : IpTransition :=
  if IsUnconditionalBranch n.m_opcode then .unconditionalBranch (s.instrOffset n.m_pTarget)
  else if IsConditionalBranch n.m_opcode then
    .conditionalBranch (s.instrBehind rest) [s.instrOffset n.m_pTarget]
  else if n.m_opcode = ceeSwitch then
    .conditionalBranch (s.instrBehind rest)
      ((leadingSlots rest).map fun slot => s.instrOffset slot.m_pTarget)
  else if IsReturn n.m_opcode then .ret
  else if IsThrow n.m_opcode then .exceptionMechanism
  else .fallThrough (s.instrBehind rest)

end ILRewriter

/-! ### Nodes of decoded instructions -/

namespace Decoded

variable {code : IlCode} {is : List RawInstr} (h : Decoded code is) {s : ILRewriter}
  {t : ℕ → ℕ} (hIL : s.m_IL = importedNodes t (pIL + 1) is) (hlinked : s.Linked)
  (hsize : s.m_CodeSize = code.size)

include h

theorem ne_switchArg {i : RawInstr} (hi : i ∈ is) : i.opcode ≠ ceeSwitchArg := by
  intro heq
  have hlt := h.opcode_lt hi
  rw [heq] at hlt
  exact absurd hlt (by decide)

/-- The slots of an instruction are what stands in front of the next one. -/
theorem span_slots {pre post : List RawInstr} {i : RawInstr} (his : is = pre ++ i :: post)
    (t : ℕ → ℕ) (a a' : ℕ) :
    ILRewriter.leadingSlots (i.tableNodes t a ++ importedNodes t a' post) = i.tableNodes t a
      ∧ (i.tableNodes t a ++ importedNodes t a' post).dropWhile ILInstr.isSlot
        = importedNodes t a' post := by
  have hslots : ∀ n ∈ i.tableNodes t a, n.isSlot = true := fun n hn =>
    decide_eq_true (tableNodes_opcode hn)
  have hrest : (importedNodes t a' post).takeWhile ILInstr.isSlot = []
      ∧ (importedNodes t a' post).dropWhile ILInstr.isSlot = importedNodes t a' post := by
    cases post with
    | nil => exact ⟨rfl, rfl⟩
    | cons k post =>
        have hne : ¬ (instrNode t a' k).isSlot = true := by
          rw [ILInstr.isSlot, instrNode_opcode, decide_eq_true_eq]
          exact h.ne_switchArg (by rw [his]; simp)
        rw [importedNodes, List.takeWhile_cons_of_neg hne, List.dropWhile_cons_of_neg hne]
        exact ⟨rfl, rfl⟩
  rw [ILRewriter.leadingSlots, List.takeWhile_append_of_pos hslots,
    List.dropWhile_append_of_pos hslots, hrest.1, hrest.2, List.append_nil]
  exact ⟨rfl, rfl⟩

include hIL hlinked hsize

/-- Targets are resolved to nodes with the right byte offset. -/
theorem instrOffset_targetOf {o : ℕ} (ho : IsStart is o ∨ o = code.size) :
    s.instrOffset (targetOf is code.size o) = o := by
  rcases ho with ho | rfl
  · have hlt := (h.targetOf_start ho).2
    obtain ⟨i, hi, rfl⟩ := ho
    obtain ⟨pre, post, his⟩ := List.append_of_mem hi
    have hlist : s.m_IL = importedNodes t (pIL + 1) pre
        ++ instrNode t (addrBehindAll (pIL + 1) pre) i
          :: (i.tableNodes t (addrBehindAll (pIL + 1) pre)
            ++ importedNodes t (addrBehind (addrBehindAll (pIL + 1) pre) i) post) := by
      rw [hIL, his, importedNodes_append, importedNodes]
    have hnode := hlinked.node_eq hlist
    rw [instrNode_addr, ← h.targetOf_split his] at hnode
    rw [ILRewriter.instrOffset, if_neg (ne_of_gt hlt), ILRewriter.offsetAt, hnode]
    exact instrNode_offset t _ i
  · rw [targetOf, if_pos rfl, ILRewriter.instrOffset, if_pos rfl, hsize]

theorem instrBehind_eq {pre post : List RawInstr} {i : RawInstr} (his : is = pre ++ i :: post) :
    s.instrBehind (i.tableNodes t (addrBehindAll (pIL + 1) pre)
      ++ importedNodes t (addrBehind (addrBehindAll (pIL + 1) pre) i) post) = i.next := by
  rw [ILRewriter.instrBehind, (h.span_slots his t _ _).2, h.headAddr_nodes his]
  exact h.instrOffset_targetOf hIL hlinked hsize
    (h.consecutive.next_isStart (by rw [his]; simp))

end Decoded

theorem tableNodes_map_target (t f : ℕ → ℕ) (targets : List ℕ) (a o : ℕ) :
    (tableNodes t a o targets).map (fun slot => f slot.m_pTarget)
      = targets.map fun target => f (t target) := by
  induction targets generalizing a o with
  | nil => rfl
  | cons target targets ih =>
      rw [tableNodes, List.map_cons, ih, List.map_cons]
      rfl

/-- The list and the bytes say the same about an instruction whose targets are in the body. -/
theorem Decoded.listTransition_eq {code : IlCode} {is pre post : List RawInstr} {i : RawInstr}
    {s : ILRewriter} (h : Decoded code is)
    (hIL : s.m_IL = importedNodes (targetOf is code.size) (pIL + 1) is) (hlinked : s.Linked)
    (hsize : s.m_CodeSize = code.size) (his : is = pre ++ i :: post)
    (htargets : ∀ o ∈ i.targets, IsStart is o) :
    s.listTransition (instrNode (targetOf is code.size) (addrBehindAll (pIL + 1) pre) i)
      (i.tableNodes (targetOf is code.size) (addrBehindAll (pIL + 1) pre)
        ++ importedNodes (targetOf is code.size) (addrBehind (addrBehindAll (pIL + 1) pre) i) post)
      = i.transition := by
  have hi : i ∈ is := by rw [his]; simp
  have hlt := h.opcode_lt hi
  obtain ⟨hbranch, hcond, hret, hthrow⟩ := opCtrl_eq_iff hlt
  have hnext := h.instrBehind_eq hIL hlinked hsize his
  have htarget : HasTarget i.opcode → s.instrOffset
      (instrNode (targetOf is code.size) (addrBehindAll (pIL + 1) pre) i).m_pTarget
        = i.argWord := by
    intro hhas
    rw [instrNode_target hhas]
    refine h.instrOffset_targetOf hIL hlinked hsize (Or.inl (htargets i.argWord ?_))
    rw [hasTarget_targets hlt hhas]
    exact List.mem_singleton_self _
  have hhas : ∀ opcode < ceeCount, IsUnconditionalBranch opcode ∨ IsConditionalBranch opcode →
      HasTarget opcode ∧ opcode ≠ ceeSwitch := by decide +kernel
  rw [ILRewriter.listTransition, instrNode_opcode, hnext, RawInstr.transition]
  by_cases hu : IsUnconditionalBranch i.opcode
  · rw [if_pos hu, hbranch.mpr hu, htarget (hhas _ hlt (Or.inl hu)).1]
  rw [if_neg hu]
  by_cases hc : IsConditionalBranch i.opcode
  · obtain ⟨hhas, -⟩ := hhas _ hlt (Or.inr hc)
    rw [if_pos hc, hcond.mpr (Or.inl hc), htarget hhas, hasTarget_targets hlt hhas]
  rw [if_neg hc]
  by_cases hswitch : i.opcode = ceeSwitch
  · have hctrl := hcond.mpr (Or.inr hswitch)
    have hslots : i.targets = i.slotTargets := by
      rw [RawInstr.targets, hctrl]
      exact if_pos hswitch
    rw [if_pos hswitch, hctrl, (h.span_slots his _ _ _).1, RawInstr.tableNodes,
      tableNodes_map_target, hslots]
    refine congrArg _ ((List.map_congr_left fun o ho => ?_).trans (List.map_id _))
    exact h.instrOffset_targetOf hIL hlinked hsize (Or.inl (htargets o (hslots ▸ ho)))
  rw [if_neg hswitch]
  by_cases hr : IsReturn i.opcode
  · rw [if_pos hr, hret.mpr hr]
  rw [if_neg hr]
  by_cases ht : IsThrow i.opcode
  · rw [if_pos ht, hthrow.mpr ht]
  rw [if_neg ht]
  have h₁ := fun h => hu (hbranch.mp h)
  have h₂ := fun h => (hcond.mp h).elim hc hswitch
  have h₃ := fun h => hr (hret.mp h)
  have h₄ := fun h => ht (hthrow.mp h)
  cases hctrl : opCtrl i.opcode with
  | ctrlNext | ctrlCall | ctrlBreak | ctrlMeta => rfl
  | ctrlBranch => exact absurd hctrl h₁
  | ctrlCondBranch => exact absurd hctrl h₂
  | ctrlReturn => exact absurd hctrl h₃
  | ctrlThrow => exact absurd hctrl h₄

/-- **The graph and the rewriter see the same successors.**  On a body that `ImportIL` accepts,
whose targets are instructions and whose opcodes are assigned, the managed side reads the opcode of
every instruction of the list at its byte offset, and finds the transition that the list gives. -/
theorem transitions_agree {code : IlCode} {s : ILRewriter}
    (himport : ILRewriter.new.importIL code = .ok s) (hassigned : UsesAssigned code)
    (htargets : ∀ is, instructions code = .ok is → ∀ i ∈ is, ∀ o ∈ i.targets, IsStart is o)
    {front back : List ILInstr} {n : ILInstr} (hlist : s.countOffsets.m_IL = front ++ n :: back)
    (hinstr : n.m_opcode ≠ ceeSwitchArg) :
    getOpCode code n.m_offset = .ok n.m_opcode
      ∧ findNextInstructionOffsetAndEdges n.m_opcode code n.m_offset
        = .ok (s.countOffsets.listTransition n back) := by
  obtain ⟨is, his, hdec, hsize, -, hlinked, hIL⟩ := importIL_accounted himport
  have hsplit := hlist
  rw [hIL] at hsplit
  obtain ⟨pre, i, post, hpre, -, rfl, rfl⟩ := importedNodes_split hsplit hinstr
  have hi : i ∈ is := by rw [hpre]; simp
  have hat := hdec.decodedAt hi
  rw [hdec.listTransition_eq hIL hlinked hsize hpre (htargets is his i hi), instrNode_opcode,
    instrNode_offset]
  exact ⟨getOpCode_of_decodeOpcode hat.opcode_eq (hassigned is his i hi), transition_of_decoded hat⟩

/-- The `switch` of `switchBody`. -/
theorem transitions_agree_switchBody : ∃ s, ILRewriter.new.importIL switchBody = .ok s
    ∧ getOpCode switchBody 1 = .ok ceeSwitch
    ∧ findNextInstructionOffsetAndEdges ceeSwitch switchBody 1
      = .ok (s.countOffsets.listTransition ⟨3, ceeSwitch, 1, 1⟩
        [⟨4, ceeSwitchArg, 6, 5⟩, ⟨5, ceeRet, 10, 0⟩]) := by
  obtain ⟨s, hs, hlist⟩ : ∃ s, ILRewriter.new.importIL switchBody = .ok s
      ∧ s.countOffsets.m_IL = [⟨2, ceeLdcI40, 0, 0⟩]
        ++ ⟨3, ceeSwitch, 1, 1⟩ :: [⟨4, ceeSwitchArg, 6, 5⟩, ⟨5, ceeRet, 10, 0⟩] := ⟨_, rfl, rfl⟩
  refine ⟨s, hs, transitions_agree hs ?_ ?_ hlist (by decide)⟩
  · intro is his
    obtain rfl := (Except.ok.inj his).symm
    decide
  · intro is his
    obtain rfl := (Except.ok.inj his).symm
    decide

end TestExecutor
