import TestExecutor.Rewriter.ReadBack

/-!
# Edited lists, and lists that mean the same

What a user of the rewriter does between `Import` and `Export`, and when two lists are the same
up to the addresses of their nodes.

* `Edit`, `ILRewriter.edits` — insertions of new nodes and changes of opcodes;
* `Editable` — what every imported list satisfies, and every edit keeps (`importBody_editable`,
  `Editable.edits`);
* `TablesAndTargetsKept`, `ExportReady` — what an edited list must not have lost;
* `SameNode`, `SameInstr`, `SameClause`, `Isomorphic` — equality up to addresses and to the
  widening of short branches.
-/

namespace TestExecutor

open TestExecutor.Library

/-! ### Edits -/

/-- A change of an imported list. -/
inductive Edit where
  | insertBefore (pWhere opcode arg : ℕ)
  | insertAfter (pWhere opcode arg : ℕ)
  | setOpcode (pInstr opcode : ℕ)
  deriving DecidableEq, Repr

namespace ILRewriter

/-- Inserted nodes are new ones. -/
def edit (s : ILRewriter) : Edit → ILRewriter
  | .insertBefore pWhere opcode arg =>
      s.newILInstr.2.insertBefore pWhere ⟨s.newILInstr.1, opcode, 0, arg⟩
  | .insertAfter pWhere opcode arg =>
      s.newILInstr.2.insertAfter pWhere ⟨s.newILInstr.1, opcode, 0, arg⟩
  | .setOpcode pInstr opcode => s.modify pInstr fun i => { i with m_opcode := opcode }

def edits (s : ILRewriter) (es : List Edit) : ILRewriter := es.foldl edit s

/-- Addresses are distinct, no more nodes are linked than were created, and the header is a fat
one. -/
structure Editable (s : ILRewriter) : Prop where
  linked : s.Linked
  counted : s.m_IL.length ≤ s.m_nInstrs
  fat : s.m_fGenerateTinyHeader = false

variable {s : ILRewriter}

theorem Editable.of_perm {s' : ILRewriter} {x : ILInstr} (h : s.Editable) (hx : x.addr = s.fresh)
    (hfresh : s'.fresh = s.fresh + 1) (hcount : s'.m_nInstrs = s.m_nInstrs + 1)
    (hheader : s'.m_fGenerateTinyHeader = s.m_fGenerateTinyHeader)
    (hperm : s'.m_IL.Perm (x :: s.m_IL)) : s'.Editable := by
  refine ⟨h.linked.of_perm hx hfresh hperm, ?_, hheader.trans h.fat⟩
  rw [hperm.length_eq, hcount, List.length_cons]
  exact Nat.succ_le_succ h.counted

theorem Editable.of_addr {s' : ILRewriter} (h : s.Editable) (hfresh : s.fresh ≤ s'.fresh)
    (hcount : s.m_nInstrs ≤ s'.m_nInstrs)
    (hheader : s'.m_fGenerateTinyHeader = s.m_fGenerateTinyHeader)
    (haddr : s'.m_IL.map ILInstr.addr = s.m_IL.map ILInstr.addr) : s'.Editable := by
  have hlength : s'.m_IL.length = s.m_IL.length := by simpa using congrArg List.length haddr
  refine ⟨⟨haddr ▸ h.linked.nodup, fun i hi => ?_, lt_of_lt_of_le h.linked.sentinel_lt hfresh⟩,
    ?_, hheader.trans h.fat⟩
  · have hmem : i.addr ∈ s.m_IL.map ILInstr.addr := haddr ▸ List.mem_map_of_mem hi
    obtain ⟨j, hj, hij⟩ := List.mem_map.mp hmem
    have := h.linked.allocated j hj
    omega
  · rw [hlength]
    exact h.counted.trans hcount

theorem Editable.edit (h : s.Editable) (e : Edit) : (s.edit e).Editable := by
  cases e with
  | insertBefore pWhere opcode arg =>
      exact h.of_perm (x := ⟨s.fresh, opcode, 0, arg⟩) rfl rfl rfl rfl (spliceBefore_perm _ _ _)
  | insertAfter pWhere opcode arg =>
      by_cases hp : pWhere = pIL
      · refine h.of_perm (x := ⟨s.fresh, opcode, 0, arg⟩) rfl rfl rfl rfl ?_
        show (if pWhere = pIL then _ else _ : List ILInstr).Perm _
        rw [if_pos hp]
        exact List.Perm.refl _
      · have hIL : (s.edit (.insertAfter pWhere opcode arg)).m_IL
            = spliceAfter ILInstr.addr pWhere ⟨s.fresh, opcode, 0, arg⟩ s.m_IL := if_neg hp
        have hperm : (spliceAfter ILInstr.addr pWhere ⟨s.fresh, opcode, 0, arg⟩ s.m_IL).Perm _ ∨ _ :=
          spliceAfter_perm pWhere _ s.m_IL
        rcases hperm with hperm | hsame
        · exact h.of_perm rfl rfl rfl rfl (hIL ▸ hperm)
        · exact h.of_addr (Nat.le_succ _) (Nat.le_succ _) rfl (by rw [hIL, hsame])
  | setOpcode pInstr opcode =>
      refine h.of_addr (le_refl _) (le_refl _) rfl ?_
      exact modifyNode_map_addr (f := fun i : ILInstr => { i with m_opcode := opcode }) (fun _ => rfl) _ _

theorem Editable.edits (h : s.Editable) (es : List Edit) : (s.edits es).Editable := by
  induction es generalizing s with
  | nil => exact h
  | cons e es ih => exact ih (h.edit e)

/-! ### Imported lists are editable -/

theorem Editable.appendNode (h : s.Editable) (opcode arg : ℕ) : (s.appendNode opcode arg).Editable :=
  h.of_perm (x := ⟨s.fresh, opcode, 0, arg⟩) rfl rfl rfl rfl (spliceBefore_perm _ _ _)

theorem Editable.appendSlots (h : s.Editable) (targets : List ℕ) :
    (targets.foldl (fun s target => s.appendNode ceeSwitchArg target) s).Editable := by
  induction targets generalizing s with
  | nil => exact h
  | cons target targets ih => exact ih (h.appendNode ceeSwitchArg target)

theorem Editable.importInstr (h : s.Editable) (i : RawInstr) : (s.importInstr i).Editable := by
  have hentered : { s.appendNode i.opcode i.argWord with
      m_pOffsetToInstr := Function.update (s.appendNode i.opcode i.argWord).m_pOffsetToInstr
        i.offset s.fresh }.Editable :=
    (h.appendNode i.opcode i.argWord).of_addr (le_refl _) (le_refl _) rfl rfl
  exact hentered.appendSlots i.slotTargets

theorem Editable.foldl_importInstr (is : List RawInstr) (h : s.Editable) :
    (is.foldl ILRewriter.importInstr s).Editable := by
  induction is generalizing s with
  | nil => exact h
  | cons i is ih => exact ih (h.importInstr i)

theorem importIL_eq (s : ILRewriter) (code : IlCode) :
    s.importIL code = (decodeAll code code.size 0).map fun is =>
      (is.foldl ILRewriter.importInstr { s with
        m_CodeSize := code.size
        m_pOffsetToInstr := Function.update (fun _ => nullPtr) code.size pIL }).resolveTargets := by
  rw [importIL, importLoop_eq]
  cases decodeAll code code.size 0 with
  | error e => rfl
  | ok is => rfl

theorem resolveTarget_addr (i : ILInstr) : (s.resolveTarget i).addr = i.addr := by
  unfold resolveTarget
  split <;> rfl

theorem importBody_editable {body : MethodBody} (h : importBody body = .ok s) : s.Editable := by
  have hnew : { ILRewriter.new with
      m_tkLocalVarSig := body.localVarSigTok
      m_maxStack := body.maxStack
      m_flags := initLocalsFlag body.flags
      m_CodeSize := body.code.size
      m_pOffsetToInstr := Function.update (fun _ => nullPtr) body.code.size pIL }.Editable :=
    ⟨⟨linked_new.nodup, linked_new.allocated, linked_new.sentinel_lt⟩, le_refl _, rfl⟩
  rw [importBody, importIL_eq] at h
  cases hdecode : decodeAll body.code body.code.size 0 with
  | error e => rw [hdecode] at h; cases h
  | ok is =>
      rw [hdecode] at h
      have hfold := hnew.foldl_importInstr is
      revert hfold
      change ILRewriter.importEH (ILRewriter.resolveTargets (is.foldl ILRewriter.importInstr _))
        body.eh = _ at h
      revert h
      generalize is.foldl ILRewriter.importInstr _ = s'
      intro h hfold
      rw [importEH] at h
      cases hclauses : body.eh.mapM s'.resolveTargets.importClause with
      | error e => rw [hclauses] at h; cases h
      | ok clauses =>
          rw [hclauses] at h
          obtain rfl := (Except.ok.inj h).symm
          refine hfold.of_addr (le_refl _) (le_refl _) rfl ?_
          show (s'.m_IL.map s'.resolveTarget).map ILInstr.addr = _
          rw [List.map_map]
          exact List.map_congr_left fun i _ => resolveTarget_addr i

end ILRewriter

/-! ### What edits must keep -/

/-- The node of an instruction, not of a switch slot, or the end. -/
def InstrOrEnd (il : List ILInstr) (p : ℕ) : Prop :=
  p = pIL ∨ ∃ i ∈ il, i.addr = p ∧ i.m_opcode ≠ ceeSwitchArg

/-- The node of a clause boundary that is looked up by its offset: every one but the handler
end. -/
def EHClause.boundaries (c : EHClause) : List ℕ :=
  [c.m_pTryBegin, c.m_pTryEnd, c.m_pHandlerBegin]
    ++ if isFilterFlags c.m_Flags then [c.m_ClassTokenOrFilter] else []

namespace ILRewriter

/-- Every switch has its table, every target and every clause boundary is in the list. -/
structure TablesAndTargetsKept (s : ILRewriter) : Prop where
  tables : SwitchTables s.m_IL
  targets : TargetsInList s.m_IL
  boundaries : ∀ c ∈ s.m_pEH, (∀ p ∈ c.boundaries, NodeOrEnd s.m_IL p)
    ∧ NodeOrEnd s.m_IL c.m_pHandlerEnd

/-- Moreover no target, no boundary and no node behind a handler is a switch slot, and the size
of the output buffer can be counted. -/
structure ExportReady (s : ILRewriter) : Prop where
  tables : SwitchTables s.m_IL
  targets : ∀ i ∈ s.m_IL, (opCodeFlags i.m_opcode).branchTarget = true →
    InstrOrEnd s.m_IL i.m_pTarget
  boundaries : ∀ c ∈ s.m_pEH, (∀ p ∈ c.boundaries, InstrOrEnd s.m_IL p)
    ∧ NodeOrEnd s.m_IL c.m_pHandlerEnd ∧ InstrOrEnd s.m_IL (s.m_pNext c.m_pHandlerEnd)
  buffer : s.m_nInstrs * 10 < 2 ^ 32

end ILRewriter

/-! ### Isomorphic lists -/

/-- The nodes at one position of both lists, or both ends. -/
def SameNode (il il' : List ILInstr) (p p' : ℕ) : Prop :=
  (p = pIL ∧ p' = pIL)
    ∨ ∃ k : ℕ, (il.map ILInstr.addr)[k]? = some p ∧ (il'.map ILInstr.addr)[k]? = some p'

/-- The same instruction, or the long form of a short branch. -/
structure SameInstr (il il' : List ILInstr) (i i' : ILInstr) : Prop where
  opcode : i'.m_opcode = i.m_opcode
    ∨ IsShortBranch i.m_opcode ∧ i'.m_opcode = widenOpcode i.m_opcode
  target : (opCodeFlags i.m_opcode).branchTarget = true →
    SameNode il il' i.m_pTarget i'.m_pTarget
  operand : (opCodeFlags i.m_opcode).branchTarget = false →
    i'.m_Arg64 % 256 ^ operandSize i.m_opcode = i.m_Arg64 % 256 ^ operandSize i.m_opcode

structure SameClause (il il' : List ILInstr) (c c' : EHClause) : Prop where
  flags : c'.m_Flags = c.m_Flags
  tryBegin : SameNode il il' c.m_pTryBegin c'.m_pTryBegin
  tryEnd : SameNode il il' c.m_pTryEnd c'.m_pTryEnd
  handlerBegin : SameNode il il' c.m_pHandlerBegin c'.m_pHandlerBegin
  handlerEnd : SameNode il il' c.m_pHandlerEnd c'.m_pHandlerEnd
  filter : isFilterFlags c.m_Flags = true →
    SameNode il il' c.m_ClassTokenOrFilter c'.m_ClassTokenOrFilter
  classToken : isFilterFlags c.m_Flags = false →
    c'.m_ClassTokenOrFilter = c.m_ClassTokenOrFilter

/-- Equal lists and clauses, up to addresses and to the widening of short branches. -/
structure Isomorphic (s s' : ILRewriter) : Prop where
  instrs : List.Forall₂ (SameInstr s.m_IL s'.m_IL) s.m_IL s'.m_IL
  clauses : List.Forall₂ (SameClause s.m_IL s'.m_IL) s.m_pEH s'.m_pEH

/-- `Export` ends, and importing what it produced gives the list back. -/
def ILRewriter.ExportsBack (s : ILRewriter) : Prop :=
  ∃ rounds body, s.exportBody rounds = some (.ok body) ∧
    ∀ hlen : body.code.length < 2 ^ 31, ∃ s',
      ILRewriter.importBody (body.toMethodBody hlen) = .ok s' ∧ Isomorphic s s'

end TestExecutor
