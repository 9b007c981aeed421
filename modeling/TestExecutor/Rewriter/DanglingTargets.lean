import TestExecutor.Rewriter.Imported

/-!
# Targets that lead nowhere

`ImportIL` on arbitrary bytes: what it lets pass.

* `AccountedFor` — the list holds the instructions of the whole body, and their switch slots;
* `ImportsWhole` — a success means that all bytes are accounted for and all targets are in the
  list;
* `targetOf_nodeOrEnd_iff` — a target that is no instruction resolves to null;
* `importsWhole_iff` — the bytes are checked, the targets are not.
-/

namespace TestExecutor

open TestExecutor.Library

/-- The nodes are those of the instructions and switch slots from the first byte to the last, with
the targets that the table of instruction starts has. -/
def AccountedFor (code : IlCode) (s : ILRewriter) : Prop :=
  s.m_CodeSize = code.size ∧ ∃ is, Decoded code is
    ∧ s.countOffsets.m_IL = importedNodes s.getInstrFromOffset (pIL + 1) is

/-- Whenever `ImportIL` succeeds, nothing is left out and no target is missing. -/
def ImportsWhole (code : IlCode) : Prop :=
  ∀ s, ILRewriter.new.importIL code = .ok s → AccountedFor code s ∧ TargetsInList s.m_IL

/-! ### What is imported -/

/-- Byte offsets do not matter for targets. -/
theorem targetsInList_countOffsets (s : ILRewriter) :
    TargetsInList s.countOffsets.m_IL ↔ TargetsInList s.m_IL := by
  have hmem : ∀ (opcode p : ℕ), (opcode, p) ∈ s.countOffsets.m_IL.map ILInstr.content
      ↔ (opcode, p) ∈ s.m_IL.map ILInstr.content := by
    intro opcode p
    rw [show s.countOffsets.m_IL.map ILInstr.content = s.m_IL.map ILInstr.content from
      countOffsetsFrom_map_content s.m_IL 0]
  have haddr : s.countOffsets.m_IL.map ILInstr.addr = s.m_IL.map ILInstr.addr :=
    countOffsetsFrom_map_addr s.m_IL 0
  have hall : ∀ il : List ILInstr, TargetsInList il ↔ ∀ opcode p,
      (opcode, p) ∈ il.map ILInstr.content → (opCodeFlags opcode).branchTarget = true →
        NodeOrEnd il p := by
    intro il
    constructor
    · intro h opcode p hcontent hbranch
      obtain ⟨i, hi, heq⟩ := List.mem_map.mp hcontent
      obtain ⟨rfl, rfl⟩ := Prod.mk.inj heq
      exact h i hi hbranch
    · intro h i hi hbranch
      exact h i.m_opcode i.m_Arg64 (List.mem_map_of_mem hi) hbranch
  rw [hall, hall]
  unfold NodeOrEnd
  simp only [hmem, haddr]

/-! ### Targets -/

/-- What is no instruction resolves to null, which is no node of the list. -/
theorem Decoded.targetOf_nodeOrEnd_iff {code : IlCode} {is : List RawInstr} (h : Decoded code is)
    (t : ℕ → ℕ) (o : ℕ) :
    NodeOrEnd (importedNodes t (pIL + 1) is) (targetOf is code.size o)
      ↔ IsStart is o ∨ o = code.size := by
  constructor
  · intro hnode
    by_contra hno
    obtain ⟨hstart, hend⟩ := not_or.mp hno
    have hnone : startAddr (pIL + 1) is o = none := by
      rw [← Option.not_isSome_iff_eq_none, startAddr_isSome_iff]
      exact hstart
    have hnull : targetOf is code.size o = nullPtr := by
      rw [targetOf, if_neg hend, hnone]
      rfl
    rw [hnull] at hnode
    have hpos : ∀ (js : List RawInstr) (a : ℕ), 0 < a →
        ∀ p ∈ (importedNodes t a js).map ILInstr.addr, 0 < p := by
      intro js
      induction js with
      | nil => intro a _ p hp; cases hp
      | cons i js ih =>
          intro a ha p hp
          rw [importedNodes, List.map_cons, List.map_append, instrNode_addr, RawInstr.tableNodes,
            tableNodes_addr] at hp
          rcases List.mem_cons.mp hp with rfl | hp
          · exact ha
          · rcases List.mem_append.mp hp with hp | hp
            · have := (List.mem_range'_1.mp hp).1
              omega
            · exact ih _ (by unfold addrBehind; omega) p hp
    rcases hnode with hnode | hnode
    · exact absurd hnode (by decide)
    · exact absurd (hpos is (pIL + 1) (Nat.succ_pos _) nullPtr hnode) (lt_irrefl _)
  · rintro (hstart | rfl)
    · exact Or.inr (h.targetOf_mem hstart t)
    · exact Or.inl (if_pos rfl)

/-- **What `ImportIL` lets pass.**  The instructions are always accounted for; the targets are in
the list exactly if all of them are instruction starts, or the end. -/
theorem importsWhole_iff (code : IlCode) : ImportsWhole code ↔
    ∀ is, instructions code = .ok is → ∀ i ∈ is, ∀ t ∈ i.targets, IsStart is t ∨ t = code.size := by
  constructor
  · intro hwhole is his i hi t ht
    obtain ⟨s, hs⟩ : ∃ s, ILRewriter.new.importIL code = .ok s := by
      rw [ILRewriter.importIL_eq, show decodeAll code code.size 0 = .ok is from his]
      exact ⟨_, rfl⟩
    obtain ⟨is', his', hdec, -, -, -, hIL⟩ := importIL_accounted hs
    obtain rfl : is = is' := Except.ok.inj (his.symm.trans his')
    have htargets := (targetsInList_countOffsets s).mpr (hwhole s hs).2
    obtain ⟨v, hv, hhas, htarget⟩ := hdec.target_node hi ht
    rw [← hIL] at hv
    have hnode := htargets v hv hhas
    rw [htarget, hIL] at hnode
    exact (hdec.targetOf_nodeOrEnd_iff _ t).mp hnode
  · intro hall s hs
    obtain ⟨is, his, hdec, hsize, htable, -, hIL⟩ := importIL_accounted hs
    refine ⟨⟨hsize, is, hdec, by rw [hIL, htable]⟩, (targetsInList_countOffsets s).mp ?_⟩
    rw [hIL]
    intro v hv hhas
    obtain ⟨i, hi, o, ho, htarget⟩ := hdec.node_target hv hhas
    rw [htarget]
    exact (hdec.targetOf_nodeOrEnd_iff _ o).mpr (hall is his i hi o ho)

/-- `br.s` into its own operand. -/
def danglingBranch : IlCode := ⟨[0x2B, 0xFF], by decide⟩

/-- It is imported, with null for its target. -/
theorem danglingBranch_imported : ∃ s, ILRewriter.new.importIL danglingBranch = .ok s
    ∧ s.m_IL = [⟨2, ceeBrS, 0, nullPtr⟩] ∧ ¬ImportsWhole danglingBranch := by
  obtain ⟨s, hs, hIL⟩ : ∃ s, ILRewriter.new.importIL danglingBranch = .ok s
      ∧ s.m_IL = [⟨2, ceeBrS, 0, nullPtr⟩] := ⟨_, rfl, rfl⟩
  refine ⟨s, hs, hIL, fun hwhole => ?_⟩
  have htargets := (hwhole s hs).2
  rw [hIL] at htargets
  rcases htargets _ List.mem_cons_self rfl with hnull | hnode
  · exact absurd hnull (by decide)
  · exact absurd hnode (by decide)

end TestExecutor
