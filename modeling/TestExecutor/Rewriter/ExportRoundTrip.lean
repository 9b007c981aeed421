import TestExecutor.Rewriter.Edits

/-!
# Export and import are inverse

The exported body means the edited list.

* `Reimported` — the list that an import builds out of exported bytes (`importIL_reimported`);
* `Reimported.sameNode`, `Reimported.prev` — its nodes stand for those of the exported list;
* `Reimported.instrs`, `Reimported.clause` — instructions and exception clauses;
* `exportsBack_of_exportReady` — the round trip of every edited list that is ready for it;
* `tablesAndTargetsKept_not_enough` — a target that is a switch slot, a slot behind a handler, and a
  buffer size that wraps around.
-/

namespace TestExecutor

open TestExecutor.Library ILRewriter

/-! ### Widened lists keep what matters -/

theorem SwitchTables.widened {il il' : List ILInstr} (h : SwitchTables il)
    (hwidened : Widened il il') : SwitchTables il' := by
  induction h generalizing il' with
  | nil =>
      obtain rfl : il' = [] := List.forall₂_nil_left_iff.mp hwidened
      exact SwitchTables.nil
  | @instr i is himportable hne _ ih =>
      obtain ⟨j, js, hj, hjs, rfl⟩ := List.forall₂_cons_left_iff.mp hwidened
      refine SwitchTables.instr ?_ (fun hop => hne (hj.switch_iff.mp hop)) (ih hjs)
      rcases hj.m_opcode with hop | ⟨hshort, hop⟩
      · rwa [hop]
      · have hlt := (widenOpcode_spec hshort).2.1
        rw [hop]
        unfold ceePrefix7 at hlt
        unfold Importable ceePrefix7 ceePrefix2 ceePrefix1 ceeCount
        omega
  | @switch i slots is hop hlen hslots _ ih =>
      obtain ⟨j, js, hj, hjs, rfl⟩ := List.forall₂_cons_left_iff.mp hwidened
      have hslots' := (List.forall₂_take_append _ _ _ hjs.flip).flip
      have hrest := (List.forall₂_drop_append _ _ _ hjs.flip).flip
      rw [← List.take_append_drop slots.length js]
      refine SwitchTables.switch (hj.switch_iff.mpr hop) ?_ ?_ (ih hrest)
      · rw [← hslots'.length_eq, hlen, ILInstr.m_Arg32, ILInstr.m_Arg32, hj.m_Arg64]
      · intro k hk
        obtain ⟨k', hk', hkk'⟩ := forall₂_exists_left hslots' hk
        exact hkk'.switchArg_iff.mpr (hslots k' hk')

theorem SwitchTables.importable {il : List ILInstr} (h : SwitchTables il) {i : ILInstr}
    (hi : i ∈ il) (hne : i.m_opcode ≠ ceeSwitchArg) : Importable i.m_opcode := by
  induction h with
  | nil => cases hi
  | instr himportable _ _ ih =>
      rcases List.mem_cons.mp hi with rfl | hi
      · exact himportable
      · exact ih hi
  | switch hop _ hslots _ ih =>
      rcases List.mem_cons.mp hi with rfl | hi
      · rw [hop]
        decide
      · rcases List.mem_append.mp hi with hi | hi
        · exact absurd (hslots i hi) hne
        · exact ih hi

theorem InstrOrEnd.widened {il il' : List ILInstr} {p : ℕ} (h : InstrOrEnd il p)
    (hwidened : Widened il il') : InstrOrEnd il' p := by
  rcases h with rfl | ⟨i, hi, rfl, hne⟩
  · exact Or.inl rfl
  · obtain ⟨j, hj, hij⟩ := forall₂_exists_right hwidened hi
    exact Or.inr ⟨j, hj, hij.addr, fun hop => hne (hij.switchArg_iff.mp hop)⟩

theorem InstrOrEnd.nodeOrEnd {il : List ILInstr} {p : ℕ} (h : InstrOrEnd il p) :
    NodeOrEnd il p := by
  rcases h with rfl | ⟨i, hi, rfl, -⟩
  · exact Or.inl rfl
  · exact Or.inr (List.mem_map_of_mem hi)

theorem encodeFrom_length (t : ℕ → ℕ) (il : List ILInstr) (o switchBase : ℕ) :
    (encodeFrom t o switchBase il).length = totalSize il := by
  induction il generalizing o switchBase with
  | nil => rfl
  | cons i is ih =>
      have hoperand : (finalOperand t o switchBase i).length = operandSize i.m_opcode := by
        by_cases harg : i.m_opcode = ceeSwitchArg
        · rw [finalOperand, if_pos harg, leBytes_length, harg]
          decide
        · rw [finalOperand_eq harg, leBytes_length]
      rw [encodeFrom, List.length_append, List.length_append, ih, hoperand, opcodeBytes_length,
        totalSize_cons]
      rfl

/-! ### The list that is imported again -/

theorem rebuilt_map_addr (t : ℕ → ℕ) (il : List ILInstr) (a : ℕ) :
    (rebuilt t a il).map ILInstr.addr = List.range' a il.length := by
  induction il generalizing a with
  | nil => rfl
  | cons i is ih => rw [rebuilt, List.map_cons, ih, List.length_cons, List.range'_succ]

/-- The state after importing the bytes of a list. -/
structure Reimported (il : List ILInstr) (s : ILRewriter) : Prop where
  nodes : s.m_IL
    = (rebuilt (layoutOffset il) (pIL + 1) il).map (resolveNode s.getInstrFromOffset)
  start : ∀ pre i post, il = pre ++ i :: post → i.m_opcode ≠ ceeSwitchArg →
    s.getInstrFromOffset (layoutOffset il i.addr) = pIL + 1 + pre.length
  finish : s.getInstrFromOffset (layoutOffset il pIL) = pIL

theorem importIL_reimported {s₀ : ILRewriter} {code : IlCode} {il : List ILInstr}
    (hfresh : s₀.fresh = pIL + 1) (hIL : s₀.m_IL = []) (htables : SwitchTables il)
    (htargets : TargetsInList il) (hnodup : (il.map ILInstr.addr).Nodup)
    (hsentinel : pIL ∉ il.map ILInstr.addr) (hfar : farFrom (layoutOffset il) 0 il = false)
    (hbytes : code.bytes = encodeFrom (layoutOffset il) 0 0 il) :
    ∃ s, s₀.importIL code = .ok s ∧ Reimported il s := by
  have hsize : code.size = totalSize il := by rw [IlCode.size, hbytes, encodeFrom_length]
  have hlt := code.length_lt
  change code.size < 2 ^ 31 at hlt
  obtain ⟨is, hdecode, hback⟩ := decodeAll_encodeFrom htables (pIL + 1) 0 0 code.size [] hbytes
    rfl (by rw [hsize, Nat.zero_add]) (le_of_eq hsize.symm)
    (fun i hi hbranch => by
      have := layoutOffset_le (htargets i hi hbranch)
      omega) hfar
  obtain ⟨s, hs⟩ : ∃ s, s₀.importIL code = .ok s := by
    rw [importIL_eq, hdecode]
    exact ⟨_, rfl⟩
  obtain ⟨is', hdecode', -, -, -, -, hlookup, hnodes⟩ := importIL_spec hfresh hIL hs
  obtain rfl : is = is' := Except.ok.inj (hdecode.symm.trans hdecode')
  refine ⟨s, hs, ?_, ?_, ?_⟩
  · rw [hnodes, hback.nodes, funext hlookup]
  · intro pre i post hsplit hne
    have hi : i ∈ il := by rw [hsplit]; simp
    have hpos := byteSize_pos (htables.importable hi hne)
    have haddr : i.addr ≠ pIL := fun h => hsentinel (h ▸ List.mem_map_of_mem hi)
    have hpre : i.addr ∉ pre.map ILInstr.addr := by
      rw [hsplit, List.map_append, List.nodup_append] at hnodup
      exact fun hmem => hnodup.2.2 _ hmem _ (List.mem_map_of_mem List.mem_cons_self) rfl
    have hstart := hback.starts pre i post hsplit hne
    rw [Nat.zero_add] at hstart
    have hoffset : layoutOffset il i.addr = totalSize pre := by
      rw [hsplit, layoutOffset_split haddr hpre]
    rw [hlookup, hoffset, targetOf, hstart, if_neg]
    · rfl
    · rw [hsize, hsplit, totalSize_append, totalSize_cons]
      omega
  · rw [hlookup, layoutOffset, if_pos rfl, targetOf, if_pos hsize.symm]

section Reimport

variable {il : List ILInstr} {s : ILRewriter}

theorem Reimported.map_addr (h : Reimported il s) :
    s.m_IL.map ILInstr.addr = List.range' (pIL + 1) il.length := by
  have haddr : ILInstr.addr ∘ resolveNode s.getInstrFromOffset = ILInstr.addr :=
    funext fun i => resolveNode_addr _ i
  rw [h.nodes, List.map_map, haddr, rebuilt_map_addr]

theorem Reimported.length_eq (h : Reimported il s) : s.m_IL.length = il.length := by
  simpa using congrArg List.length h.map_addr

/-- What stands at a position. -/
theorem sameNode_split {il' pre post : List ILInstr} {i : ILInstr} (hil : il = pre ++ i :: post)
    (haddr : il'.map ILInstr.addr = List.range' (pIL + 1) il.length) :
    SameNode il il' i.addr (pIL + 1 + pre.length) := by
  refine Or.inr ⟨pre.length, ?_, ?_⟩
  · rw [hil, List.map_append, List.map_cons]
    simp
  · rw [haddr, List.getElem?_range' (by rw [hil]; simp)]
    simp

/-- Instructions are found again by their offsets. -/
theorem Reimported.sameNode (h : Reimported il s) {p : ℕ} (hp : InstrOrEnd il p) :
    SameNode il s.m_IL p (s.getInstrFromOffset (layoutOffset il p)) := by
  rcases hp with rfl | ⟨i, hi, rfl, hne⟩
  · exact Or.inl ⟨rfl, h.finish⟩
  · obtain ⟨pre, post, hsplit⟩ := List.append_of_mem hi
    rw [h.start pre i post hsplit hne]
    exact sameNode_split hsplit h.map_addr

/-- The node in front of one that was found again. -/
theorem Reimported.prev (h : Reimported il s) (hnodup : (il.map ILInstr.addr).Nodup)
    (hsentinel : pIL ∉ il.map ILInstr.addr) {front back : List ILInstr} (hil : il = front ++ back)
    (hback : InstrOrEnd il (headAddr ILInstr.addr pIL back)) :
    s.m_pPrev (s.getInstrFromOffset (layoutOffset il (headAddr ILInstr.addr pIL back)))
      = pIL + front.length := by
  have hrange := h.map_addr
  rw [← h.length_eq] at hrange
  cases back with
  | nil =>
      have hnot : pIL ∉ s.m_IL.map ILInstr.addr := by
        rw [hrange, List.mem_range'_1]
        omega
      show s.m_pPrev (s.getInstrFromOffset (layoutOffset il pIL)) = _
      rw [h.finish, m_pPrev, prevAddr_of_notMem hnot, lastAddr_consecutive hrange, h.length_eq, hil,
        List.append_nil]
  | cons v back =>
      have hv : v ∈ il := by rw [hil]; simp
      have hne : v.m_opcode ≠ ceeSwitchArg := by
        rcases hback with hend | ⟨i, hi, haddr, hne⟩
        · exact absurd (hend ▸ List.mem_map_of_mem hv) hsentinel
        · rwa [← List.inj_on_of_nodup_map hnodup hi hv haddr]
      show s.m_pPrev (s.getInstrFromOffset (layoutOffset il v.addr)) = _
      rw [h.start front v back hil hne, m_pPrev]
      refine prevAddr_consecutive hrange ?_
      rw [h.length_eq, hil, List.length_append, List.length_cons]
      omega

theorem Reimported.prev_of_next (h : Reimported il s) (hnodup : (il.map ILInstr.addr).Nodup)
    (hsentinel : pIL ∉ il.map ILInstr.addr) {p next : ℕ} (hp : NodeOrEnd il p)
    (hnext : next = if p = pIL then headAddr ILInstr.addr pIL il
      else nextAddr ILInstr.addr pIL p il) (hinstr : InstrOrEnd il next) :
    SameNode il s.m_IL p (s.m_pPrev (s.getInstrFromOffset (layoutOffset il next))) := by
  by_cases hend : p = pIL
  · rw [if_pos hend] at hnext
    rw [hnext] at hinstr ⊢
    have hil : il = [] ++ il := rfl
    exact Or.inl ⟨hend, h.prev hnodup hsentinel hil hinstr⟩
  · obtain ⟨pre, w, post, hsplit, hw, hpre⟩ := exists_split (hp.resolve_left hend)
    rw [if_neg hend, hsplit, nextAddr_split hw hpre] at hnext
    have hsplit' : il = (pre ++ [w]) ++ post := by rw [hsplit]; simp
    rw [hnext] at hinstr ⊢
    rw [h.prev hnodup hsentinel hsplit' hinstr, List.length_append, List.length_singleton,
      Nat.add_comm pre.length 1, ← Nat.add_assoc, ← hw]
    exact sameNode_split hsplit h.map_addr

end Reimport

/-! ### Instructions -/

theorem forall₂_rebuilt {il il' : List ILInstr} {R : ILInstr → ILInstr → Prop} {t g : ℕ → ℕ}
    (hwidened : Widened il il')
    (h : ∀ i ∈ il, ∀ j, WidenedNode i j → ∀ a,
      R i (resolveNode g ⟨a, j.m_opcode, 0, rebuiltArg t j⟩)) (a : ℕ) :
    List.Forall₂ R il ((rebuilt t a il').map (resolveNode g)) := by
  induction hwidened generalizing a with
  | nil => exact List.Forall₂.nil
  | @cons i j is js hij _ ih =>
      rw [rebuilt, List.map_cons]
      exact List.Forall₂.cons (h i List.mem_cons_self j hij a)
        (ih (fun k hk => h k (List.mem_cons_of_mem i hk)) (a + 1))

theorem SameNode.of_addr {il il' l : List ILInstr} {p p' : ℕ} (h : SameNode il' l p p')
    (haddr : il'.map ILInstr.addr = il.map ILInstr.addr) : SameNode il l p p' := by
  unfold SameNode at h ⊢
  rwa [haddr] at h

/-- The instructions of the edited list `il` and those read back from its widened form `il'`. -/
theorem Reimported.instrs {il il' : List ILInstr} {s : ILRewriter} (h : Reimported il' s)
    (hwidened : Widened il il') (hsize : totalSize il' < 2 ^ 31)
    (htargets : ∀ i ∈ il, (opCodeFlags i.m_opcode).branchTarget = true →
      InstrOrEnd il i.m_pTarget) : List.Forall₂ (SameInstr il s.m_IL) il s.m_IL := by
  have hall : List.Forall₂ (SameInstr il s.m_IL) il
      ((rebuilt (layoutOffset il') (pIL + 1) il').map (resolveNode s.getInstrFromOffset)) := by
    refine forall₂_rebuilt hwidened (fun i hi j hij a => ⟨?_, fun hbranch => ?_, fun hnot => ?_⟩) _
    · rw [resolveNode_m_opcode]
      exact hij.m_opcode
    · have hj : (opCodeFlags j.m_opcode).branchTarget = true := hij.branchTarget.trans hbranch
      have htarget := (htargets i hi hbranch).widened hwidened
      have hle := layoutOffset_le htarget.nodeOrEnd
      have harg : j.m_pTarget = i.m_pTarget := hij.m_Arg64
      have hword : layoutOffset il' i.m_pTarget % 2 ^ 32 = layoutOffset il' i.m_pTarget :=
        Nat.mod_eq_of_lt (by omega)
      have hnode := (h.sameNode htarget).of_addr hwidened.map_addr
      rw [← hword] at hnode
      rw [resolveNode, if_pos hj, rebuiltArg, if_pos hj, harg]
      exact hnode
    · have hop : j.m_opcode = i.m_opcode := by
        rcases hij.m_opcode with hop | ⟨hshort, -⟩
        · exact hop
        · rw [opCodeFlags_eq_branch8_iff.mpr hshort] at hnot
          cases hnot
      have hj : ¬(opCodeFlags j.m_opcode).branchTarget = true := by
        rw [hij.branchTarget, hnot]
        decide
      rw [resolveNode, if_neg hj, rebuiltArg, if_neg hj, hij.m_Arg64, hop]
      exact Nat.mod_mod _ _
  rwa [← h.nodes] at hall

/-! ### Exception clauses -/

/-- A clause over the byte offsets of its nodes. -/
def clauseInfo (t : ℕ → ℕ) (next : ℕ → ℕ) (c : EHClause) : EhInfo where
  flags := c.m_Flags
  tryOffset := t c.m_pTryBegin
  tryLength := offsetDelta (t c.m_pTryEnd) (t c.m_pTryBegin)
  handlerOffset := t c.m_pHandlerBegin
  handlerLength := offsetDelta (t (next c.m_pHandlerEnd)) (t c.m_pHandlerBegin)
  classTokenOrFilterOffset :=
    if isFilterFlags c.m_Flags then t c.m_ClassTokenOrFilter else c.m_ClassTokenOrFilter

theorem EHClause.mem_boundaries_filter {c : EHClause} (h : isFilterFlags c.m_Flags = true) :
    c.m_ClassTokenOrFilter ∈ c.boundaries := by
  rw [EHClause.boundaries, if_pos h]
  simp

theorem exportClause_eq {s : ILRewriter} {il : List ILInstr} {c : EHClause}
    (hIL : s.m_IL = countOffsetsFrom 0 il) (hboundaries : ∀ p ∈ c.boundaries, NodeOrEnd il p)
    (hnext : NodeOrEnd il (s.m_pNext c.m_pHandlerEnd)) :
    s.exportClause (totalSize il) c = .ok (clauseInfo (layoutOffset il) s.m_pNext c) := by
  have htryBegin := nodeOffset_layout (hboundaries c.m_pTryBegin (by simp [EHClause.boundaries]))
  have htryEnd := nodeOffset_layout (hboundaries c.m_pTryEnd (by simp [EHClause.boundaries]))
  have hhandler :=
    nodeOffset_layout (hboundaries c.m_pHandlerBegin (by simp [EHClause.boundaries]))
  rw [exportClause, hIL, htryBegin, htryEnd, hhandler, nodeOffset_layout hnext, clauseInfo]
  cases hfilter : isFilterFlags c.m_Flags with
  | false => rfl
  | true =>
      rw [if_pos rfl, nodeOffset_layout (hboundaries _ (EHClause.mem_boundaries_filter hfilter))]
      rfl

theorem getInstrFromOffset_next_ne_null {il : List ILInstr} {s : ILRewriter} (h : Reimported il s)
    {p : ℕ} (hp : InstrOrEnd il p) : s.getInstrFromOffset (layoutOffset il p) ≠ nullPtr := by
  rcases hp with rfl | ⟨i, hi, rfl, hne⟩
  · rw [h.finish]
    decide
  · obtain ⟨pre, post, hsplit⟩ := List.append_of_mem hi
    rw [h.start pre i post hsplit hne]
    unfold nullPtr pIL
    omega

/-- A clause that was exported is imported with the same nodes. -/
theorem Reimported.clause {il : List ILInstr} {s : ILRewriter} (h : Reimported il s)
    (hnodup : (il.map ILInstr.addr).Nodup) (hsentinel : pIL ∉ il.map ILInstr.addr)
    (hsize : totalSize il < 2 ^ 31) {next : ℕ → ℕ} {c : EHClause}
    (hboundaries : ∀ p ∈ c.boundaries, InstrOrEnd il p) (hend : NodeOrEnd il c.m_pHandlerEnd)
    (hnext : next c.m_pHandlerEnd = if c.m_pHandlerEnd = pIL then headAddr ILInstr.addr pIL il
      else nextAddr ILInstr.addr pIL c.m_pHandlerEnd il)
    (hinstr : InstrOrEnd il (next c.m_pHandlerEnd)) :
    ∃ c', s.importClause (clauseInfo (layoutOffset il) next c) = .ok c'
      ∧ SameClause il s.m_IL c c' := by
  have htryBegin := hboundaries c.m_pTryBegin (by simp [EHClause.boundaries])
  have htryEnd := hboundaries c.m_pTryEnd (by simp [EHClause.boundaries])
  have hhandler := hboundaries c.m_pHandlerBegin (by simp [EHClause.boundaries])
  have htryEnd_le := layoutOffset_le htryEnd.nodeOrEnd
  have hnext_le := layoutOffset_le hinstr.nodeOrEnd
  have htry : (layoutOffset il c.m_pTryBegin + offsetDelta (layoutOffset il c.m_pTryEnd)
      (layoutOffset il c.m_pTryBegin)) % 2 ^ 32 = layoutOffset il c.m_pTryEnd :=
    add_offsetDelta _ (by omega)
  have hhandlerEnd : (layoutOffset il c.m_pHandlerBegin
      + offsetDelta (layoutOffset il (next c.m_pHandlerEnd)) (layoutOffset il c.m_pHandlerBegin))
        % 2 ^ 32 = layoutOffset il (next c.m_pHandlerEnd) := add_offsetDelta _ (by omega)
  have hprev := h.prev_of_next hnodup hsentinel hend hnext hinstr
  have hnotNull := getInstrFromOffset_next_ne_null h hinstr
  rw [importClause, clauseInfo]
  dsimp only
  rw [htry, hhandlerEnd, if_neg hnotNull]
  refine ⟨_, rfl, ?_⟩
  cases hfilter : isFilterFlags c.m_Flags with
  | false =>
      exact ⟨rfl, h.sameNode htryBegin, h.sameNode htryEnd, h.sameNode hhandler, hprev,
        fun hf => by simp [hfilter] at hf, fun _ => by simp⟩
  | true =>
      refine ⟨rfl, h.sameNode htryBegin, h.sameNode htryEnd, h.sameNode hhandler, hprev,
        fun _ => ?_, fun hf => by simp [hfilter] at hf⟩
      simpa using h.sameNode (hboundaries _ (EHClause.mem_boundaries_filter hfilter))

/-! ### The round trip -/

theorem SameClause.of_addr {il il' l : List ILInstr} {c c' : EHClause} (h : SameClause il' l c c')
    (haddr : il'.map ILInstr.addr = il.map ILInstr.addr) : SameClause il l c c' where
  flags := h.flags
  tryBegin := h.tryBegin.of_addr haddr
  tryEnd := h.tryEnd.of_addr haddr
  handlerBegin := h.handlerBegin.of_addr haddr
  handlerEnd := h.handlerEnd.of_addr haddr
  filter := fun hf => (h.filter hf).of_addr haddr
  classToken := h.classToken

theorem m_pNext_congr {s s' : ILRewriter}
    (h : s'.m_IL.map ILInstr.addr = s.m_IL.map ILInstr.addr) : s'.m_pNext = s.m_pNext := by
  funext p
  rw [m_pNext, m_pNext, first, first, headAddr_congr h, nextAddr_congr h]

theorem exportHeader_fat {s : ILRewriter} {code : List UInt8} {eh : List EhInfo}
    (hfat : s.m_fGenerateTinyHeader = false)
    (heh : s.m_pEH.mapM (s.exportClause code.length) = .ok eh) :
    s.exportHeader code = .ok ⟨s.m_flags + (if s.m_pEH.length ≠ 0 then 8 else 0) + 3,
      s.m_maxStack % 2 ^ 16, s.m_tkLocalVarSig, code, eh⟩ := by
  rw [exportHeader, hfat, heh]
  rfl

/-- What `Export` makes of a list that is ready: the bytes and clauses of a widened list. -/
theorem exportBody_eq {s : ILRewriter} (hs : s.Editable) (hready : s.ExportReady) :
    ∃ il, Widened s.m_IL il ∧ farFrom (layoutOffset il) 0 il = false
      ∧ s.exportBody (shortBranches s.m_IL + 1)
        = some (.ok ⟨s.m_flags + (if s.m_pEH.length ≠ 0 then 8 else 0) + 3, s.m_maxStack % 2 ^ 16,
          s.m_tkLocalVarSig, encodeFrom (layoutOffset il) 0 0 il,
          s.m_pEH.map (clauseInfo (layoutOffset il) s.m_pNext)⟩) := by
  have htargets : TargetsInList s.m_IL := fun i hi hbranch =>
    (hready.targets i hi hbranch).nodeOrEnd
  have hbuffer : 10 * s.m_IL.length ≤ s.maxSize := by
    rw [maxSize, Nat.mod_eq_of_lt hready.buffer, Nat.mul_comm]
    exact Nat.mul_le_mul_right 10 hs.counted
  obtain ⟨il, hwidened, hfar, hrounds⟩ :=
    exportRounds_eq (shortBranches s.m_IL + 1) s.m_IL hbuffer htargets (Nat.lt_succ_self _)
  have hlaid : { s with m_IL := countOffsetsFrom 0 il }.m_pNext = s.m_pNext := by
    refine m_pNext_congr ?_
    show (countOffsetsFrom 0 il).map ILInstr.addr = _
    rw [countOffsetsFrom_map_addr, hwidened.map_addr]
  have heh : s.m_pEH.mapM ({ s with m_IL := countOffsetsFrom 0 il }.exportClause
      (encodeFrom (layoutOffset il) 0 0 il).length)
        = .ok (s.m_pEH.map (clauseInfo (layoutOffset il) s.m_pNext)) := by
    refine mapM_eq_ok fun c hc => ?_
    obtain ⟨hboundaries, -, hnext⟩ := hready.boundaries c hc
    rw [encodeFrom_length, ← hlaid]
    exact exportClause_eq rfl (fun p hp => ((hboundaries p hp).widened hwidened).nodeOrEnd)
      (hlaid ▸ (hnext.widened hwidened).nodeOrEnd)
  refine ⟨il, hwidened, hfar, ?_⟩
  rw [exportBody, hrounds]
  exact congrArg some (exportHeader_fat hs.fat heh)

theorem importBody_eq {body : MethodBody} {s : ILRewriter} {clauses : List EHClause}
    (hcode : { ILRewriter.new with
      m_tkLocalVarSig := body.localVarSigTok
      m_maxStack := body.maxStack
      m_flags := initLocalsFlag body.flags }.importIL body.code = .ok s)
    (hclauses : body.eh.mapM s.importClause = .ok clauses) :
    importBody body = .ok { s with m_pEH := clauses } := by
  rw [importBody, hcode]
  show s.importEH body.eh = _
  rw [importEH, hclauses]
  rfl

/-- **The round trip** of an editable list that is ready for export. -/
theorem exportsBack_of_exportReady {s : ILRewriter} (hs : s.Editable) (hready : s.ExportReady) :
    s.ExportsBack := by
  obtain ⟨il, hwidened, hfar, hexport⟩ := exportBody_eq hs hready
  refine ⟨_, _, hexport, fun hlen => ?_⟩
  have haddr := hwidened.map_addr
  have hnodup : (il.map ILInstr.addr).Nodup := haddr ▸ hs.linked.nodup
  have hsentinel : pIL ∉ il.map ILInstr.addr := haddr ▸ hs.linked.pIL_notMem
  have hsize : totalSize il < 2 ^ 31 := by
    rw [← encodeFrom_length (layoutOffset il) il 0 0]
    exact hlen
  have htargets : TargetsInList il := TargetsInList.widened
    (fun i hi hbranch => (hready.targets i hi hbranch).nodeOrEnd) hwidened
  obtain ⟨s', hcode, hre⟩ : ∃ s', { ILRewriter.new with
      m_tkLocalVarSig := s.m_tkLocalVarSig
      m_maxStack := s.m_maxStack % 2 ^ 16
      m_flags := initLocalsFlag (s.m_flags + (if s.m_pEH.length ≠ 0 then 8 else 0) + 3)
      }.importIL ⟨encodeFrom (layoutOffset il) 0 0 il, hlen⟩ = .ok s' ∧ Reimported il s' :=
    importIL_reimported rfl rfl (hready.tables.widened hwidened) htargets hnodup hsentinel hfar rfl
  obtain ⟨clauses, hclauses, hsame⟩ : ∃ clauses,
      (s.m_pEH.map (clauseInfo (layoutOffset il) s.m_pNext)).mapM s'.importClause = .ok clauses
        ∧ List.Forall₂ (SameClause s.m_IL s'.m_IL) s.m_pEH clauses := by
    refine exists_mapM_eq_ok fun c hc => ?_
    obtain ⟨hboundaries, hend, hnext⟩ := hready.boundaries c hc
    have hnextEq : s.m_pNext c.m_pHandlerEnd
        = if c.m_pHandlerEnd = pIL then headAddr ILInstr.addr pIL il
          else nextAddr ILInstr.addr pIL c.m_pHandlerEnd il := by
      rw [m_pNext, first, headAddr_congr haddr, nextAddr_congr haddr]
    have hend' : NodeOrEnd il c.m_pHandlerEnd := by
      unfold NodeOrEnd at hend ⊢
      rwa [haddr]
    obtain ⟨c', hc', hcc'⟩ := hre.clause hnodup hsentinel hsize
      (fun p hp => (hboundaries p hp).widened hwidened) hend' hnextEq (hnext.widened hwidened)
    exact ⟨c', hc', hcc'.of_addr haddr⟩
  exact ⟨{ s' with m_pEH := clauses }, importBody_eq hcode hclauses,
    ⟨hre.instrs hwidened hsize hready.targets, hsame⟩⟩

/-- **The exported body means the edited list**, for every edit of an imported body that keeps the
switch tables, the targets and the clause boundaries. -/
theorem edited_exportsBack {body : MethodBody} {s : ILRewriter} (hbody : importBody body = .ok s)
    (es : List Edit) (hready : (s.edits es).ExportReady) : (s.edits es).ExportsBack :=
  exportsBack_of_exportReady ((importBody_editable hbody).edits es) hready

/-- `br.s` to the `ret` behind it. -/
def shortBranchBody : MethodBody := ⟨2, 8, 0, ⟨[0x2B, 0x00, 0x2A], by decide⟩, []⟩

/-- What a concrete body is imported as. -/
theorem exists_imported {body : MethodBody} {il : List ILInstr} {fresh n : ℕ} {eh : List EHClause}
    (h : (importBody body).map (fun s => (s.m_IL, s.fresh, s.m_nInstrs, s.m_pEH))
      = .ok (il, fresh, n, eh)) :
    ∃ s, importBody body = .ok s ∧ s.m_IL = il ∧ s.fresh = fresh ∧ s.m_nInstrs = n
      ∧ s.m_pEH = eh := by
  cases hbody : importBody body with
  | error e => rw [hbody] at h; cases h
  | ok s =>
      rw [hbody] at h
      have hfacts := Except.ok.inj h
      simp only [Prod.mk.injEq] at hfacts
      exact ⟨s, rfl, hfacts⟩

/-- A nop between a short branch and its target. -/
theorem edited_exportsBack_short_branch :
    ∃ s, importBody shortBranchBody = .ok s
      ∧ (s.edits [.insertBefore 3 ceeNop 0]).ExportReady
      ∧ (s.edits [.insertBefore 3 ceeNop 0]).ExportsBack := by
  have himport : (importBody shortBranchBody).map (fun s =>
      (s.m_IL, s.fresh, s.m_nInstrs, s.m_pEH))
        = .ok ([⟨2, ceeBrS, 0, 3⟩, ⟨3, ceeRet, 0, 0⟩], 4, 2, []) := by decide +kernel
  obtain ⟨s, hbody, hIL, hfresh, hcount, hEH⟩ := exists_imported himport
  have hedited : (s.edits [.insertBefore 3 ceeNop 0]).m_IL
      = [⟨2, ceeBrS, 0, 3⟩, ⟨4, ceeNop, 0, 0⟩, ⟨3, ceeRet, 0, 0⟩] := by
    show spliceBefore ILInstr.addr 3 ⟨s.fresh, ceeNop, 0, 0⟩ s.m_IL = _
    rw [hIL, hfresh]
    rfl
  have hready : (s.edits [.insertBefore 3 ceeNop 0]).ExportReady := by
    refine ⟨?_, ?_, ?_, ?_⟩
    · rw [hedited]
      exact SwitchTables.instr (by decide) (by decide) (SwitchTables.instr (by decide) (by decide)
        (SwitchTables.instr (by decide) (by decide) SwitchTables.nil))
    · rw [hedited]
      have hall : ∀ i ∈ [(⟨2, ceeBrS, 0, 3⟩ : ILInstr), ⟨4, ceeNop, 0, 0⟩, ⟨3, ceeRet, 0, 0⟩],
          (opCodeFlags i.m_opcode).branchTarget = true → i.m_pTarget = 3 := by decide
      intro i hi hbranch
      exact Or.inr ⟨⟨3, ceeRet, 0, 0⟩, by simp, (hall i hi hbranch).symm, by decide⟩
    · intro c hc
      change c ∈ s.m_pEH at hc
      rw [hEH] at hc
      cases hc
    · show (s.m_nInstrs + 1) * 10 < 2 ^ 32
      rw [hcount]
      decide
  exact ⟨s, hbody, hready, edited_exportsBack hbody _ hready⟩

/-! ### Edits that break the round trip -/

theorem exportRounds_unique {maxSize : ℕ} (rounds : ℕ) : ∀ (rounds' : ℕ) (il : List ILInstr)
    {x y : Except RewriteError (List ILInstr × List UInt8)},
    exportRounds maxSize rounds il = some x → exportRounds maxSize rounds' il = some y → x = y := by
  induction rounds with
  | zero => intro rounds' il x y hx _; cases hx
  | succ rounds ih =>
      intro rounds' il x y hx hy
      cases rounds' with
      | zero => cases hy
      | succ rounds' =>
          rw [exportRounds] at hx hy
          cases hround : exportRound maxSize il with
          | error e =>
              rw [hround] at hx hy
              exact Option.some.inj (hx.symm.trans hy)
          | ok result =>
              obtain ⟨nodes, bytes, again⟩ := result
              rw [hround] at hx hy
              cases again with
              | false => exact Option.some.inj (hx.symm.trans hy)
              | true => exact ih rounds' nodes hx hy

/-- However many rounds are given, `Export` has one result. -/
theorem exportBody_unique {s : ILRewriter} {rounds rounds' : ℕ}
    {x y : Except RewriteError ExportedBody} (hx : s.exportBody rounds = some x)
    (hy : s.exportBody rounds' = some y) : x = y := by
  rw [exportBody] at hx hy
  cases hr : exportRounds s.maxSize rounds s.m_IL with
  | none => rw [hr] at hx; cases hx
  | some result =>
      cases hr' : exportRounds s.maxSize rounds' s.m_IL with
      | none => rw [hr'] at hy; cases hy
      | some result' =>
          obtain rfl := exportRounds_unique rounds rounds' s.m_IL hr hr'
          rw [hr] at hx
          rw [hr'] at hy
          exact Option.some.inj (hx.symm.trans hy)

/-- What the output buffer cannot hold is not exported. -/
theorem exportBody_overrun {s : ILRewriter} (h : s.maxSize < totalSize s.m_IL) (rounds : ℕ)
    (body : ExportedBody) : s.exportBody rounds ≠ some (.ok body) := by
  intro hbody
  rw [exportBody] at hbody
  cases rounds with
  | zero => cases hbody
  | succ rounds =>
      have hemit := emit_overrun s.m_IL 0 (Nat.zero_le _) (by omega : s.maxSize < 0 + _)
      rw [exportRounds, exportRound, hemit] at hbody
      cases hbody

/-- The list that is read back after some rounds, when they were enough. -/
def readBack (s : ILRewriter) (rounds : ℕ) : Option (Except RewriteError (List ILInstr)) :=
  match s.exportBody rounds with
  | some (.ok body) =>
      if hlen : body.code.length < 2 ^ 31 then
        some ((importBody (body.toMethodBody hlen)).map ILRewriter.m_IL)
      else none
  | _ => none

theorem isomorphic_of_readBack {s : ILRewriter} {rounds : ℕ}
    {result : Except RewriteError (List ILInstr)} (h : s.ExportsBack)
    (hread : readBack s rounds = some result) : ∃ s', result = .ok s'.m_IL ∧ Isomorphic s s' := by
  obtain ⟨rounds', body, hexport, hback⟩ := h
  rw [readBack] at hread
  cases hbody : s.exportBody rounds with
  | none => rw [hbody] at hread; cases hread
  | some exported =>
      obtain rfl := exportBody_unique hexport hbody
      rw [hbody] at hread
      dsimp only at hread
      split at hread
      · rename_i hlen
        obtain ⟨s', himport, hiso⟩ := hback hlen
        rw [himport] at hread
        exact ⟨s', (Option.some.inj hread).symm, hiso⟩
      · cases hread

/-- Edits that keep the tables, the targets and the boundaries, and still are not exported
back. -/
def BreaksRoundTrip (body : MethodBody) (es : List Edit) : Prop :=
  ∃ s, importBody body = .ok s ∧ (s.edits es).TablesAndTargetsKept ∧ ¬(s.edits es).ExportsBack

theorem slotTarget_length_lt :
    ([0x16, 0x45, 1, 0, 0, 0, 0, 0, 0, 0, 0x2A] : List UInt8).length < 2 ^ 31 := by decide

/-- `ldc.i4.0; switch` with one slot; `ret`. -/
def slotTargetBody : MethodBody :=
  ⟨2, 8, 0, ⟨[0x16, 0x45, 1, 0, 0, 0, 0, 0, 0, 0, 0x2A], slotTarget_length_lt⟩, []⟩

/-- A `br` to the node of the slot. -/
def slotTargetEdits : List Edit := [.insertBefore 5 ceeBr 4]

theorem slotTarget_breaks : BreaksRoundTrip slotTargetBody slotTargetEdits := by
  have himport : (importBody slotTargetBody).map (fun s =>
      (s.m_IL, s.fresh, s.m_nInstrs, s.m_pEH))
        = .ok ([⟨2, ceeLdcI40, 0, 0⟩, ⟨3, ceeSwitch, 0, 1⟩, ⟨4, ceeSwitchArg, 0, 5⟩,
          ⟨5, ceeRet, 0, 0⟩], 6, 4, []) := by decide +kernel
  have hread : (importBody slotTargetBody).map (fun s => readBack (s.edits slotTargetEdits) 1)
      = .ok (some (.ok [⟨2, ceeLdcI40, 0, 0⟩, ⟨3, ceeSwitch, 0, 1⟩, ⟨4, ceeSwitchArg, 0, 6⟩,
        ⟨5, ceeBr, 0, nullPtr⟩, ⟨6, ceeRet, 0, 0⟩])) := by decide +kernel
  obtain ⟨s, hbody, hIL, hfresh, -, hEH⟩ := exists_imported himport
  have hedited : (s.edits slotTargetEdits).m_IL = [⟨2, ceeLdcI40, 0, 0⟩, ⟨3, ceeSwitch, 0, 1⟩,
      ⟨4, ceeSwitchArg, 0, 5⟩, ⟨6, ceeBr, 0, 4⟩, ⟨5, ceeRet, 0, 0⟩] := by
    show spliceBefore ILInstr.addr 5 ⟨s.fresh, ceeBr, 0, 4⟩ s.m_IL = _
    rw [hIL, hfresh]
    rfl
  refine ⟨s, hbody, ⟨?_, ?_, ?_⟩, ?_⟩
  · rw [hedited]
    have htail : SwitchTables [⟨6, ceeBr, 0, 4⟩, ⟨5, ceeRet, 0, 0⟩] := SwitchTables.instr (by decide)
      (by decide) (SwitchTables.instr (by decide) (by decide) SwitchTables.nil)
    have hslots : ∀ j ∈ [(⟨4, ceeSwitchArg, 0, 5⟩ : ILInstr)], j.m_opcode = ceeSwitchArg := by decide
    exact SwitchTables.instr (by decide) (by decide) (SwitchTables.switch rfl rfl hslots htail)
  · rw [hedited]
    unfold TargetsInList NodeOrEnd
    decide
  · intro c hc
    change c ∈ s.m_pEH at hc
    rw [hEH] at hc
    cases hc
  · intro hback
    rw [hbody] at hread
    obtain ⟨s', hs', hiso⟩ := isomorphic_of_readBack hback (Except.ok.inj hread)
    have hIL' := Except.ok.inj hs'
    have hinstrs := hiso.instrs
    rw [hedited, ← hIL'] at hinstrs
    simp only [List.forall₂_cons] at hinstrs
    -- the branch would have to refer to the node of the slot again
    rcases hinstrs.2.2.2.1.target rfl with ⟨hend, -⟩ | ⟨k, -, hk⟩
    · cases hend
    · exact absurd (List.mem_of_getElem? hk) (by decide)

/-- A handler over `ldc.i4 1`, behind `leave.s` and in front of `ret`. -/
def slotBehindHandlerBody : MethodBody :=
  ⟨2, 8, 0, ⟨[0xDE, 5, 0x20, 1, 0, 0, 0, 0x2A], by decide⟩, [⟨0, 0, 2, 2, 5, 0⟩]⟩

/-- The last instruction of the handler becomes a switch with one slot. -/
def slotBehindHandlerEdits : List Edit := [.setOpcode 3 ceeSwitch, .insertAfter 3 ceeSwitchArg 4]

theorem slotBehindHandler_breaks : BreaksRoundTrip slotBehindHandlerBody slotBehindHandlerEdits := by
  have himport : (importBody slotBehindHandlerBody).map (fun s =>
      (s.m_IL, s.fresh, s.m_nInstrs, s.m_pEH))
        = .ok ([⟨2, ceeLeaveS, 0, 4⟩, ⟨3, ceeLdcI4, 0, 1⟩, ⟨4, ceeRet, 0, 0⟩], 5, 3,
          [⟨0, 2, 3, 3, 3, 0⟩]) := by decide +kernel
  have hread : (importBody slotBehindHandlerBody).map (fun s =>
      readBack (s.edits slotBehindHandlerEdits) 1)
        = .ok (some (.error .nullDereference)) := by decide +kernel
  obtain ⟨s, hbody, hIL, hfresh, -, hEH⟩ := exists_imported himport
  have hedited : (s.edits slotBehindHandlerEdits).m_IL = [⟨2, ceeLeaveS, 0, 4⟩,
      ⟨3, ceeSwitch, 0, 1⟩, ⟨5, ceeSwitchArg, 0, 4⟩, ⟨4, ceeRet, 0, 0⟩] := by
    show spliceAfter ILInstr.addr 3 ⟨s.fresh, ceeSwitchArg, 0, 4⟩ (modifyNode ILInstr.addr 3 _ s.m_IL)
      = _
    rw [hIL, hfresh]
    rfl
  refine ⟨s, hbody, ⟨?_, ?_, ?_⟩, ?_⟩
  · rw [hedited]
    have htail : SwitchTables [⟨4, ceeRet, 0, 0⟩] :=
      SwitchTables.instr (by decide) (by decide) SwitchTables.nil
    have hslots : ∀ j ∈ [(⟨5, ceeSwitchArg, 0, 4⟩ : ILInstr)], j.m_opcode = ceeSwitchArg := by decide
    exact SwitchTables.instr (by decide) (by decide) (SwitchTables.switch rfl rfl hslots htail)
  · rw [hedited]
    unfold TargetsInList NodeOrEnd
    decide
  · intro c hc
    change c ∈ s.m_pEH at hc
    rw [hEH, List.mem_singleton] at hc
    rw [hedited, hc]
    unfold NodeOrEnd
    decide
  · intro hback
    rw [hbody] at hread
    obtain ⟨s', hs', -⟩ := isomorphic_of_readBack hback (Except.ok.inj hread)
    cases hs'

/-- A list without switches. -/
theorem switchTables_of_forall {il : List ILInstr}
    (h : ∀ i ∈ il, Importable i.m_opcode ∧ i.m_opcode ≠ ceeSwitch) : SwitchTables il := by
  induction il with
  | nil => exact SwitchTables.nil
  | cons i is ih =>
      obtain ⟨himportable, hne⟩ := h i List.mem_cons_self
      exact SwitchTables.instr himportable hne (ih fun j hj => h j (List.mem_cons_of_mem i hj))

/-- Nops at the end of the list. -/
def nopEdits (n : ℕ) : List Edit := List.replicate n (.insertBefore pIL ceeNop 0)

theorem totalSize_perm {il il' : List ILInstr} (h : il.Perm il') : totalSize il = totalSize il' :=
  (h.map ILInstr.byteSize).sum_nat

theorem edits_nopEdits (n : ℕ) : ∀ s : ILRewriter,
    (s.edits (nopEdits n)).m_nInstrs = s.m_nInstrs + n
      ∧ totalSize (s.edits (nopEdits n)).m_IL = totalSize s.m_IL + n
      ∧ (s.edits (nopEdits n)).m_pEH = s.m_pEH
      ∧ ∀ i ∈ (s.edits (nopEdits n)).m_IL, i ∈ s.m_IL ∨ i.m_opcode = ceeNop := by
  induction n with
  | zero => intro s; exact ⟨rfl, rfl, rfl, fun i hi => Or.inl hi⟩
  | succ n ih =>
      intro s
      have hperm : (s.edit (.insertBefore pIL ceeNop 0)).m_IL.Perm
          (⟨s.fresh, ceeNop, 0, 0⟩ :: s.m_IL) := spliceBefore_perm _ _ _
      obtain ⟨h₁, h₂, h₃, h₄⟩ := ih (s.edit (.insertBefore pIL ceeNop 0))
      refine ⟨?_, ?_, h₃, fun i hi => ?_⟩
      · refine h₁.trans ?_
        show s.m_nInstrs + 1 + n = s.m_nInstrs + (n + 1)
        omega
      · refine h₂.trans ?_
        rw [totalSize_perm hperm, totalSize_cons]
        show 1 + totalSize s.m_IL + n = totalSize s.m_IL + (n + 1)
        omega
      · rcases h₄ i hi with hi | hop
        · rcases List.mem_cons.mp (hperm.mem_iff.mp hi) with rfl | hi
          · exact Or.inr rfl
          · exact Or.inl hi
        · exact Or.inr hop

def retBody : MethodBody := ⟨2, 8, 0, ⟨[0x2A], by decide⟩, []⟩

/-- `m_nInstrs * 10` wraps around to 14. -/
theorem nops_break : BreaksRoundTrip retBody (nopEdits 429496730) := by
  have himport : (importBody retBody).map (fun s => (s.m_IL, s.fresh, s.m_nInstrs, s.m_pEH))
      = .ok ([⟨2, ceeRet, 0, 0⟩], 3, 1, []) := by decide +kernel
  obtain ⟨s, hbody, hIL, hfresh, hcount, hEH⟩ := exists_imported himport
  obtain ⟨h₁, h₂, h₃, h₄⟩ := edits_nopEdits 429496730 s
  have hops : ∀ i ∈ (s.edits (nopEdits 429496730)).m_IL,
      i.m_opcode = ceeRet ∨ i.m_opcode = ceeNop := by
    intro i hi
    refine (h₄ i hi).imp_left fun hi => ?_
    rw [hIL, List.mem_singleton] at hi
    rw [hi]
  refine ⟨s, hbody, ⟨?_, ?_, ?_⟩, ?_⟩
  · refine switchTables_of_forall fun i hi => ?_
    rcases hops i hi with hop | hop <;> rw [hop] <;> decide
  · intro i hi hbranch
    rcases hops i hi with hop | hop <;> rw [hop] at hbranch <;> cases hbranch
  · intro c hc
    rw [h₃, hEH] at hc
    cases hc
  · rintro ⟨rounds, body, hexport, -⟩
    refine exportBody_overrun ?_ rounds body hexport
    have hmax : (s.edits (nopEdits 429496730)).maxSize = 14 := by
      rw [maxSize, h₁, hcount]
      decide
    rw [hmax, h₂]
    omega

/-- **Why the round trip needs more** than every target and every boundary in the list. -/
theorem tablesAndTargetsKept_not_enough :
    BreaksRoundTrip slotTargetBody slotTargetEdits
      ∧ BreaksRoundTrip slotBehindHandlerBody slotBehindHandlerEdits
      ∧ BreaksRoundTrip retBody (nopEdits 429496730) :=
  ⟨slotTarget_breaks, slotBehindHandler_breaks, nops_break⟩

end TestExecutor
