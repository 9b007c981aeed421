import TestExecutor.Rewriter.RewriteIL

/-!
# What an insertion does to the list

The list as a sequence of segments, one for each node that the scan has left; an insertion changes
the segment of its node only.

* `Item`, `Item.insertBefore`, `Item.insertAfter` — a segment without the addresses of its nodes;
* `Realizes` — the nodes of a segment, the first of which is the old node;
* `addCoverageProbeBefore_eq`, `addCoverageProbeAfter_eq` — the list behind an insertion;
* `Grouped`, `Grouped.makeProbeInsertion` — the whole list, and one insertion.
-/

namespace TestExecutor

open TestExecutor.Library

/-! ### Items -/

/-- An instruction, or the call of a probe with an offset. -/
inductive Item where
  | instr (opcode arg : ℕ)
  | probe (probe : Probe) (offset : ℕ)
  deriving DecidableEq, Repr

def ILInstr.content (i : ILInstr) : ℕ × ℕ := (i.m_opcode, i.m_Arg64)

theorem countOffsetsFrom_map_content (il : List ILInstr) (o : ℕ) :
    (countOffsetsFrom o il).map ILInstr.content = il.map ILInstr.content := by
  induction il generalizing o with
  | nil => rfl
  | cons i il ih =>
      rw [countOffsetsFrom, List.map_cons, ih, List.map_cons]
      rfl

/-- The instructions that call a probe. -/
def probeContents (covProb : Probe → ProbeCall) (methodId : Int32) (probe : Probe) (offset : ℕ) :
    List (ℕ × ℕ) :=
  [(ceeLdcI4, offset % 2 ^ 32), (ceeLdcI4, methodId.toBitVec.toNat % 2 ^ 32),
    (ceeLdcI8, (covProb probe).addr), (ceeCalli, (covProb probe).sig)]

namespace Item

def contents (covProb : Probe → ProbeCall) (methodId : Int32) : Item → List (ℕ × ℕ)
  | instr opcode arg => [(opcode, arg)]
  | probe p offset => probeContents covProb methodId p offset

/-- `AddCoverageProbeBefore` at the first item. -/
def insertBefore (p : Probe) (offset : ℕ) : List Item → List Item
  | instr opcode arg :: rest => instr ceeNop arg :: probe p offset :: instr opcode arg :: rest
  | items => items

/-- `AddCoverageProbeAfter` at the first item. -/
def insertAfter (p : Probe) (offset : ℕ) : List Item → List Item
  | instr opcode arg :: rest => instr opcode arg :: probe p offset :: instr ceeNop 0 :: rest
  | items => items

/-- `MakeProbeInsertion` at the first item. -/
def insert (offset : ℕ) (items : List Item) (toInsert : ProbeInsertion) : List Item :=
  if toInsert.isBeforeInstr then insertBefore toInsert.probe offset items
  else insertAfter toInsert.probe offset items

end Item

/-! ### Single insertions -/

namespace ILRewriter

variable {s : ILRewriter} {pre rest : List ILInstr} {w : ILInstr}

theorem Linked.newBefore (h : s.Linked) (p opcode arg : ℕ) : (s.newBefore p opcode arg).Linked :=
  h.of_perm (x := ⟨s.fresh, opcode, 0, arg⟩) rfl rfl (spliceBefore_perm p _ s.m_IL)

theorem newBefore_split (hIL : s.m_IL = pre ++ w :: rest) (hw : w.addr ∉ pre.map ILInstr.addr)
    (opcode arg : ℕ) : (s.newBefore w.addr opcode arg).m_IL
      = pre ++ ⟨s.fresh, opcode, 0, arg⟩ :: w :: rest := by
  show spliceBefore ILInstr.addr w.addr _ s.m_IL = _
  rw [hIL, spliceBefore_split rfl hw]

theorem newAfter_split (hIL : s.m_IL = pre ++ w :: rest) (hw : w.addr ∉ pre.map ILInstr.addr)
    (hne : w.addr ≠ pIL) (opcode arg : ℕ) : (s.newAfter w.addr opcode arg).m_IL
      = pre ++ w :: ⟨s.fresh, opcode, 0, arg⟩ :: rest := by
  show (if w.addr = pIL then _ else spliceAfter ILInstr.addr w.addr _ s.m_IL) = _
  rw [if_neg hne, hIL, spliceAfter_split rfl hw]

theorem Linked.newAfter (h : s.Linked) (hIL : s.m_IL = pre ++ w :: rest)
    (hw : w.addr ∉ pre.map ILInstr.addr) (hne : w.addr ≠ pIL) (opcode arg : ℕ) :
    (s.newAfter w.addr opcode arg).Linked := by
  refine h.of_perm (x := ⟨s.fresh, opcode, 0, arg⟩) rfl rfl ?_
  rw [newAfter_split hIL hw hne, hIL]
  refine ((List.Perm.swap _ _ _).append_left pre).trans ?_
  exact List.perm_middle

theorem Linked.modify (h : s.Linked) (p : ℕ) {f : ILInstr → ILInstr}
    (hf : ∀ i, (f i).addr = i.addr) : (s.modify p f).Linked :=
  h.of_addr rfl (modifyNode_map_addr hf p s.m_IL)

theorem Linked.correctHandlers (h : s.Linked) (p q : ℕ) : (s.correctHandlers p q).Linked :=
  h.of_addr rfl rfl

/-- A node of a linked list stands there once. -/
theorem Linked.split (h : s.Linked) (hIL : s.m_IL = pre ++ w :: rest) :
    w.addr ∉ pre.map ILInstr.addr ∧ w.addr ≠ pIL ∧ w.addr < s.fresh := by
  refine ⟨?_, ?_⟩
  · intro hmem
    have hnodup := h.nodup
    rw [hIL, List.map_append, List.map_cons, List.nodup_append] at hnodup
    exact hnodup.2.2 _ hmem _ List.mem_cons_self rfl
  · have halloc := h.allocated w (by rw [hIL]; simp)
    omega

theorem Linked.node_eq (h : s.Linked) (hIL : s.m_IL = pre ++ w :: rest) :
    s.node w.addr = some w := by
  rw [node, hIL]
  exact findNode_split rfl (h.split hIL).1

/-- The nodes of a probe call, in front of the node at `fresh`. -/
def probeNodes (covProb : Probe → ProbeCall) (methodId : Int32) (fresh : ℕ) (probe : Probe)
    (offset : ℕ) : List ILInstr :=
  [⟨fresh + 1, ceeLdcI4, 0, offset % 2 ^ 32⟩,
    ⟨fresh + 2, ceeLdcI4, 0, methodId.toBitVec.toNat % 2 ^ 32⟩,
    ⟨fresh + 3, ceeLdcI8, 0, (covProb probe).addr⟩, ⟨fresh + 4, ceeCalli, 0, (covProb probe).sig⟩]

variable (covProb : Probe → ProbeCall) (methodId : Int32)

/-- A probe call in front of a node that was just made. -/
def addCall (s : ILRewriter) (pNewInstr : ℕ) (probe : Probe) (offset : ℕ) : ILRewriter :=
  ((s.addLDCInstrBefore pNewInstr offset).addLDCInstrBefore pNewInstr
    methodId.toBitVec.toNat).addProbe (covProb probe) pNewInstr

/-- Four nodes appear in front of the new one. -/
theorem addCall_split (hlinked : s.Linked) (hIL : s.m_IL = pre ++ w :: rest) {fresh : ℕ}
    (hfresh : s.fresh = fresh + 1) (probe : Probe) (offset : ℕ) :
    (s.addCall covProb methodId w.addr probe offset).m_IL
        = pre ++ (probeNodes covProb methodId fresh probe offset ++ w :: rest)
      ∧ (s.addCall covProb methodId w.addr probe offset).Linked
      ∧ (s.addCall covProb methodId w.addr probe offset).fresh = fresh + 5
      ∧ (s.addCall covProb methodId w.addr probe offset).m_pEH = s.m_pEH := by
  have h₁ := hlinked.newBefore w.addr ceeLdcI4 (offset % 2 ^ 32)
  have e₁ := newBefore_split hIL (hlinked.split hIL).1 ceeLdcI4 (offset % 2 ^ 32)
  have h₂ := h₁.newBefore w.addr ceeLdcI4 (methodId.toBitVec.toNat % 2 ^ 32)
  rw [List.append_cons] at e₁
  have e₂ := newBefore_split e₁ (h₁.split e₁).1 ceeLdcI4 (methodId.toBitVec.toNat % 2 ^ 32)
  rw [List.append_cons] at e₂
  have h₃ := h₂.newBefore w.addr ceeLdcI8 (covProb probe).addr
  have e₃ := newBefore_split e₂ (h₂.split e₂).1 ceeLdcI8 (covProb probe).addr
  rw [List.append_cons] at e₃
  have h₄ := h₃.newBefore w.addr ceeCalli (covProb probe).sig
  have e₄ := newBefore_split e₃ (h₃.split e₃).1 ceeCalli (covProb probe).sig
  refine ⟨e₄.trans ?_, h₄, ?_, rfl⟩
  · show pre ++ [⟨s.fresh, _, _, _⟩] ++ [⟨s.fresh + 1, _, _, _⟩] ++ [⟨s.fresh + 1 + 1, _, _, _⟩]
      ++ ⟨s.fresh + 1 + 1 + 1, _, _, _⟩ :: w :: rest = _
    rw [hfresh, probeNodes]
    simp
  · show s.fresh + 1 + 1 + 1 + 1 = _
    rw [hfresh]

/-- The probe and a `nop` appear behind the node. -/
theorem addCoverageProbeAfter_eq (hlinked : s.Linked) (hIL : s.m_IL = pre ++ w :: rest)
    (probe : Probe) : ∃ s', s.addCoverageProbeAfter covProb methodId w.addr probe = .ok s'
      ∧ s'.m_IL = pre ++ w :: (probeNodes covProb methodId s.fresh probe w.m_offset
        ++ ⟨s.fresh, ceeNop, 0, 0⟩ :: rest)
      ∧ s'.Linked ∧ s'.m_pEH = (s.correctHandlers w.addr s.fresh).m_pEH := by
  obtain ⟨hpre, hne, -⟩ := hlinked.split hIL
  have hlinked₁ := hlinked.newAfter hIL hpre hne ceeNop 0
  have hIL₁ := newAfter_split hIL hpre hne ceeNop 0
  rw [List.append_cons] at hIL₁
  obtain ⟨hcall, hlinked₂, -, -⟩ :=
    addCall_split covProb methodId hlinked₁ hIL₁ rfl probe w.m_offset
  refine ⟨((s.newAfter w.addr ceeNop 0).addCall covProb methodId s.fresh probe
    w.m_offset).correctHandlers w.addr s.fresh, ?_, hcall.trans (List.append_cons pre w _).symm,
    hlinked₂.correctHandlers w.addr s.fresh, rfl⟩
  rw [addCoverageProbeAfter, hlinked.node_eq hIL]
  rfl

/-- The node becomes a `nop`, and the probe and its copy appear behind it. -/
theorem addCoverageProbeBefore_eq (hlinked : s.Linked) (hIL : s.m_IL = pre ++ w :: rest)
    (probe : Probe) : ∃ s', s.addCoverageProbeBefore covProb methodId w.addr probe = .ok s'
      ∧ s'.m_IL = pre ++ { w with m_opcode := ceeNop }
        :: (probeNodes covProb methodId s.fresh probe w.m_offset
          ++ ⟨s.fresh, w.m_opcode, 0, w.m_Arg64⟩ :: rest)
      ∧ s'.Linked ∧ s'.m_pEH = (s.correctHandlers w.addr s.fresh).m_pEH := by
  obtain ⟨hpre, hne, -⟩ := hlinked.split hIL
  have hlinked₁ := hlinked.newAfter hIL hpre hne w.m_opcode w.m_Arg64
  have hIL₁ := newAfter_split hIL hpre hne w.m_opcode w.m_Arg64
  have hlinked₂ := hlinked₁.modify w.addr (f := fun i => { i with m_opcode := ceeNop }) fun _ => rfl
  have hIL₂ : ((s.newAfter w.addr w.m_opcode w.m_Arg64).modify w.addr
      fun i => { i with m_opcode := ceeNop }).m_IL
      = pre ++ { w with m_opcode := ceeNop } :: ⟨s.fresh, w.m_opcode, 0, w.m_Arg64⟩ :: rest := by
    rw [modify_m_IL, hIL₁, modifyNode_split rfl hpre]
  rw [List.append_cons] at hIL₂
  obtain ⟨hcall, hlinked₃, -, -⟩ :=
    addCall_split covProb methodId hlinked₂ hIL₂ rfl probe w.m_offset
  refine ⟨(((s.newAfter w.addr w.m_opcode w.m_Arg64).modify w.addr fun i =>
    { i with m_opcode := ceeNop }).addCall covProb methodId s.fresh probe
    w.m_offset).correctHandlers w.addr s.fresh, ?_, hcall.trans (List.append_cons pre _ _).symm,
    hlinked₃.correctHandlers w.addr s.fresh, rfl⟩
  rw [addCoverageProbeBefore, hlinked.node_eq hIL]
  rfl

end ILRewriter

/-! ### Segments -/

section Segments

variable (covProb : Probe → ProbeCall) (methodId : Int32)

/-- The nodes of the items; the first one is the old node, with its offset. -/
structure Realizes (items : List Item) (w : ILInstr) (seg : List ILInstr) : Prop where
  contents : seg.map ILInstr.content = items.flatMap (Item.contents covProb methodId)
  anchored : ∃ i rest, seg = i :: rest ∧ i.addr = w.addr ∧ i.m_offset = w.m_offset
  starts : ∃ opcode arg rest, items = .instr opcode arg :: rest

variable {covProb methodId}

theorem probeNodes_content (fresh : ℕ) (probe : Probe) (offset : ℕ) :
    (ILRewriter.probeNodes covProb methodId fresh probe offset).map ILInstr.content
      = probeContents covProb methodId probe offset := rfl

theorem realizes_singleton (w : ILInstr) :
    Realizes covProb methodId [.instr w.m_opcode w.m_Arg64] w [w] :=
  ⟨rfl, ⟨w, [], rfl, rfl, rfl⟩, _, _, _, rfl⟩

variable {items : List Item} {w i : ILInstr} {rest : List ILInstr}

/-- The first node of a segment holds the first item. -/
theorem Realizes.cons (h : Realizes covProb methodId items w (i :: rest)) :
    i.addr = w.addr ∧ i.m_offset = w.m_offset ∧ ∃ its,
      items = .instr i.m_opcode i.m_Arg64 :: its
        ∧ rest.map ILInstr.content = its.flatMap (Item.contents covProb methodId) := by
  obtain ⟨j, rest', hseg, haddr, hoffset⟩ := h.anchored
  obtain ⟨rfl, rfl⟩ := List.cons.inj hseg
  obtain ⟨opcode, arg, its, rfl⟩ := h.starts
  have hcontents := h.contents
  rw [List.map_cons, List.flatMap_cons] at hcontents
  obtain ⟨hhead, htail⟩ := List.cons.inj hcontents
  obtain ⟨rfl, rfl⟩ := Prod.mk.inj hhead
  exact ⟨haddr, hoffset, its, rfl, htail⟩

theorem Realizes.insertBefore (h : Realizes covProb methodId items w (i :: rest)) (fresh : ℕ)
    (probe : Probe) : Realizes covProb methodId (Item.insertBefore probe w.m_offset items) w
      ({ i with m_opcode := ceeNop } :: (ILRewriter.probeNodes covProb methodId fresh probe i.m_offset
        ++ ⟨fresh, i.m_opcode, 0, i.m_Arg64⟩ :: rest)) := by
  obtain ⟨haddr, hoffset, its, rfl, hrest⟩ := h.cons
  refine ⟨?_, ⟨_, _, rfl, haddr, hoffset⟩, _, _, _, rfl⟩
  rw [List.map_cons, List.map_append, probeNodes_content, List.map_cons, hrest, hoffset]
  rfl

theorem Realizes.insertAfter (h : Realizes covProb methodId items w (i :: rest)) (fresh : ℕ)
    (probe : Probe) : Realizes covProb methodId (Item.insertAfter probe w.m_offset items) w
      (i :: (ILRewriter.probeNodes covProb methodId fresh probe i.m_offset
        ++ ⟨fresh, ceeNop, 0, 0⟩ :: rest)) := by
  obtain ⟨haddr, hoffset, its, rfl, hrest⟩ := h.cons
  refine ⟨?_, ⟨_, _, rfl, haddr, hoffset⟩, _, _, _, rfl⟩
  rw [List.map_cons, List.map_append, probeNodes_content, List.map_cons, hrest, hoffset]
  rfl

/-! ### The whole list -/

/-- The last node of the segment at an address. -/
def lastOf (segs : ℕ → List ILInstr) (p : ℕ) : ℕ := lastAddr ILInstr.addr p (segs p)

variable (covProb methodId)

/-- The list is made of the segments of old nodes, and a handler that ended at an old node ends at
the last one of its segment. -/
structure Grouped (ws : List ILInstr) (eh : List EHClause) (items : ℕ → List Item)
    (segs : ℕ → List ILInstr) (s : ILRewriter) : Prop where
  linked : s.Linked
  nodup : (ws.map ILInstr.addr).Nodup
  list_eq : s.m_IL = ws.flatMap fun w => segs w.addr
  realizes : ∀ w ∈ ws, Realizes covProb methodId (items w.addr) w (segs w.addr)
  outside : ∀ p, p ∉ ws.map ILInstr.addr → segs p = []
  clauses_eq : s.m_pEH
    = eh.map fun c => { c with m_pHandlerEnd := lastOf segs c.m_pHandlerEnd }

variable {covProb methodId} {ws : List ILInstr} {eh : List EHClause} {its : ℕ → List Item}
  {segs : ℕ → List ILInstr} {s : ILRewriter}

/-- The segments around one of them. -/
theorem Grouped.split (h : Grouped covProb methodId ws eh its segs s) (hw : w ∈ ws) :
    ∃ ws₁ ws₂ i rest, ws = ws₁ ++ w :: ws₂ ∧ w.addr ∉ ws₁.map ILInstr.addr
      ∧ w.addr ∉ ws₂.map ILInstr.addr ∧ segs w.addr = i :: rest ∧ i.addr = w.addr
      ∧ i.m_offset = w.m_offset
      ∧ s.m_IL = (ws₁.flatMap fun w => segs w.addr) ++ i :: (rest ++ ws₂.flatMap fun w => segs w.addr) := by
  obtain ⟨ws₁, ws₂, rfl⟩ := List.append_of_mem hw
  obtain ⟨i, rest, hseg, haddr, hoffset⟩ := (h.realizes w hw).anchored
  have hnodup := h.nodup
  rw [List.map_append, List.map_cons, List.nodup_append] at hnodup
  refine ⟨ws₁, ws₂, i, rest, rfl, ?_, (List.nodup_cons.mp hnodup.2.1).1, hseg, haddr, hoffset, ?_⟩
  · exact fun hmem => hnodup.2.2 _ hmem _ List.mem_cons_self rfl
  · rw [h.list_eq, List.flatMap_append, List.flatMap_cons, hseg, List.cons_append]

theorem Grouped.node_eq (h : Grouped covProb methodId ws eh its segs s) (hw : w ∈ ws) :
    ∃ i, s.node w.addr = some i ∧ i.m_offset = w.m_offset
      ∧ ∃ rest, its w.addr = .instr i.m_opcode i.m_Arg64 :: rest := by
  obtain ⟨ws₁, ws₂, i, rest, -, -, -, hseg, haddr, hoffset, hIL⟩ := h.split hw
  obtain ⟨-, -, rest, hits, -⟩ := (hseg ▸ h.realizes w hw).cons
  refine ⟨i, ?_, hoffset, rest, hits⟩
  rw [← haddr]
  exact h.linked.node_eq hIL

theorem Grouped.offsetAt_eq (h : Grouped covProb methodId ws eh its segs s) (hw : w ∈ ws) :
    s.offsetAt w.addr = w.m_offset := by
  obtain ⟨i, hnode, hoffset, -⟩ := h.node_eq hw
  rw [ILRewriter.offsetAt, hnode]
  exact hoffset

theorem lastAddr_mem {j : ILInstr} (js : List ILInstr) (last : ℕ) :
    lastAddr ILInstr.addr last (j :: js) ∈ (j :: js).map ILInstr.addr := by
  induction js generalizing j last with
  | nil => exact List.mem_singleton_self _
  | cons k js ih => exact List.mem_cons_of_mem _ (ih (j := k) j.addr)

/-- The last node of another segment is another node. -/
theorem Grouped.lastOf_ne (h : Grouped covProb methodId ws eh its segs s) (hw : w ∈ ws) {p : ℕ}
    (hp : p ≠ w.addr) : lastOf segs p ≠ w.addr := by
  by_cases hmem : p ∈ ws.map ILInstr.addr
  · obtain ⟨v, hv, rfl⟩ := List.mem_map.mp hmem
    obtain ⟨j, js, hseg, -, -⟩ := (h.realizes v hv).anchored
    obtain ⟨ws₁, ws₂, i, rest, hws, -, -, -, haddr, -, hIL⟩ := h.split hw
    have hlast : lastOf segs v.addr ∈ (segs v.addr).map ILInstr.addr := by
      rw [lastOf, hseg]
      exact lastAddr_mem js _
    have hnodup := h.linked.nodup
    rw [hIL, List.map_append, List.map_cons, List.nodup_append] at hnodup
    intro heq
    rw [hws, List.mem_append, List.mem_cons] at hv
    obtain ⟨k, hk, hkaddr⟩ := List.mem_map.mp hlast
    rcases hv with hv | rfl | hv
    · refine hnodup.2.2 k.addr (List.mem_map_of_mem (List.mem_flatMap.mpr ⟨v, hv, hk⟩)) i.addr
        List.mem_cons_self ?_
      rw [hkaddr, heq, haddr]
    · exact hp rfl
    · refine (List.nodup_cons.mp hnodup.2.1).1 ?_
      rw [haddr, ← heq, ← hkaddr, List.map_append]
      exact List.mem_append_right _ (List.mem_map_of_mem (List.mem_flatMap.mpr ⟨v, hv, hk⟩))
  · rw [lastOf, h.outside p hmem]
    exact hp

theorem Grouped.lastOf_self_ne (h : Grouped covProb methodId ws eh its segs s) (hw : w ∈ ws)
    {i j : ILInstr} {js : List ILInstr} (hseg : segs w.addr = i :: j :: js) :
    lastOf segs w.addr ≠ w.addr := by
  obtain ⟨ws₁, ws₂, i', rest, -, -, -, hseg', haddr, -, hIL⟩ := h.split hw
  obtain ⟨rfl, rfl⟩ := List.cons.inj (hseg.symm.trans hseg')
  have hnodup := h.linked.nodup
  rw [hIL, List.map_append, List.map_cons, List.nodup_append] at hnodup
  intro heq
  refine (List.nodup_cons.mp hnodup.2.1).1 ?_
  rw [haddr, ← heq, lastOf, hseg, List.map_append]
  exact List.mem_append_left _ (lastAddr_mem js i.addr)

/-- The segment of one node is replaced by a longer one, at whose end stands the new node. -/
theorem Grouped.replace (h : Grouped covProb methodId ws eh its segs s) (hw : w ∈ ws)
    {s' : ILRewriter} {items : List Item} {i x : ILInstr} {m rest : List ILInstr}
    (hseg : segs w.addr = i :: rest) (hx : x.addr = s.fresh)
    (hlinked : s'.Linked) (hclauses : s'.m_pEH = (s.correctHandlers w.addr s.fresh).m_pEH)
    (hIL : ∀ ws₁ ws₂, ws = ws₁ ++ w :: ws₂ → s.m_IL
      = (ws₁.flatMap fun w => segs w.addr) ++ i :: (rest ++ ws₂.flatMap fun w => segs w.addr) →
      s'.m_IL = (ws₁.flatMap fun w => segs w.addr)
        ++ (m ++ x :: (rest ++ ws₂.flatMap fun w => segs w.addr)))
    (hrealizes : Realizes covProb methodId items w (m ++ x :: rest)) :
    Grouped covProb methodId ws eh (Function.update its w.addr items)
      (Function.update segs w.addr (m ++ x :: rest)) s' := by
  obtain ⟨ws₁, ws₂, i', rest', hws, hws₁, hws₂, hseg', haddr, -, hlist⟩ := h.split hw
  obtain ⟨rfl, rfl⟩ := List.cons.inj (hseg.symm.trans hseg')
  have hupdate : ∀ vs : List ILInstr, w.addr ∉ vs.map ILInstr.addr →
      (vs.flatMap fun v => Function.update segs w.addr (m ++ x :: rest) v.addr)
        = vs.flatMap fun v => segs v.addr := by
    intro vs hvs
    refine List.flatMap_congr fun v hv => Function.update_of_ne ?_ _ _
    exact fun heq => hvs (heq ▸ List.mem_map_of_mem hv)
  refine ⟨hlinked, h.nodup, ?_, ?_, ?_, ?_⟩
  · rw [hIL ws₁ ws₂ hws hlist, hws, List.flatMap_append, List.flatMap_cons, hupdate ws₁ hws₁,
      hupdate ws₂ hws₂, Function.update_self]
    simp
  · intro v hv
    by_cases hvw : v.addr = w.addr
    · have hmem : v ∈ ws ∧ w ∈ ws := ⟨hv, hw⟩
      obtain rfl : v = w := List.inj_on_of_nodup_map h.nodup hv hw hvw
      rw [Function.update_self, Function.update_self]
      exact hrealizes
    · rw [Function.update_of_ne hvw, Function.update_of_ne hvw]
      exact h.realizes v hv
  · intro p hp
    have hpw : p ≠ w.addr := by
      rintro rfl
      exact hp (List.mem_map_of_mem hw)
    rw [Function.update_of_ne hpw]
    exact h.outside p hp
  · rw [hclauses]
    show (s.m_pEH.map fun clause => _) = _
    rw [h.clauses_eq, List.map_map]
    refine List.map_congr_left fun c _ => ?_
    show (if lastOf segs c.m_pHandlerEnd = w.addr then
      { c with m_pHandlerEnd := s.fresh } else { c with m_pHandlerEnd := _ } : EHClause) = _
    by_cases hend : c.m_pHandlerEnd = w.addr
    · rw [hend]
      cases hrest : rest with
      | nil =>
          have hlast : lastOf segs w.addr = w.addr := by
            rw [lastOf, hseg, hrest]
            exact haddr
          rw [if_pos hlast, lastOf, Function.update_self, lastAddr_concat, hx]
      | cons j js =>
          have hlast : lastOf segs w.addr = lastAddr ILInstr.addr j.addr js := by
            rw [lastOf, hseg, hrest]
            rfl
          rw [if_neg (h.lastOf_self_ne hw (by rw [hseg, hrest])), lastOf, lastOf,
            Function.update_self, ← lastOf, hlast, lastAddr_append]
          rfl
    · rw [if_neg (h.lastOf_ne hw hend), lastOf, lastOf, Function.update_of_ne hend]

/-- **One insertion** changes the items of its node. -/
theorem Grouped.makeProbeInsertion (h : Grouped covProb methodId ws eh its segs s) (hw : w ∈ ws)
    {x : ProbeInsertion} (hx : x.target = w.addr) :
    ∃ s' segs', s.makeProbeInsertion covProb methodId x = .ok s'
      ∧ Grouped covProb methodId ws eh
        (Function.update its w.addr (Item.insert w.m_offset (its w.addr) x)) segs' s' := by
  obtain ⟨ws₁, ws₂, i, rest, hws, hws₁, -, hseg, haddr, hoffset, hIL⟩ := h.split hw
  have hreal := hseg ▸ h.realizes w hw
  have hrest : ∀ vs₁ vs₂, ws = vs₁ ++ w :: vs₂ → vs₁ = ws₁ ∧ vs₂ = ws₂ := by
    intro vs₁ vs₂ hvs
    have hnodup := h.nodup
    rw [hws] at hnodup hvs
    obtain ⟨rfl, -, rfl⟩ := split_unique hnodup hvs rfl
    exact ⟨rfl, rfl⟩
  rw [ILRewriter.makeProbeInsertion, Item.insert, hx]
  by_cases hbefore : x.isBeforeInstr = true
  · rw [if_pos hbefore, if_pos hbefore]
    obtain ⟨s', hok, hIL', hlinked', heh'⟩ := ILRewriter.addCoverageProbeBefore_eq
      covProb methodId h.linked hIL x.probe
    rw [haddr] at hok heh'
    refine ⟨s', _, hok, h.replace hw (m := { i with m_opcode := ceeNop }
      :: ILRewriter.probeNodes covProb methodId s.fresh x.probe i.m_offset)
      (x := ⟨s.fresh, i.m_opcode, 0, i.m_Arg64⟩) hseg rfl hlinked' heh' ?_
      (hreal.insertBefore s.fresh x.probe)⟩
    intro vs₁ vs₂ hvs _
    obtain ⟨rfl, rfl⟩ := hrest vs₁ vs₂ hvs
    rw [hIL', List.cons_append]
  · rw [if_neg hbefore, if_neg hbefore]
    obtain ⟨s', hok, hIL', hlinked', heh'⟩ := ILRewriter.addCoverageProbeAfter_eq
      covProb methodId h.linked hIL x.probe
    rw [haddr] at hok heh'
    refine ⟨s', _, hok, h.replace hw (m := i
      :: ILRewriter.probeNodes covProb methodId s.fresh x.probe i.m_offset)
      (x := ⟨s.fresh, ceeNop, 0, 0⟩) hseg rfl hlinked' heh' ?_
      (hreal.insertAfter s.fresh x.probe)⟩
    intro vs₁ vs₂ hvs _
    obtain ⟨rfl, rfl⟩ := hrest vs₁ vs₂ hvs
    rw [hIL', List.cons_append]

end Segments

end TestExecutor
