import Mathlib.Data.Nat.SuccPred
import Mathlib.Order.Interval.Set.Monotone
import TestExecutor.Rewriter.Groups

/-!
# The list of a rewritten body

What `RewriteIL` makes of a valid body, and what the nodes of the list are.

* `IsInserted` — the opcodes of the inserted nodes;
* `RewrittenBody`, `exists_rewritten` — the probe at the entry, and one group for each instruction;
* `HandlerEnds`, `exists_rewritten_ends` — the nodes at which handlers end;
* `boundaryAt`, `frontNodes`, `RewrittenBody.list_split` — boundaries and groups by their positions;
* `RewrittenBody.node_cases` — every node is an inserted one, an instruction, or a slot;
* `RewrittenBody.sized`, `RewrittenBody.targetsInList` — what `Export` relies on.
-/

namespace TestExecutor

open TestExecutor.Library ILRewriter

/-! ### Inserted nodes -/

/-- The opcodes that are inserted. -/
def IsInserted (opcode : ℕ) : Prop :=
  opcode = ceeNop ∨ opcode = ceeLdcI4 ∨ opcode = ceeLdcI8 ∨ opcode = ceeLdcI40 ∨ opcode = ceeCalli

theorem IsInserted.lt {opcode : ℕ} (h : IsInserted opcode) :
    opcode < ceeCount ∧ (opCodeFlags opcode).branchTarget = false := by
  rcases h with rfl | rfl | rfl | rfl | rfl <;> decide

theorem PaddedWith.inserted {covProb : Probe → ProbeCall} {methodId : Int32}
    {probes : List (Probe × ℕ)} {nodes : List ILInstr} (h : PaddedWith covProb methodId probes nodes)
    {n : ILInstr} (hn : n ∈ nodes) : IsInserted n.m_opcode := by
  obtain ⟨items, hitems, -, -, hnodes⟩ := h
  have hcontent : n.content ∈ items.flatMap (Item.contents covProb methodId) :=
    hnodes ▸ List.mem_map_of_mem hn
  obtain ⟨item, hitem, hmem⟩ := List.mem_flatMap.mp hcontent
  cases item with
  | instr opcode arg =>
      have hop : opcode = ceeNop := hitems _ hitem
      rw [Item.contents, List.mem_singleton] at hmem
      exact Or.inl ((Prod.mk.inj hmem).1.trans hop)
  | probe p o =>
      unfold IsInserted
      simp only [Item.contents, probeContents, ILInstr.content, List.mem_cons, List.not_mem_nil,
        Prod.mk.injEq, or_false] at hmem
      tauto

theorem enter_inserted {covProb : Probe → ProbeCall} {methodId : Int32} {p : Probe} {o : ℕ}
    {enter : List ILInstr}
    (h : enter.map ILInstr.content = enterContents covProb methodId p o) {n : ILInstr}
    (hn : n ∈ enter) : IsInserted n.m_opcode := by
  have hcontent : n.content ∈ enterContents covProb methodId p o := h ▸ List.mem_map_of_mem hn
  unfold IsInserted
  simp only [enterContents, ILInstr.content, List.mem_cons, List.not_mem_nil, Prod.mk.injEq,
    or_false] at hcontent
  tauto

/-! ### Rewritten bodies -/

/-- A rewritten list: the probe at the entry, and one group for each instruction. -/
structure RewrittenBody (covProb : Probe → ProbeCall) (methodId : Int32) (isMain : Bool)
    (body : MethodBody) (is : List RawInstr) (s' : ILRewriter) (enter : List ILInstr)
    (gs : List Group) : Prop where
  linked : s'.Linked
  fat : s'.m_fGenerateTinyHeader = false
  counted : s'.m_IL.length ≤ s'.m_nInstrs
  list_eq : s'.m_IL = enter ++ gs.flatMap Group.nodes
  enter_eq : ∃ o, enter.map ILInstr.content
    = enterContents covProb methodId (ILRewriter.enterMethod isMain) o
  groups : Aligned (fun pre i post g => GroupOf covProb methodId (targetOf is body.code.size)
    (annotate (ILRewriter.leaveMethod isMain) body.eh (branchTargets is) pre i post) i g) [] is gs
  -- a handler ended at the node in front of its end
  clauses_eq : ∃ ends : ℕ → ℕ, s'.m_pEH = body.eh.map (fun c =>
      { clauseOf (targetOf is body.code.size) id c with
        m_pHandlerEnd := ends ((c.handlerOffset + c.handlerLength) % 2 ^ 32) })
    ∧ ∀ pre i post g gs₁ gs₂, is = pre ++ i :: post → gs = gs₁ ++ g :: gs₂ →
      gs₁.length = pre.length → i.opcode ≠ ceeTailcall →
        ends i.next = lastAddr ILInstr.addr pIL g.nodes

theorem Aligned.imp {α β : Type*} {P Q : List α → α → List α → β → Prop}
    (himp : ∀ pre i post g, P pre i post g → Q pre i post g) {pre is : List α} {gs : List β}
    (h : Aligned P pre is gs) : Aligned Q pre is gs := by
  induction is generalizing pre gs with
  | nil =>
      cases gs with
      | nil => trivial
      | cons g gs => exact absurd h id
  | cons i is ih =>
      cases gs with
      | nil => exact absurd h id
      | cons g gs => exact ⟨himp _ _ _ _ h.1, ih h.2⟩

theorem drop_of_getElem? {α : Type*} {as : List α} {a : α} {k : ℕ} (ha : as[k]? = some a) :
    as.drop k = a :: as.drop (k + 1) := by
  obtain ⟨hlt, rfl⟩ := List.getElem?_eq_some_iff.mp ha
  exact List.drop_eq_getElem_cons hlt

/-- The clauses of the list, with the ends of the handlers: each at the node in front of its end. -/
structure HandlerEnds (body : MethodBody) (is : List RawInstr) (s' : ILRewriter) (gs : List Group)
    (ends : ℕ → ℕ) : Prop where
  clauses_eq : s'.m_pEH = body.eh.map (fun c =>
    { clauseOf (targetOf is body.code.size) id c with
      m_pHandlerEnd := ends ((c.handlerOffset + c.handlerLength) % 2 ^ 32) })
  atStart : is ≠ [] → ends 0 = pIL
  behind : ∀ (k : ℕ) (i : RawInstr) (g : Group), is[k]? = some i → gs[k]? = some g →
    g.EndsAt i (ends i.next)

/-- A handler that ended at the start of the code ends at the sentinel. -/
theorem ValidBody.lastOf_start {covProb : Probe → ProbeCall} {methodId : Int32} {isMain : Bool}
    {body : MethodBody} {is : List RawInstr} {s s' : ILRewriter} {enter : List ILInstr}
    {segs : ℕ → List ILInstr} (h : ValidBody body is) (hs : ImportedFrom body is s)
    (hres : RewriteResult covProb methodId isMain s s' enter segs) (hne : is ≠ []) :
    lastOf segs (s.m_pPrev (targetOf is body.code.size 0)) = pIL := by
  obtain ⟨i, post, rfl⟩ := List.exists_cons_of_ne_nil hne
  have hzero : i.offset = 0 := h.consecutive.1
  have his : i :: post = [] ++ i :: post := rfl
  have hIL := hs.list_split his
  rw [← hzero, h.decoded.targetOf_split his,
    ← instrNode_addr (targetOf (i :: post) body.code.size) (addrBehindAll (pIL + 1) []) i,
    hs.linked.prev_eq hIL]
  have hsentinel : pIL ∉ s.anchors.map ILInstr.addr := by
    intro hmem
    obtain ⟨w, hw, hwaddr⟩ := List.mem_map.mp hmem
    obtain ⟨j, rest, hseg, haddr, -⟩ := (hres.realizes w hw).anchored
    refine hres.linked.pIL_notMem (List.mem_map.mpr ⟨j, ?_, haddr.trans hwaddr⟩)
    rw [hres.list_eq]
    refine List.mem_append_right _ (List.mem_flatMap.mpr ⟨w, hw, ?_⟩)
    rw [hseg]
    exact List.mem_cons_self
  show lastAddr ILInstr.addr pIL (segs pIL) = pIL
  rw [hres.outside pIL hsentinel]
  rfl

/-- The rewriting of a valid body, with the ends of the handlers. -/
theorem ValidBody.exists_rewritten_ends {body : MethodBody} {is : List RawInstr}
    (h : ValidBody body is) (covProb : Probe → ProbeCall) (methodId : Int32) (isMain : Bool) :
    ∃ s s' enter gs ends, importBody body = .ok s ∧ s.rewriteIL covProb methodId isMain = .ok s'
      ∧ RewrittenBody covProb methodId isMain body is s' enter gs
      ∧ HandlerEnds body is s' gs ends ∧ ImportedFrom body is s.countOffsets
      ∧ Pushed (s.countOffsets.stackGrowth (ILRewriter.leaveMethod isMain)) s s' := by
  obtain ⟨s, hs, himported⟩ := h.imported
  obtain ⟨s', enter, segs, hrewrite, hres, hpushed⟩ : ∃ s' enter segs,
      s.rewriteIL covProb methodId isMain = .ok s'
        ∧ RewriteResult covProb methodId isMain s.countOffsets s' enter segs
        ∧ Pushed (s.countOffsets.stackGrowth (ILRewriter.leaveMethod isMain)) s.countOffsets s' :=
    rewriteIL_eq (h.rewritable himported) isMain
  obtain ⟨gs, hlist, haligned⟩ := h.exists_groups himported hres
  obtain ⟨w, ws, -, henter⟩ := hres.enter_eq
  have hgrown := (countOffsets_pushed s).trans hpushed
  rw [Nat.zero_add] at hgrown
  have hcounted := hgrown.counted
  have hold := (importBody_editable hs).counted
  obtain ⟨ends, hends⟩ : ∃ ends, HandlerEnds body is s' gs ends := by
    refine ⟨fun o => lastOf segs (s.countOffsets.m_pPrev (targetOf is body.code.size o)), ?_⟩
    refine ⟨?_, h.lastOf_start himported hres, fun k i g hi hg => ?_⟩
    · rw [hres.clauses_eq, himported.clauses_eq, List.map_map]
      rfl
    · have his : is = is.take k ++ i :: is.drop (k + 1) := by
        rw [← drop_of_getElem? hi, List.take_append_drop]
      obtain ⟨gs₁, g', gs₂, rfl, hlength, hgroup, -⟩ := haligned.split his
      obtain ⟨hlt, -⟩ := List.getElem?_eq_some_iff.mp hi
      rw [List.length_take_of_le (le_of_lt hlt)] at hlength
      rw [List.getElem?_append_right (le_of_eq hlength), hlength, Nat.sub_self] at hg
      obtain rfl := Option.some.inj hg
      exact hgroup.2
  refine ⟨s, s', enter, gs, ends, hs, hrewrite, ⟨hres.linked,
    hgrown.header.trans (importBody_editable hs).fat, by omega, hlist, ⟨_, henter⟩,
    haligned.imp fun _ _ _ _ hgroup => hgroup.1, ends, hends.clauses_eq, ?_⟩, hends, himported, hgrown⟩
  intro pre i post g gs₁ gs₂ his hgs hlength htail
  have hi : is[pre.length]? = some i := by
    rw [his, List.getElem?_append_right (le_refl _), Nat.sub_self]
    rfl
  have hg : gs[pre.length]? = some g := by
    rw [hgs, ← hlength, List.getElem?_append_right (le_refl _), Nat.sub_self]
    rfl
  exact (hends.behind _ i g hi hg).last_eq htail

/-- **The rewriting of a valid body.** -/
theorem ValidBody.exists_rewritten {body : MethodBody} {is : List RawInstr} (h : ValidBody body is)
    (covProb : Probe → ProbeCall) (methodId : Int32) (isMain : Bool) :
    ∃ s s' enter gs, importBody body = .ok s ∧ s.rewriteIL covProb methodId isMain = .ok s'
      ∧ RewrittenBody covProb methodId isMain body is s' enter gs
      ∧ ImportedFrom body is s.countOffsets
      ∧ Pushed (s.countOffsets.stackGrowth (ILRewriter.leaveMethod isMain)) s s' := by
  obtain ⟨s, s', enter, gs, -, hs, hrewrite, hr, -, himported, hpushed⟩ :=
    h.exists_rewritten_ends covProb methodId isMain
  exact ⟨s, s', enter, gs, hs, hrewrite, hr, himported, hpushed⟩

/-! ### Its nodes -/

/-- What a group has of its instruction. -/
structure Stands (t : ℕ → ℕ) (i : RawInstr) (g : Group) : Prop where
  start : g.start = t i.offset
  operation : SameOperation t i g
  lead : ∀ n ∈ g.lead, IsInserted n.m_opcode
  trail : ∀ n ∈ g.trail, IsInserted n.m_opcode

/-- The nodes of slots. -/
theorem Stands.slot_eq {t : ℕ → ℕ} {i : RawInstr} {g : Group} (h : Stands t i g) {n : ILInstr}
    (hn : n ∈ g.slots) : n.m_opcode = ceeSwitchArg ∧ ∃ o ∈ i.slotTargets, n.m_pTarget = t o := by
  have hcontent : n.content ∈ g.slots.map ILInstr.content := List.mem_map_of_mem hn
  rw [h.operation.slots] at hcontent
  obtain ⟨o, ho, heq⟩ := List.mem_map.mp hcontent
  obtain ⟨hopcode, harg⟩ := Prod.mk.inj heq
  exact ⟨hopcode.symm, o, ho, harg.symm⟩

theorem Group.instr_mem (g : Group) : g.instr ∈ g.nodes := by
  rw [Group.nodes]
  simp

/-! ### Positions -/

/-- The byte offset of the instruction at a position, or of the end. -/
def boundaryAt (is : List RawInstr) (stop k : ℕ) : ℕ := (is[k]?.map RawInstr.offset).getD stop

theorem boundaryAt_of_getElem? {is : List RawInstr} {i : RawInstr} {k : ℕ} (hi : is[k]? = some i)
    (stop : ℕ) : boundaryAt is stop k = i.offset := by
  rw [boundaryAt, hi]
  rfl

theorem boundaryAt_length (is : List RawInstr) (stop : ℕ) : boundaryAt is stop is.length = stop := by
  rw [boundaryAt, List.getElem?_eq_none (le_refl _)]
  rfl

theorem exists_boundaryAt {is : List RawInstr} {stop o : ℕ} (ho : IsStart is o ∨ o = stop) :
    ∃ k ≤ is.length, boundaryAt is stop k = o := by
  rcases ho with ⟨i, hi, rfl⟩ | rfl
  · obtain ⟨k, hk⟩ := List.getElem?_of_mem hi
    obtain ⟨hlt, -⟩ := List.getElem?_eq_some_iff.mp hk
    exact ⟨k, le_of_lt hlt, boundaryAt_of_getElem? hk stop⟩
  · exact ⟨is.length, le_refl _, boundaryAt_length is o⟩

/-- An instruction ends where the next one starts. -/
theorem Consecutive.boundaryAt_succ {start stop k : ℕ} {is : List RawInstr} {i : RawInstr}
    (h : Consecutive start is stop) (hi : is[k]? = some i) : boundaryAt is stop (k + 1) = i.next := by
  induction is generalizing start k with
  | nil => cases hi
  | cons j is ih =>
      cases k with
      | succ k => exact ih h.2 hi
      | zero =>
          obtain rfl := Option.some.inj hi
          cases is with
          | nil => exact h.2.symm
          | cons j is => exact h.2.1

theorem Consecutive.boundaryAt_strictMono {start stop : ℕ} {is : List RawInstr}
    (h : Consecutive start is stop) : StrictMonoOn (boundaryAt is stop) (Set.Iic is.length) := by
  apply strictMonoOn_Iic_of_lt_succ
  intro k hk
  have hi := List.getElem?_eq_getElem hk
  rw [Nat.succ_eq_succ, Nat.succ_eq_add_one, h.boundaryAt_succ hi, boundaryAt_of_getElem? hi]
  exact RawInstr.offset_lt_next _

/-- The nodes in front of the group at a position. -/
def frontNodes (enter : List ILInstr) (gs : List Group) (k : ℕ) : List ILInstr :=
  enter ++ (gs.take k).flatMap Group.nodes

theorem frontNodes_succ (enter : List ILInstr) {gs : List Group} {g : Group} {k : ℕ}
    (hg : gs[k]? = some g) : frontNodes enter gs (k + 1) = frontNodes enter gs k ++ g.nodes := by
  rw [frontNodes, List.take_add_one, hg, List.flatMap_append, ← List.append_assoc]
  exact congrArg _ (List.flatMap_singleton _ _)

theorem frontNodes_split (enter : List ILInstr) {gs : List Group} {g : Group} {k : ℕ}
    (hg : gs[k]? = some g) : enter ++ gs.flatMap Group.nodes
      = frontNodes enter gs k ++ (g.nodes ++ (gs.drop (k + 1)).flatMap Group.nodes) := by
  have hsplit : gs = gs.take (k + 1) ++ gs.drop (k + 1) := (List.take_append_drop _ _).symm
  rw [← List.append_assoc, ← frontNodes_succ enter hg, frontNodes, List.append_assoc,
    ← List.flatMap_append, ← hsplit]

namespace RewrittenBody

variable {covProb : Probe → ProbeCall} {methodId : Int32} {isMain : Bool} {body : MethodBody}
  {is : List RawInstr} {s' : ILRewriter} {enter : List ILInstr} {gs : List Group}
  (hr : RewrittenBody covProb methodId isMain body is s' enter gs)

include hr

theorem stands : List.Forall₂ (Stands (targetOf is body.code.size)) is gs :=
  hr.groups.forall₂ fun _ _ _ _ hgroup =>
    ⟨hgroup.start, hgroup.operation, fun _ => hgroup.lead.inserted, fun _ => hgroup.trail.inserted⟩

theorem node_cases {n : ILInstr} (hn : n ∈ s'.m_IL) : IsInserted n.m_opcode
    ∨ ∃ i ∈ is, ∃ g ∈ gs, Stands (targetOf is body.code.size) i g ∧ (n = g.instr ∨ n ∈ g.slots) := by
  rw [hr.list_eq] at hn
  rcases List.mem_append.mp hn with hn | hn
  · obtain ⟨o, henter⟩ := hr.enter_eq
    exact Or.inl (enter_inserted henter hn)
  · obtain ⟨g, hg, hn⟩ := List.mem_flatMap.mp hn
    obtain ⟨i, hi, hstands⟩ := forall₂_exists_left hr.stands hg
    rw [Group.nodes, List.mem_append, List.mem_cons, List.mem_append] at hn
    rcases hn with hn | hn | hn | hn
    · exact Or.inl (hstands.lead n hn)
    · exact Or.inr ⟨i, hi, g, hg, hstands, Or.inl hn⟩
    · exact Or.inr ⟨i, hi, g, hg, hstands, Or.inr hn⟩
    · exact Or.inl (hstands.trail n hn)

/-- Instruction starts lead to nodes of the list. -/
theorem nodeOrEnd {o : ℕ} (ho : IsStart is o ∨ o = body.code.size) :
    NodeOrEnd s'.m_IL (targetOf is body.code.size o) := by
  rcases ho with ⟨i, hi, rfl⟩ | rfl
  · obtain ⟨g, hg, hstands⟩ := forall₂_exists_right hr.stands hi
    right
    obtain ⟨n, ns, hnodes⟩ := List.exists_cons_of_ne_nil (List.ne_nil_of_mem g.instr_mem)
    have hstart : g.start = n.addr := by rw [Group.start, hnodes]; rfl
    have hmem : n ∈ s'.m_IL := by
      rw [hr.list_eq]
      refine List.mem_append_right _ (List.mem_flatMap.mpr ⟨g, hg, ?_⟩)
      rw [hnodes]
      exact List.mem_cons_self
    rw [← hstands.start, hstart]
    exact List.mem_map_of_mem hmem
  · exact Or.inl (if_pos rfl)

theorem length_eq : gs.length = is.length := hr.groups.length_eq

/-- The instruction of a group. -/
theorem getElem?_group {i : RawInstr} {k : ℕ} (hi : is[k]? = some i) :
    ∃ g, gs[k]? = some g ∧ Stands (targetOf is body.code.size) i g := by
  obtain ⟨hlt, rfl⟩ := List.getElem?_eq_some_iff.mp hi
  have hlt' : k < gs.length := hr.length_eq ▸ hlt
  exact ⟨gs[k], List.getElem?_eq_getElem hlt', List.Forall₂.get hr.stands hlt hlt'⟩

theorem getElem?_instr {g : Group} {k : ℕ} (hg : gs[k]? = some g) : ∃ i, is[k]? = some i := by
  obtain ⟨hlt, -⟩ := List.getElem?_eq_some_iff.mp hg
  have hlt' : k < is.length := hr.length_eq ▸ hlt
  exact ⟨is[k], List.getElem?_eq_getElem hlt'⟩

/-- The group of an instruction with its annotation. -/
theorem groupOf {pre post : List RawInstr} {i : RawInstr} (his : is = pre ++ i :: post) :
    ∃ g, is[pre.length]? = some i ∧ gs[pre.length]? = some g
      ∧ GroupOf covProb methodId (targetOf is body.code.size) (annotate
        (ILRewriter.leaveMethod isMain) body.eh (branchTargets is) pre i post) i g := by
  obtain ⟨gs₁, g, gs₂, rfl, hlength, hgroup, -⟩ := hr.groups.split his
  refine ⟨g, ?_, ?_, hgroup⟩
  · rw [his, List.getElem?_append_right (le_refl _), Nat.sub_self]
    rfl
  · rw [← hlength, List.getElem?_append_right (le_refl _), Nat.sub_self]
    rfl

theorem groupOf_getElem? {i : RawInstr} {g : Group} {k : ℕ} (hi : is[k]? = some i)
    (hg : gs[k]? = some g) : is = is.take k ++ i :: is.drop (k + 1)
      ∧ GroupOf covProb methodId (targetOf is body.code.size) (annotate
        (ILRewriter.leaveMethod isMain) body.eh (branchTargets is) (is.take k) i (is.drop (k + 1)))
        i g := by
  have his : is = is.take k ++ i :: is.drop (k + 1) := by
    rw [← drop_of_getElem? hi, List.take_append_drop]
  obtain ⟨hlt, -⟩ := List.getElem?_eq_some_iff.mp hi
  obtain ⟨g', -, hg', hgroup⟩ := hr.groupOf his
  rw [List.length_take_of_le (le_of_lt hlt)] at hg'
  obtain rfl := Option.some.inj (hg.symm.trans hg')
  exact ⟨his, hgroup⟩

theorem list_split (k : ℕ) :
    s'.m_IL = frontNodes enter gs k ++ (gs.drop k).flatMap Group.nodes := by
  have hsplit : gs = gs.take k ++ gs.drop k := (List.take_append_drop _ _).symm
  rw [hr.list_eq, frontNodes, List.append_assoc, ← List.flatMap_append, ← hsplit]

/-- A boundary is resolved to the node behind those in front of it. -/
theorem targetOf_boundary {k : ℕ} (hk : k ≤ is.length) :
    targetOf is body.code.size (boundaryAt is body.code.size k)
      = headAddr ILInstr.addr pIL ((gs.drop k).flatMap Group.nodes) := by
  rcases Nat.lt_or_eq_of_le hk with hlt | rfl
  · have hi := List.getElem?_eq_getElem hlt
    obtain ⟨g, hg, hstands⟩ := hr.getElem?_group hi
    obtain ⟨n, ns, hnodes⟩ := List.exists_cons_of_ne_nil (List.ne_nil_of_mem g.instr_mem)
    rw [boundaryAt_of_getElem? hi, ← hstands.start, Group.start, drop_of_getElem? hg,
      List.flatMap_cons, hnodes]
    rfl
  · rw [boundaryAt_length, targetOf, if_pos rfl, ← hr.length_eq, List.drop_length]
    rfl

variable (h : ValidBody body is)

include h

/-- Every node has bytes. -/
theorem sized {n : ILInstr} (hn : n ∈ s'.m_IL) : 0 < n.byteSize := by
  have hsmall : n.m_opcode < ceeCount → 0 < n.byteSize := by
    intro hlt
    have hpos := opcodeSize_pos n.m_opcode
    rw [ILInstr.byteSize, if_pos hlt]
    omega
  rcases hr.node_cases hn with hinserted | ⟨i, hi, g, -, hstands, rfl | hslot⟩
  · exact hsmall hinserted.lt.1
  · exact hsmall (hstands.operation.opcode ▸ h.decoded.opcode_lt hi)
  · rw [byteSize_slot (hstands.slot_eq hslot).1]
    decide

theorem targetsInList : TargetsInList s'.m_IL := by
  intro n hn hbranch
  rcases hr.node_cases hn with hinserted | ⟨i, hi, g, -, hstands, rfl | hslot⟩
  · rw [hinserted.lt.2] at hbranch
    cases hbranch
  · rw [hstands.operation.opcode] at hbranch
    rw [hstands.operation.target hbranch]
    refine hr.nodeOrEnd (h.targets i hi _ ?_)
    rw [hasTarget_targets (h.decoded.opcode_lt hi) hbranch]
    exact List.mem_cons_self
  · obtain ⟨-, o, ho, htarget⟩ := hstands.slot_eq hslot
    rw [htarget]
    have hslots : i.slots ≠ [] := by
      rintro hnil
      rw [RawInstr.slotTargets, hnil] at ho
      exact absurd ho List.not_mem_nil
    refine hr.nodeOrEnd (h.targets i hi o ?_)
    rw [RawInstr.targets, h.decoded.slots_switch hi hslots]
    exact ho

end RewrittenBody

end TestExecutor
