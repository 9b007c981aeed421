import TestExecutor.Library.LinkedRings
import TestExecutor.Rewriter.BufferContents

/-!
# The instruction list in memory

The nodes of the rewriter with their links as they are, for users that call `NewILInstr`,
`InsertBefore` and `InsertAfter` in any order and on any nodes.

* `NodeHeap` — the nodes, by their addresses; `NodeHeap.ofRewriter` — those of a list;
* `newILInstr`, `insertBefore`, `insertAfter` — the operations, link by link;
* `HeapEdit`, `NodeHeap.edits` — any sequence of them, with changes of opcodes and operands;
* `IsList`, `isList_unique` — the nodes that `Export` goes over;
* `Represents`, `insertBefore_represents`, `insertAfter_represents` — on a list the operations put
  a new node where the list model puts it;
* `Closed`, `Closed.length_le` — links never leave the nodes that were created, so that no list is
  longer than `m_nInstrs`;
* `export_inBuffer` — and `Export` stays inside its buffer.
-/

namespace TestExecutor

open TestExecutor.Library

/-- The nodes of a rewriter; each has its own address. -/
structure NodeHeap where
  m_pNext : ℕ → ℕ
  m_pPrev : ℕ → ℕ
  node : ℕ → ILInstr
  -- the address of the next node
  fresh : ℕ
  m_nInstrs : ℕ
  m_maxStack : ℕ
  addr_node : ∀ p, (node p).addr = p

namespace NodeHeap

/-! ### The operations -/

/-- A change of what a node holds. -/
def setNode (h : NodeHeap) (p : ℕ) (i : ILInstr) : NodeHeap :=
  { h with
    node := Function.update h.node p { i with addr := p }
    addr_node := by
      intro q
      by_cases hq : q = p
      · rw [hq, Function.update_self]
      · rw [Function.update_of_ne hq, h.addr_node] }

/-- `NewILInstr`: all fields of the new node are zero. -/
def newILInstr (h : NodeHeap) : NodeHeap :=
  { h.setNode h.fresh ⟨h.fresh, 0, 0, 0⟩ with
    m_pNext := Function.update h.m_pNext h.fresh nullPtr
    m_pPrev := Function.update h.m_pPrev h.fresh nullPtr
    fresh := h.fresh + 1
    m_nInstrs := h.m_nInstrs + 1 }

def adjustState (h : NodeHeap) (pNewInstr : ℕ) : NodeHeap :=
  { h with m_maxStack := (h.m_maxStack + rgnStackPushes (h.node pNewInstr).m_opcode) % 2 ^ 32 }

/-- A pointer to a node that was created. -/
def IsNode (h : NodeHeap) (p : ℕ) : Prop := pIL < p ∧ p < h.fresh

/-- A pointer that can be followed: to a node, or to the sentinel. -/
def Valid (h : NodeHeap) (p : ℕ) : Prop := pIL ≤ p ∧ p < h.fresh

instance (h : NodeHeap) (p : ℕ) : Decidable (h.IsNode p) := inferInstanceAs (Decidable (_ ∧ _))

instance (h : NodeHeap) (p : ℕ) : Decidable (h.Valid p) := inferInstanceAs (Decidable (_ ∧ _))

/-- `InsertBefore`, which follows `pWhere` and then what is in front of it. -/
def insertBefore (h : NodeHeap) (pWhere pWhat : ℕ) : Except RewriteError NodeHeap :=
  if ¬h.Valid pWhere ∨ ¬h.IsNode pWhat then .error .nullDereference
  else
    let m_pNext := Function.update h.m_pNext pWhat pWhere
    let m_pPrev := Function.update h.m_pPrev pWhat (h.m_pPrev pWhere)
    let m_pPrev := Function.update m_pPrev (m_pNext pWhat) pWhat
    if m_pPrev pWhat = nullPtr then .error .nullDereference
    else
      let m_pNext := Function.update m_pNext (m_pPrev pWhat) pWhat
      .ok ({ h with m_pNext, m_pPrev }.adjustState pWhat)

/-- `InsertAfter`, which follows `pWhere` and then what is behind it. -/
def insertAfter (h : NodeHeap) (pWhere pWhat : ℕ) : Except RewriteError NodeHeap :=
  if ¬h.Valid pWhere ∨ ¬h.IsNode pWhat then .error .nullDereference
  else
    let m_pNext := Function.update h.m_pNext pWhat (h.m_pNext pWhere)
    let m_pPrev := Function.update h.m_pPrev pWhat pWhere
    if m_pNext pWhat = nullPtr then .error .nullDereference
    else
      let m_pPrev := Function.update m_pPrev (m_pNext pWhat) pWhat
      let m_pNext := Function.update m_pNext (m_pPrev pWhat) pWhat
      .ok ({ h with m_pNext, m_pPrev }.adjustState pWhat)

end NodeHeap

/-- What a user of the rewriter does to the nodes; opcodes stay within the table. -/
inductive HeapEdit where
  | newILInstr
  | insertBefore (pWhere pWhat : ℕ)
  | insertAfter (pWhere pWhat : ℕ)
  | setOpcode (pInstr : ℕ) (opcode : Fin (ceeSwitchArg + 1))
  | setArg (pInstr arg : ℕ)
  deriving DecidableEq

namespace NodeHeap

def edit (h : NodeHeap) : HeapEdit → Except RewriteError NodeHeap
  | .newILInstr => .ok h.newILInstr
  | .insertBefore pWhere pWhat => h.insertBefore pWhere pWhat
  | .insertAfter pWhere pWhat => h.insertAfter pWhere pWhat
  | .setOpcode pInstr opcode =>
      if ¬h.IsNode pInstr then .error .nullDereference
      else .ok (h.setNode pInstr { h.node pInstr with m_opcode := opcode })
  | .setArg pInstr arg =>
      if ¬h.IsNode pInstr then .error .nullDereference
      else .ok (h.setNode pInstr { h.node pInstr with m_Arg64 := arg })

def edits (h : NodeHeap) (es : List HeapEdit) : Except RewriteError NodeHeap := es.foldlM edit h

/-- The nodes of a list, by their addresses. -/
def ofRewriter (s : ILRewriter) : NodeHeap where
  m_pNext := s.m_pNext
  m_pPrev := s.m_pPrev
  node p := { (s.node p).getD ⟨p, 0, 0, 0⟩ with addr := p }
  fresh := s.fresh
  m_nInstrs := s.m_nInstrs
  m_maxStack := s.m_maxStack
  addr_node _ := rfl

/-- `m_nInstrs * 10`, an `unsigned`. -/
def maxSize (h : NodeHeap) : ℕ := h.m_nInstrs * 10 % 2 ^ 32

/-! ### Lists -/

/-- The addresses that the loops of `Export` go over: they end at the sentinel, and no link on the
way is null. -/
structure IsList (h : NodeHeap) (l : List ℕ) : Prop where
  path : LinkPath h.m_pNext pIL pIL l
  null_notMem : nullPtr ∉ l

theorem isList_unique {h : NodeHeap} {l l' : List ℕ} (hl : h.IsList l) (hl' : h.IsList l') :
    l = l' := hl.path.unique hl'.path

/-- The links in one direction are null or can be followed. -/
def LinksClosed (h : NodeHeap) (link : ℕ → ℕ) : Prop :=
  ∀ p, h.Valid p → link p = nullPtr ∨ h.Valid (link p)

/-- Links never leave the nodes that were created, and these are counted. -/
structure Closed (h : NodeHeap) : Prop where
  next : h.LinksClosed h.m_pNext
  prev : h.LinksClosed h.m_pPrev
  counted : h.fresh = h.m_nInstrs + (pIL + 1)

variable {h : NodeHeap}

theorem Closed.valid_pIL (hc : h.Closed) : h.Valid pIL := by
  have := hc.counted
  exact ⟨le_refl _, by omega⟩

/-- **No list is longer** than the number of nodes that were created. -/
theorem Closed.length_le (hc : h.Closed) {l : List ℕ} (hl : h.IsList l) :
    l.length ≤ h.m_nInstrs := by
  have hvalid : ∀ a ∈ l, h.Valid a := by
    refine hl.path.forall_mem hc.valid_pIL fun a ha hmem => ?_
    rcases hc.next a ha with hnull | hnext
    · exact absurd (hnull ▸ hmem) hl.null_notMem
    · exact hnext
  have hsubset : l ⊆ List.range' (pIL + 1) h.m_nInstrs := by
    intro a ha
    obtain ⟨hle, hlt⟩ := hvalid a ha
    have hne : a ≠ pIL := fun heq => hl.path.sentinel_notMem (heq ▸ ha)
    have := hc.counted
    exact List.mem_range'_1.mpr ⟨by omega, by omega⟩
  have hsubperm := List.subperm_of_subset hl.path.nodup hsubset
  simpa using hsubperm.length_le

/-! ### What the operations keep -/

theorem LinksClosed.update {link : ℕ → ℕ} {p q : ℕ} (hlink : h.LinksClosed link)
    (hq : q = nullPtr ∨ h.Valid q) : h.LinksClosed (Function.update link p q) := by
  intro p' hp'
  by_cases heq : p' = p
  · rw [heq, Function.update_self]
    exact hq
  · rw [Function.update_of_ne heq]
    exact hlink p' hp'

theorem IsNode.valid {p : ℕ} (hp : h.IsNode p) : h.Valid p := ⟨le_of_lt hp.1, hp.2⟩

theorem Closed.newILInstr (hc : h.Closed) : h.newILInstr.Closed := by
  have hgrown : ∀ link, h.LinksClosed link →
      h.newILInstr.LinksClosed (Function.update link h.fresh nullPtr) := by
    intro link hlink p hp
    by_cases heq : p = h.fresh
    · rw [heq, Function.update_self]
      exact Or.inl rfl
    · rw [Function.update_of_ne heq]
      have hlt : p < h.fresh + 1 := hp.2
      rcases hlink p ⟨hp.1, by omega⟩ with hnull | hvalid
      · exact Or.inl hnull
      · exact Or.inr ⟨hvalid.1, Nat.lt_succ_of_lt hvalid.2⟩
  refine ⟨hgrown _ hc.next, hgrown _ hc.prev, ?_⟩
  show h.fresh + 1 = h.m_nInstrs + 1 + (pIL + 1)
  rw [hc.counted]
  omega

theorem Closed.insertBefore (hc : h.Closed) {h' : NodeHeap} {pWhere pWhat : ℕ}
    (hrun : h.insertBefore pWhere pWhat = .ok h') : h'.Closed := by
  unfold NodeHeap.insertBefore at hrun
  split at hrun
  · cases hrun
  · rename_i hvalid
    obtain ⟨hwhere, hwhat⟩ := not_or.mp hvalid
    rw [not_not] at hwhere hwhat
    dsimp only at hrun
    split at hrun
    · cases hrun
    · cases hrun
      exact ⟨(hc.next.update (Or.inr hwhere)).update (Or.inr hwhat.valid),
        (hc.prev.update (hc.prev _ hwhere)).update (Or.inr hwhat.valid), hc.counted⟩

theorem Closed.insertAfter (hc : h.Closed) {h' : NodeHeap} {pWhere pWhat : ℕ}
    (hrun : h.insertAfter pWhere pWhat = .ok h') : h'.Closed := by
  unfold NodeHeap.insertAfter at hrun
  split at hrun
  · cases hrun
  · rename_i hvalid
    obtain ⟨hwhere, hwhat⟩ := not_or.mp hvalid
    rw [not_not] at hwhere hwhat
    dsimp only at hrun
    split at hrun
    · cases hrun
    · cases hrun
      exact ⟨(hc.next.update (hc.next _ hwhere)).update (Or.inr hwhat.valid),
        (hc.prev.update (Or.inr hwhere)).update (Or.inr hwhat.valid), hc.counted⟩

/-- **Step lemma**: every operation keeps the links closed. -/
theorem Closed.edit (hc : h.Closed) {h' : NodeHeap} {e : HeapEdit} (hrun : h.edit e = .ok h') :
    h'.Closed := by
  cases e with
  | newILInstr =>
      cases hrun
      exact hc.newILInstr
  | insertBefore pWhere pWhat => exact hc.insertBefore hrun
  | insertAfter pWhere pWhat => exact hc.insertAfter hrun
  | setOpcode pInstr opcode =>
      rw [NodeHeap.edit] at hrun
      split at hrun
      · cases hrun
      · cases hrun
        exact ⟨hc.next, hc.prev, hc.counted⟩
  | setArg pInstr arg =>
      rw [NodeHeap.edit] at hrun
      split at hrun
      · cases hrun
      · cases hrun
        exact ⟨hc.next, hc.prev, hc.counted⟩

/-- **Run lemma**: so does every sequence of them. -/
theorem Closed.edits (hc : h.Closed) {h' : NodeHeap} {es : List HeapEdit}
    (hrun : h.edits es = .ok h') : h'.Closed := by
  induction es generalizing h with
  | nil =>
      cases hrun
      exact hc
  | cons e es ih =>
      rw [NodeHeap.edits, List.foldlM_cons] at hrun
      cases hedit : h.edit e with
      | error err => rw [hedit] at hrun; cases hrun
      | ok h₁ =>
          rw [hedit] at hrun
          exact ih (hc.edit hedit) hrun

/-! ### Imported lists -/

/-- The nodes of a list are closed when they are counted. -/
theorem ofRewriter_closed {s : ILRewriter} (hs : s.Linked)
    (hcounted : s.fresh = s.m_nInstrs + (pIL + 1)) : (ofRewriter s).Closed := by
  have hvalid : ∀ p, p = pIL ∨ p ∈ s.m_IL.map ILInstr.addr → (ofRewriter s).Valid p := by
    intro p hp
    rcases hp with rfl | hp
    · exact ⟨le_refl _, hs.sentinel_lt⟩
    · obtain ⟨i, hi, rfl⟩ := List.mem_map.mp hp
      exact ⟨le_of_lt (hs.allocated i hi).1, (hs.allocated i hi).2⟩
  refine ⟨fun p _ => Or.inr (hvalid _ ?_), fun p _ => Or.inr (hvalid _ (prevAddr_mem _)),
    hcounted⟩
  show ILRewriter.m_pNext s p = pIL ∨ ILRewriter.m_pNext s p ∈ _
  rw [ILRewriter.m_pNext]
  split
  · rw [ILRewriter.first]
    cases s.m_IL with
    | nil => exact Or.inl rfl
    | cons i is => exact Or.inr List.mem_cons_self
  · exact nextAddr_mem _

/-! ### Lists in memory -/

/-- The nodes of a list, linked in both directions. -/
structure Represents (h : NodeHeap) (il : List ILInstr) : Prop where
  ring : LinkRing h.m_pNext h.m_pPrev pIL (il.map ILInstr.addr)
  nodes : ∀ i ∈ il, h.node i.addr = i
  allocated : ∀ i ∈ il, h.IsNode i.addr

theorem Represents.isList {il : List ILInstr} (hr : h.Represents il) :
    h.IsList (il.map ILInstr.addr) := by
  refine ⟨hr.ring.path, fun hnull => ?_⟩
  obtain ⟨i, hi, haddr⟩ := List.mem_map.mp hnull
  have hlt := (hr.allocated i hi).1
  rw [haddr] at hlt
  exact absurd hlt (by decide)

/-- A new node between the two parts of a list. -/
theorem Represents.spliced {pre post : List ILInstr} {before behind : List ℕ} {u v x : ℕ}
    {h' : NodeHeap} (hr : h.Represents (pre ++ post)) (hx : h.IsNode x)
    (hnew : x ∉ (pre ++ post).map ILInstr.addr) (hu : pIL :: pre.map ILInstr.addr = before ++ [u])
    (hv : post.map ILInstr.addr ++ [pIL] = v :: behind)
    (hnext : h'.m_pNext = Function.update (Function.update h.m_pNext x v) u x)
    (hprev : h'.m_pPrev = Function.update (Function.update h.m_pPrev x u) v x)
    (hnode : h'.node = h.node) (hfresh : h'.fresh = h.fresh) :
    h'.Represents (pre ++ h.node x :: post) := by
  have hring := hr.ring
  have hmem : ∀ i, i ∈ pre ++ h.node x :: post → i = h.node x ∨ i ∈ pre ++ post := by
    intro i hi
    simpa [or_left_comm] using hi
  constructor
  · rw [List.map_append] at hring
    have hlinked := hring.link (x := x) ?_ hu hv
    · rw [hnext, hprev, List.map_append, List.map_cons, h.addr_node]
      exact hlinked
    · rw [← List.map_append]
      intro hxmem
      rcases List.mem_cons.mp hxmem with heq | hxmem
      · exact absurd hx.1 (heq ▸ lt_irrefl x)
      · exact hnew hxmem
  · intro i hi
    rw [hnode]
    rcases hmem i hi with rfl | hi
    · rw [h.addr_node]
    · exact hr.nodes i hi
  · intro i hi
    unfold IsNode
    rw [hfresh]
    rcases hmem i hi with rfl | hi
    · rw [h.addr_node]
      exact hx
    · exact hr.allocated i hi

theorem Represents.valid {il : List ILInstr} (hr : h.Represents il) (hpIL : pIL < h.fresh) {p : ℕ}
    (hp : p ∈ pIL :: il.map ILInstr.addr) : h.Valid p := by
  rcases List.mem_cons.mp hp with rfl | hp
  · exact ⟨le_refl _, hpIL⟩
  · obtain ⟨i, hi, rfl⟩ := List.mem_map.mp hp
    exact (hr.allocated i hi).valid

theorem Valid.ne_null {p : ℕ} (hp : h.Valid p) : p ≠ nullPtr := by
  intro hnull
  rw [hnull] at hp
  exact absurd hp.1 (by decide)

section Spliced

variable {pre post : List ILInstr} {before behind : List ℕ} {u v pWhat : ℕ}
  (hr : h.Represents (pre ++ post)) (hwhat : h.IsNode pWhat)
  (hnew : pWhat ∉ (pre ++ post).map ILInstr.addr)
  (hu : pIL :: pre.map ILInstr.addr = before ++ [u])
  (hv : post.map ILInstr.addr ++ [pIL] = v :: behind)

include hr hwhat hnew hu hv

theorem neighbours_of_split : Neighbours h.m_pNext h.m_pPrev u v ∧ h.Valid u ∧ h.Valid v
    ∧ pWhat ≠ u ∧ pWhat ≠ v := by
  have hpIL : pIL < h.fresh := hwhat.1.trans hwhat.2
  have hring := hr.ring
  have humem : u ∈ pIL :: (pre ++ post).map ILInstr.addr := by
    have hmem : u ∈ pIL :: pre.map ILInstr.addr := hu ▸ List.mem_append_right _ List.mem_cons_self
    rw [List.map_append, ← List.cons_append]
    exact List.mem_append_left _ hmem
  have hvmem : v ∈ pIL :: (pre ++ post).map ILInstr.addr := by
    have hmem : v ∈ post.map ILInstr.addr ++ [pIL] := hv ▸ List.mem_cons_self
    rw [List.map_append]
    rcases List.mem_append.mp hmem with hmem | hmem
    · exact List.mem_cons_of_mem _ (List.mem_append_right _ hmem)
    · exact List.mem_singleton.mp hmem ▸ List.mem_cons_self
  have hne : ∀ p ∈ pIL :: (pre ++ post).map ILInstr.addr, pWhat ≠ p := by
    intro p hp heq
    rcases List.mem_cons.mp hp with rfl | hp
    · exact absurd hwhat.1 (heq ▸ lt_irrefl _)
    · exact hnew (heq ▸ hp)
  rw [List.map_append] at hring
  exact ⟨hring.neighbours hu hv, hr.valid hpIL humem, hr.valid hpIL hvmem, hne u humem, hne v hvmem⟩

theorem insertBefore_split : ∃ h', h.insertBefore v pWhat = .ok h' ∧ h'.m_nInstrs = h.m_nInstrs
    ∧ h'.Represents (pre ++ h.node pWhat :: post) := by
  obtain ⟨hlinked, hvalidu, hvalidv, hneu, hnev⟩ := neighbours_of_split hr hwhat hnew hu hv
  have hprev : Function.update (Function.update h.m_pPrev pWhat u) v pWhat pWhat = u := by
    rw [Function.update_of_ne hnev, Function.update_self]
  have hrun : h.insertBefore v pWhat = .ok ({ h with
      m_pNext := Function.update (Function.update h.m_pNext pWhat v) u pWhat
      m_pPrev := Function.update (Function.update h.m_pPrev pWhat u) v pWhat }.adjustState
        pWhat) := by
    unfold insertBefore
    rw [if_neg (not_or.mpr ⟨not_not.mpr hvalidv, not_not.mpr hwhat⟩)]
    dsimp only
    simp only [Function.update_self, hlinked.2, hprev, if_neg hvalidu.ne_null]
  exact ⟨_, hrun, rfl, hr.spliced hwhat hnew hu hv rfl rfl rfl rfl⟩

theorem insertAfter_split : ∃ h', h.insertAfter u pWhat = .ok h' ∧ h'.m_nInstrs = h.m_nInstrs
    ∧ h'.Represents (pre ++ h.node pWhat :: post) := by
  obtain ⟨hlinked, hvalidu, hvalidv, hneu, hnev⟩ := neighbours_of_split hr hwhat hnew hu hv
  have hprev : Function.update (Function.update h.m_pPrev pWhat u) v pWhat pWhat = u := by
    rw [Function.update_of_ne hnev, Function.update_self]
  have hrun : h.insertAfter u pWhat = .ok ({ h with
      m_pNext := Function.update (Function.update h.m_pNext pWhat v) u pWhat
      m_pPrev := Function.update (Function.update h.m_pPrev pWhat u) v pWhat }.adjustState
        pWhat) := by
    unfold insertAfter
    rw [if_neg (not_or.mpr ⟨not_not.mpr hvalidu, not_not.mpr hwhat⟩)]
    dsimp only
    simp only [Function.update_self, hlinked.1, if_neg hvalidv.ne_null, hprev]
  exact ⟨_, hrun, rfl, hr.spliced hwhat hnew hu hv rfl rfl rfl rfl⟩

end Spliced

/-- **`NewILInstr`** leaves the list alone. -/
theorem newILInstr_represents {il : List ILInstr} (hr : h.Represents il) (hpIL : pIL < h.fresh) :
    h.newILInstr.Represents il := by
  have hfresh : ∀ i ∈ il, i.addr ≠ h.fresh := fun i hi => Nat.ne_of_lt (hr.allocated i hi).2
  refine ⟨hr.ring.update fun hmem => ?_, fun i hi => ?_, fun i hi => ?_⟩
  · rcases List.mem_cons.mp hmem with heq | hmem
    · exact absurd hpIL (heq ▸ lt_irrefl _)
    · obtain ⟨i, hi, haddr⟩ := List.mem_map.mp hmem
      exact hfresh i hi haddr
  · show Function.update h.node h.fresh _ i.addr = i
    rw [Function.update_of_ne (hfresh i hi), hr.nodes i hi]
  · exact ⟨(hr.allocated i hi).1, Nat.lt_succ_of_lt (hr.allocated i hi).2⟩

/-- The last node of a list, or the sentinel in front of it. -/
theorem exists_last (p : ℕ) (l : List ℕ) : ∃ before u, p :: l = before ++ [u] :=
  ⟨_, _, (List.dropLast_append_getLast (List.cons_ne_nil p l)).symm⟩

/-- **`InsertBefore`** of a node that is not in the list puts it where the list model does. -/
theorem insertBefore_represents {il : List ILInstr} {pWhere pWhat : ℕ} (hr : h.Represents il)
    (hwhat : h.IsNode pWhat) (hnew : pWhat ∉ il.map ILInstr.addr)
    (hwhere : pWhere = pIL ∨ pWhere ∈ il.map ILInstr.addr) :
    ∃ h', h.insertBefore pWhere pWhat = .ok h' ∧ h'.m_nInstrs = h.m_nInstrs
      ∧ h'.Represents (spliceBefore ILInstr.addr pWhere (h.node pWhat) il) := by
  by_cases hmem : pWhere ∈ il.map ILInstr.addr
  · obtain ⟨pre, w, post, rfl, rfl, hpre⟩ := exists_split hmem
    obtain ⟨before, u, hu⟩ := exists_last pIL (pre.map ILInstr.addr)
    rw [spliceBefore_split rfl hpre]
    exact insertBefore_split hr hwhat hnew hu rfl
  · obtain rfl := hwhere.resolve_right hmem
    obtain ⟨before, u, hu⟩ := exists_last pIL (il.map ILInstr.addr)
    rw [spliceBefore_of_notMem hmem]
    rw [← List.append_nil il] at hr hnew
    exact insertBefore_split hr hwhat hnew hu rfl

/-- **`InsertAfter`**, likewise. -/
theorem insertAfter_represents {il : List ILInstr} {pWhere pWhat : ℕ} (hr : h.Represents il)
    (hwhat : h.IsNode pWhat) (hnew : pWhat ∉ il.map ILInstr.addr)
    (hwhere : pWhere = pIL ∨ pWhere ∈ il.map ILInstr.addr) :
    ∃ h', h.insertAfter pWhere pWhat = .ok h' ∧ h'.m_nInstrs = h.m_nInstrs
      ∧ h'.Represents (if pWhere = pIL then h.node pWhat :: il
        else spliceAfter ILInstr.addr pWhere (h.node pWhat) il) := by
  have hhead : ∀ post : List ILInstr, ∃ v behind, post.map ILInstr.addr ++ [pIL] = v :: behind := by
    intro post
    cases post with
    | nil => exact ⟨_, _, rfl⟩
    | cons i is => exact ⟨_, _, rfl⟩
  by_cases hpIL : pWhere = pIL
  · obtain ⟨v, behind, hv⟩ := hhead il
    have hu : pIL :: ([] : List ILInstr).map ILInstr.addr = [] ++ [pIL] := rfl
    rw [if_pos hpIL, hpIL]
    rw [← List.nil_append il] at hr hnew
    exact insertAfter_split hr hwhat hnew hu hv
  · obtain ⟨pre, w, post, rfl, rfl, hpre⟩ := exists_split (hwhere.resolve_left hpIL)
    obtain ⟨v, behind, hv⟩ := hhead post
    have hsplit : pre ++ w :: post = (pre ++ [w]) ++ post := by rw [List.append_assoc]; rfl
    rw [if_neg hpIL, spliceAfter_split rfl hpre]
    rw [hsplit] at hr hnew
    have hu : pIL :: (pre ++ [w]).map ILInstr.addr = (pIL :: pre.map ILInstr.addr) ++ [w.addr] := by
      rw [List.map_append]
      rfl
    have hinserted := insertAfter_split hr hwhat hnew hu hv
    rwa [List.append_assoc] at hinserted

theorem headAddr_of_split {il : List ILInstr} {a : ℕ} {l : List ℕ}
    (h : il.map ILInstr.addr ++ [pIL] = a :: l) : headAddr ILInstr.addr pIL il = a := by
  cases il with
  | nil => exact (List.cons.inj h).1
  | cons i is => exact (List.cons.inj h).1

theorem addr_notMem_of_split {s : ILRewriter} (hs : s.Linked) {pre post : List ILInstr}
    {i : ILInstr} (hIL : s.m_IL = pre ++ i :: post) : i.addr ∉ pre.map ILInstr.addr := by
  intro hmem
  have hnodup := hs.nodup
  rw [hIL, List.map_append, List.map_cons] at hnodup
  exact (List.nodup_append.mp hnodup).2.2 _ hmem _ List.mem_cons_self rfl

/-- Two nodes of a list that follow one another, or the last one and the sentinel. -/
theorem ofRewriter_neighbours {s : ILRewriter} (hs : s.Linked) {pre post : List ILInstr}
    {i : ILInstr} (hIL : s.m_IL = pre ++ i :: post) :
    Neighbours s.m_pNext s.m_pPrev i.addr (headAddr ILInstr.addr pIL post) := by
  have hne : i.addr ≠ pIL := Nat.ne_of_gt (hs.allocated i (by rw [hIL]; simp)).1
  constructor
  · rw [ILRewriter.m_pNext, if_neg hne, hIL, nextAddr_split rfl (addr_notMem_of_split hs hIL)]
  · have hsplit : pre ++ i :: post = (pre ++ [i]) ++ post := by rw [List.append_assoc]; rfl
    rw [ILRewriter.m_pPrev]
    cases post with
    | nil => rw [headAddr, prevAddr_of_notMem hs.pIL_notMem, hIL, lastAddr_concat]
    | cons j post =>
        rw [hsplit] at hIL
        rw [headAddr, hIL, prevAddr_split rfl (addr_notMem_of_split hs hIL), lastAddr_concat]

/-- The nodes of a list of the rewriter. -/
theorem ofRewriter_represents {s : ILRewriter} (hs : s.Linked) :
    (ofRewriter s).Represents s.m_IL := by
  refine ⟨⟨?_, List.nodup_cons.mpr ⟨hs.pIL_notMem, hs.nodup⟩⟩, fun i hi => ?_, hs.allocated⟩
  · refine List.isChain_iff_forall_rel_of_append_cons_cons.mpr fun a b l₁ l₂ hsplit => ?_
    cases l₁ with
    | nil =>
        obtain rfl : pIL = a := (List.cons.inj hsplit).1
        have htail : s.m_IL.map ILInstr.addr ++ [pIL] = b :: l₂ := (List.cons.inj hsplit).2
        constructor
        · show ILRewriter.m_pNext s pIL = b
          rw [ILRewriter.m_pNext, if_pos rfl, ILRewriter.first]
          exact headAddr_of_split htail
        · show ILRewriter.m_pPrev s b = pIL
          rw [← headAddr_of_split htail, ILRewriter.m_pPrev]
          cases s.m_IL with
          | nil => rfl
          | cons i is => exact if_pos rfl
    | cons c l₁ =>
        have htail : s.m_IL.map ILInstr.addr ++ [pIL] = l₁ ++ a :: b :: l₂ :=
          (List.cons.inj hsplit).2
        obtain ⟨rest, last, hlast⟩ := exists_last b l₂
        rw [hlast, ← List.cons_append, ← List.append_assoc] at htail
        obtain ⟨haddrs, hend⟩ := List.append_inj' htail rfl
        obtain ⟨pre, suffix, hIL, -, hsuffix⟩ := List.map_eq_append_iff.mp haddrs
        obtain ⟨i, post, rfl, rfl, rfl⟩ := List.map_eq_cons_iff.mp hsuffix
        rw [← headAddr_of_split (hlast.trans (by rw [hend])).symm]
        exact ofRewriter_neighbours hs hIL
  · obtain ⟨pre, post, hIL⟩ := List.append_of_mem hi
    show { (findNode ILInstr.addr i.addr s.m_IL).getD ⟨i.addr, 0, 0, 0⟩ with addr := i.addr } = i
    rw [hIL, findNode_split rfl (addr_notMem_of_split hs hIL)]
    rfl

end NodeHeap

/-! ### Export -/

/-- `ImportIL` counts its nodes. -/
theorem importIL_counted {s₀ s : ILRewriter} {code : IlCode}
    (hcounted : s₀.fresh = s₀.m_nInstrs + (pIL + 1)) (h : s₀.importIL code = .ok s) :
    s.fresh = s.m_nInstrs + (pIL + 1) := by
  have happend : ∀ (targets : List ℕ) (s' : ILRewriter), s'.fresh = s'.m_nInstrs + (pIL + 1) →
      (targets.foldl (fun s target => s.appendNode ceeSwitchArg target) s').fresh
        = (targets.foldl (fun s target => s.appendNode ceeSwitchArg target) s').m_nInstrs
          + (pIL + 1) := by
    intro targets
    induction targets with
    | nil => exact fun s' hs' => hs'
    | cons target targets ih =>
        intro s' hs'
        refine ih _ ?_
        show s'.fresh + 1 = s'.m_nInstrs + 1 + (pIL + 1)
        omega
  have hinstrs : ∀ (is : List RawInstr) (s' : ILRewriter), s'.fresh = s'.m_nInstrs + (pIL + 1) →
      (is.foldl ILRewriter.importInstr s').fresh
        = (is.foldl ILRewriter.importInstr s').m_nInstrs + (pIL + 1) := by
    intro is
    induction is with
    | nil => exact fun s' hs' => hs'
    | cons i is ih =>
        intro s' hs'
        refine ih _ (happend _ _ ?_)
        show s'.fresh + 1 = s'.m_nInstrs + 1 + (pIL + 1)
        omega
  rw [ILRewriter.importIL_eq] at h
  cases hdecode : decodeAll code code.size 0 with
  | error e => rw [hdecode] at h; cases h
  | ok is =>
      rw [hdecode] at h
      cases h
      exact hinstrs is _ hcounted

/-- **Export stays inside its buffer**: whatever a user has done to the nodes of an imported body,
if they are a list, no round stores behind the buffer, and every patch stays in the operand of its
own node.  `outside` is what following a pointer reads that leads out of the list. -/
theorem export_inBuffer {code : IlCode} (sig maxStack flags : ℕ) {s : ILRewriter} {h : NodeHeap}
    {es : List HeapEdit} {l : List ℕ} (himport : ILRewriter.importIL { ILRewriter.new with
      m_tkLocalVarSig := sig
      m_maxStack := maxStack
      m_flags := flags } code = .ok s)
    (hedits : (NodeHeap.ofRewriter s).edits es = .ok h) (hlist : h.IsList l)
    (hbuffer : 10 * h.m_nInstrs < 2 ^ 32) (outside : ℕ → Except RewriteError ℕ) (rounds : ℕ) :
    ∀ log ∈ exportLog outside rounds (l.map h.node), log.InBuffer h.maxSize := by
  obtain ⟨is, -, -, -, hlinked, -⟩ := importIL_spec rfl rfl himport
  have hclosed : h.Closed :=
    (NodeHeap.ofRewriter_closed hlinked (importIL_counted rfl himport)).edits hedits
  have hlength := hclosed.length_le hlist
  refine exportLog_within outside rounds _ ?_
  rw [List.length_map, NodeHeap.maxSize]
  omega

/-- A branch to itself, with a new node behind it. -/
theorem export_inBuffer_inserted : ∃ s h,
    ILRewriter.new.importIL ⟨[0x2B, 0xFE], by decide⟩ = .ok s
      ∧ (NodeHeap.ofRewriter s).edits [.newILInstr, .insertAfter 2 3] = .ok h
      ∧ h.IsList [2, 3] ∧ ∀ outside rounds,
        ∀ log ∈ exportLog outside rounds ([2, 3].map h.node), log.InBuffer h.maxSize := by
  obtain ⟨s, hs, hIL, hfresh, hcount⟩ : ∃ s,
      ILRewriter.new.importIL ⟨[0x2B, 0xFE], by decide⟩ = .ok s
        ∧ s.m_IL = [⟨2, ceeBrS, 0, 2⟩] ∧ s.fresh = 3 ∧ s.m_nInstrs = 1 :=
    ⟨_, rfl, rfl, rfl, rfl⟩
  obtain ⟨is, -, -, -, hlinked, -⟩ := importIL_spec rfl rfl hs
  have hr := NodeHeap.newILInstr_represents (NodeHeap.ofRewriter_represents hlinked)
    hlinked.sentinel_lt
  rw [hIL] at hr
  have hnode : (NodeHeap.ofRewriter s).newILInstr.IsNode 3 := by
    refine ⟨by decide, ?_⟩
    show 3 < s.fresh + 1
    omega
  obtain ⟨h, hrun, hsame, hrep⟩ := NodeHeap.insertAfter_represents hr hnode (by decide)
    (Or.inr (show 2 ∈ [2] by decide))
  have hedits : (NodeHeap.ofRewriter s).edits [.newILInstr, .insertAfter 2 3] = .ok h := by
    show ((NodeHeap.ofRewriter s).newILInstr.insertAfter 2 3 >>= _) = _
    rw [hrun]
    rfl
  have hlist : h.IsList [2, 3] := by
    have hlist := hrep.isList
    rw [if_neg (by decide), spliceAfter, if_pos rfl, List.map_cons, List.map_cons,
      NodeHeap.addr_node] at hlist
    exact hlist
  have hnInstrs : h.m_nInstrs = 2 := by
    rw [hsame]
    show s.m_nInstrs + 1 = 2
    omega
  exact ⟨s, h, hs, hedits, hlist, fun outside rounds =>
    export_inBuffer 0 0 0 hs hedits hlist (by omega) outside rounds⟩

end TestExecutor
