import TestExecutor.Rewriter.Placement

/-!
# The rewritten list

`RewriteIL` in closed form, on every list that the scan can go through.

* `TailCalls` — every `tail.` is followed by a call and a `ret`;
* `finalPlacement` — the probes around a node of the scanned list;
* `Rewritable` — what an imported list with byte offsets satisfies;
* `rewriteIL_eq` — the list that is handed to `Export`.
-/

namespace TestExecutor

open TestExecutor.Library

/-! ### Tail calls -/

/-- Every `tail.` is followed by a call and a `ret`. -/
inductive TailCalls : List ILInstr → Prop where
  | nil : TailCalls []
  | plain {w : ILInstr} {ws : List ILInstr} (hne : w.m_opcode ≠ ceeTailcall)
      (rest : TailCalls ws) : TailCalls (w :: ws)
  | tail {w c r : ILInstr} {ws : List ILInstr} (htail : w.m_opcode = ceeTailcall)
      (hcall : c.m_opcode = ceeCall ∨ c.m_opcode = ceeCalli ∨ c.m_opcode = ceeCallvirt)
      (hret : r.m_opcode = ceeRet) (rest : TailCalls ws) : TailCalls (w :: c :: r :: ws)

theorem ne_tail_of_call {opcode : ℕ}
    (h : opcode = ceeCall ∨ opcode = ceeCalli ∨ opcode = ceeCallvirt) : opcode ≠ ceeTailcall := by
  rcases h with rfl | rfl | rfl <;> decide

theorem TailCalls.followed {ws : List ILInstr} (h : TailCalls ws) : TailsFollowed ws := by
  induction h with
  | nil => exact TailsFollowed.nil
  | plain hne _ ih => exact TailsFollowed.plain hne ih
  | tail htail hcall hret _ ih =>
      refine TailsFollowed.tail htail (TailsFollowed.plain (ne_tail_of_call hcall) ?_)
      exact TailsFollowed.plain (by rw [hret]; decide) ih

/-- Every `tail.`, wherever it stands. -/
theorem TailCalls.split {ws : List ILInstr} (h : TailCalls ws) : ∀ {pre post : List ILInstr}
    {w : ILInstr}, ws = pre ++ w :: post → w.m_opcode = ceeTailcall →
    ∃ c r rest, post = c :: r :: rest
      ∧ (c.m_opcode = ceeCall ∨ c.m_opcode = ceeCalli ∨ c.m_opcode = ceeCallvirt)
      ∧ r.m_opcode = ceeRet := by
  induction h with
  | nil =>
      intro pre post w hws
      simp at hws
  | @plain u us hne _ ih =>
      intro pre post w hws htail
      cases pre with
      | nil =>
          obtain ⟨rfl, -⟩ := List.cons.inj hws
          exact absurd htail hne
      | cons v pre => exact ih (List.cons.inj hws).2 htail
  | @tail u c r us hu hcall hret _ ih =>
      intro pre post w hws htail
      match pre with
      | [] =>
          obtain ⟨rfl, rfl⟩ := List.cons.inj hws
          exact ⟨c, r, us, rfl, hcall, hret⟩
      | [v] =>
          obtain ⟨rfl, -⟩ := List.cons.inj (List.cons.inj hws).2
          exact absurd htail (ne_tail_of_call hcall)
      | [v, v'] =>
          obtain ⟨rfl, -⟩ := List.cons.inj (List.cons.inj (List.cons.inj hws).2).2
          exact absurd htail (by rw [hret]; decide)
      | v :: v' :: v'' :: pre =>
          exact ih (List.cons.inj (List.cons.inj (List.cons.inj hws).2).2).2 htail

theorem scanned_tail {fresh : ℕ} {w c r : ILInstr} {ws : List ILInstr}
    (htail : w.m_opcode = ceeTailcall)
    (hcall : c.m_opcode = ceeCall ∨ c.m_opcode = ceeCalli ∨ c.m_opcode = ceeCallvirt)
    (hret : r.m_opcode = ceeRet) : scanned fresh (w :: c :: r :: ws)
      = oldTail w (c :: r :: ws) :: newTail fresh (c :: r :: ws) :: c :: r
        :: scanned (fresh + 1) ws := by
  have hr : r.m_opcode ≠ ceeTailcall := by rw [hret]; decide
  have hscanned : scanned fresh (w :: c :: r :: ws) = _ := if_pos htail
  rw [hscanned, scanned, if_neg (ne_tail_of_call hcall), scanned, if_neg hr]

/-- Behind the new node of a `tail.` stands the call, whose offset it has. -/
theorem scanned_behind_tail {ws : List ILInstr} (h : TailCalls ws) : ∀ {fresh : ℕ}
    {ws₁ ws₂ : List ILInstr} {v w : ILInstr}, scanned fresh ws = ws₁ ++ v :: w :: ws₂ →
    v.m_opcode = ceeTailcall → w.m_offset = v.m_offset := by
  induction h with
  | nil =>
      intro fresh ws₁ ws₂ v w hws
      simp [scanned] at hws
  | @plain u us hne _ ih =>
      intro fresh ws₁ ws₂ v w hws hv
      rw [scanned, if_neg hne] at hws
      cases ws₁ with
      | nil =>
          obtain ⟨rfl, -⟩ := List.cons.inj hws
          exact absurd hv hne
      | cons x ws₁ => exact ih (List.cons.inj hws).2 hv
  | @tail u c r us hu hcall hret _ ih =>
      intro fresh ws₁ ws₂ v w hws hv
      rw [scanned_tail hu hcall hret] at hws
      -- the old node of the prefix, the new one, the call, and the `ret`
      rcases ws₁ with _ | ⟨x₀, _ | ⟨x₁, _ | ⟨x₂, _ | ⟨x₃, ws₁⟩⟩⟩⟩
      · obtain ⟨rfl, -⟩ := List.cons.inj hws
        exact absurd (show ceeNop = ceeTailcall from hv) (by decide)
      · obtain ⟨hv', hrest⟩ := List.cons.inj (List.cons.inj hws).2
        obtain ⟨rfl, -⟩ := List.cons.inj hrest
        rw [← hv']
        rfl
      · obtain ⟨rfl, -⟩ := List.cons.inj (List.cons.inj (List.cons.inj hws).2).2
        exact absurd hv (ne_tail_of_call hcall)
      · obtain ⟨rfl, -⟩ :=
          List.cons.inj (List.cons.inj (List.cons.inj (List.cons.inj hws).2).2).2
        exact absurd hv (by rw [hret]; decide)
      · exact ih (List.cons.inj (List.cons.inj (List.cons.inj (List.cons.inj hws).2).2).2).2 hv

/-- The nodes of the list keep their addresses. -/
theorem scanned_addr (fresh : ℕ) {ws : List ILInstr} {w : ILInstr} (hw : w ∈ ws) :
    ∃ v ∈ scanned fresh ws, v.addr = w.addr := by
  induction ws generalizing fresh with
  | nil => exact absurd hw List.not_mem_nil
  | cons u ws ih =>
      rw [scanned]
      rcases List.mem_cons.mp hw with rfl | hw
      · split
        · exact ⟨_, List.mem_cons_self, rfl⟩
        · exact ⟨_, List.mem_cons_self, rfl⟩
      · split
        · obtain ⟨v, hv, haddr⟩ := ih (fresh + 1) hw
          exact ⟨v, List.mem_cons_of_mem _ (List.mem_cons_of_mem _ hv), haddr⟩
        · obtain ⟨v, hv, haddr⟩ := ih fresh hw
          exact ⟨v, List.mem_cons_of_mem _ hv, haddr⟩

/-- The probes of the scan go to nodes of the scanned list. -/
theorem priorities_target {leaveMethod : Probe} {ws : List ILInstr} : ∀ {fresh : ℕ}
    {prev : Option ILInstr} {isTailCall : Bool} {x : ProbeInsertion},
    x ∈ priorities leaveMethod fresh prev isTailCall ws →
    (∃ v, prev = some v ∧ x.target = v.addr) ∨ ∃ v ∈ scanned fresh ws, x.target = v.addr := by
  induction ws with
  | nil => exact fun h => absurd h List.not_mem_nil
  | cons w ws ih =>
      intro fresh prev isTailCall x hx
      rw [scanned]
      rw [priorities] at hx
      by_cases htail : w.m_opcode = ceeTailcall
      · rw [if_pos htail] at hx ⊢
        rcases List.mem_cons.mp hx with rfl | hx
        · exact Or.inr ⟨newTail fresh ws, by simp, rfl⟩
        · rcases List.mem_cons.mp hx with rfl | hx
          · exact Or.inr ⟨oldTail w ws, by simp, rfl⟩
          · rcases ih hx with ⟨v, hv, htarget⟩ | ⟨v, hv, htarget⟩
            · obtain rfl := Option.some.inj hv
              exact Or.inr ⟨newTail fresh ws, by simp, htarget⟩
            · exact Or.inr ⟨v, by simp [hv], htarget⟩
      · rw [if_neg htail] at hx ⊢
        rcases List.mem_append.mp hx with hx | hx
        · rcases ownInsertions_target hx with htarget | ⟨v, hv, -, -, htarget⟩
          · exact Or.inr ⟨w, List.mem_cons_self, htarget⟩
          · exact Or.inl ⟨v, hv, htarget⟩
        · rcases ih hx with ⟨v, hv, htarget⟩ | ⟨v, hv, htarget⟩
          · obtain rfl := Option.some.inj hv
            exact Or.inr ⟨w, List.mem_cons_self, htarget⟩
          · exact Or.inr ⟨v, List.mem_cons_of_mem w hv, htarget⟩

/-! ### The list before the insertions -/

section Start

variable {covProb : Probe → ProbeCall} {methodId : Int32} {s : ILRewriter}

/-- The nodes of a list as segments. -/
def singleSegs (ws : List ILInstr) (p : ℕ) : List ILInstr := (findNode ILInstr.addr p ws).toList

def singleItems (ws : List ILInstr) (p : ℕ) : List Item :=
  (singleSegs ws p).map fun w => .instr w.m_opcode w.m_Arg64

theorem ILRewriter.Linked.singleSegs_eq (h : s.Linked) {w : ILInstr} (hw : w ∈ s.m_IL) :
    singleSegs s.m_IL w.addr = [w] := by
  obtain ⟨pre, post, hIL⟩ := List.append_of_mem hw
  have hnode : findNode ILInstr.addr w.addr s.m_IL = some w := h.node_eq hIL
  rw [singleSegs, hnode]
  rfl

theorem ILRewriter.Linked.singleItems_eq (h : s.Linked) {w : ILInstr} (hw : w ∈ s.m_IL) :
    singleItems s.m_IL w.addr = [.instr w.m_opcode w.m_Arg64] := by
  rw [singleItems, h.singleSegs_eq hw]
  rfl

theorem ILRewriter.Linked.grouped (covProb : Probe → ProbeCall) (methodId : Int32) (h : s.Linked) :
    Grouped covProb methodId s.m_IL s.m_pEH
    (singleItems s.m_IL) (singleSegs s.m_IL) s := by
  refine ⟨h, h.nodup, ?_, fun w hw => ?_, fun p hp => ?_, ?_⟩
  · have hmap : s.m_IL.flatMap (fun w => singleSegs s.m_IL w.addr)
        = s.m_IL.flatMap fun w => [w] :=
      List.flatMap_congr fun w hw => h.singleSegs_eq hw
    rw [hmap, List.flatMap_singleton']
  · rw [h.singleItems_eq hw, h.singleSegs_eq hw]
    exact realizes_singleton w
  · rw [singleSegs, findNode_of_notMem hp]
    rfl
  · have hlast : ∀ p, lastOf (singleSegs s.m_IL) p = p := by
      intro p
      by_cases hp : p ∈ s.m_IL.map ILInstr.addr
      · obtain ⟨w, hw, rfl⟩ := List.mem_map.mp hp
        rw [lastOf, h.singleSegs_eq hw]
        rfl
      · rw [lastOf, singleSegs, findNode_of_notMem hp]
        rfl
    simp only [hlast]
    exact (List.map_id _).symm

/-! ### The probe at the entry -/

/-- The instructions that call the probe at the entry; the last argument is `isSpontaneous`. -/
def enterContents (covProb : Probe → ProbeCall) (methodId : Int32) (probe : Probe) (offset : ℕ) :
    List (ℕ × ℕ) :=
  [(ceeLdcI4, offset % 2 ^ 32), (ceeLdcI4, methodId.toBitVec.toNat % 2 ^ 32), (ceeLdcI40, 0),
    (ceeLdcI8, (covProb probe).addr), (ceeCalli, (covProb probe).sig)]

theorem addEnterProbe_eq (covProb : Probe → ProbeCall) (methodId : Int32) {i : ILInstr}
    {rest : List ILInstr} (h : s.Linked)
    (hIL : s.m_IL = i :: rest) (probe : Probe) :
    ∃ s' enter, s.addEnterProbe covProb methodId probe = .ok s' ∧ s'.m_IL = enter ++ s.m_IL
      ∧ enter.map ILInstr.content = enterContents covProb methodId probe i.m_offset
      ∧ s'.Linked ∧ s'.m_pEH = s.m_pEH := by
  have hIL' : s.m_IL = [] ++ i :: rest := hIL
  have hfirst : s.first = i.addr := by rw [ILRewriter.first, hIL]; rfl
  have hnode : s.node i.addr = some i := h.node_eq hIL'
  have h₁ := h.newBefore i.addr ceeLdcI4 (i.m_offset % 2 ^ 32)
  have e₁ := ILRewriter.newBefore_split hIL' (h.split hIL').1 ceeLdcI4
    (i.m_offset % 2 ^ 32)
  have h₂ := h₁.newBefore i.addr ceeLdcI4 (methodId.toBitVec.toNat % 2 ^ 32)
  rw [List.append_cons] at e₁
  have e₂ := ILRewriter.newBefore_split e₁ (h₁.split e₁).1 ceeLdcI4
    (methodId.toBitVec.toNat % 2 ^ 32)
  rw [List.append_cons] at e₂
  have h₃ := h₂.newBefore i.addr ceeLdcI40 0
  have e₃ := ILRewriter.newBefore_split e₂ (h₂.split e₂).1 ceeLdcI40 0
  rw [List.append_cons] at e₃
  have h₄ := h₃.newBefore i.addr ceeLdcI8 (covProb probe).addr
  have e₄ := ILRewriter.newBefore_split e₃ (h₃.split e₃).1 ceeLdcI8 (covProb probe).addr
  rw [List.append_cons] at e₄
  have h₅ := h₄.newBefore i.addr ceeCalli (covProb probe).sig
  have e₅ := ILRewriter.newBefore_split e₄ (h₄.split e₄).1 ceeCalli (covProb probe).sig
  rw [List.append_cons] at e₅
  refine ⟨_, _, ?_, e₅.trans (by rw [hIL]), rfl, h₅, rfl⟩
  rw [ILRewriter.addEnterProbe, hfirst, hnode]
  rfl

end Start

/-! ### The closed form -/

/-- A node with insertions has the offset. -/
def Covered (P : List ProbeInsertion) (ws : List ILInstr) (o : ℕ) : Prop :=
  ∃ v ∈ ws, v.m_offset = o ∧ insertionsAt P v.addr ≠ []

instance (P : List ProbeInsertion) (ws : List ILInstr) (o : ℕ) : Decidable (Covered P ws o) := by
  unfold Covered; infer_instance

/-- The probes around a node of the list `ws`; a node in front of a branch target gets one if its
offset is not covered. -/
def finalPlacement (P : List ProbeInsertion) (preds : List ℕ) (ws : List ILInstr) (w : ILInstr) :
    Placement :=
  if insertionsAt P w.addr = [] then
    ⟨[], if w.addr ∈ preds ∧ ¬ Covered P ws w.m_offset then some .coverage else none⟩
  else placed (insertionsAt P w.addr)

/-- The probes at the starts of handlers. -/
def handlerInsertions (eh : List EHClause) : List ProbeInsertion :=
  eh.map fun clause => ⟨clause.m_pHandlerBegin, nullPtr, .throw, true⟩

/-- The insertions of the first loop. -/
def allPriorities (leaveMethod : Probe) (s : ILRewriter) : List ProbeInsertion :=
  priorities leaveMethod s.fresh none false s.m_IL ++ handlerInsertions s.m_pEH

/-- The nodes of the list behind the scan. -/
def ILRewriter.anchors (s : ILRewriter) : List ILInstr := scanned s.fresh s.m_IL

def ILRewriter.placement (leaveMethod : Probe) (s : ILRewriter) (w : ILInstr) : Placement :=
  finalPlacement (allPriorities leaveMethod s) (predecessors s.m_pPrev s.m_IL) s.anchors w

/-- What the rewriting relies on. -/
structure Rewritable (s : ILRewriter) : Prop where
  linked : s.Linked
  nonempty : s.m_IL ≠ []
  tables : SwitchTables s.m_IL
  tails : TailCalls s.m_IL
  small : ∀ w ∈ s.m_IL, w.m_opcode = ceeSwitch → w.m_Arg32 < 2 ^ 31
  targets : ∀ v ∈ s.m_IL, HasTarget v.m_opcode →
    (v.m_pTarget = pIL ∨ v.m_pTarget ∈ s.m_IL.map ILInstr.addr)
      ∧ ¬ BehindTail s.m_IL v.m_pTarget
  handlers : ∀ c ∈ s.m_pEH, c.m_pHandlerBegin ∈ s.m_IL.map ILInstr.addr
  offsets : (s.m_IL.map ILInstr.m_offset).Nodup

namespace Rewritable

variable {s : ILRewriter} {leaveMethod : Probe} (h : Rewritable s)

include h

theorem targetsFound : TargetsFound s s.m_pPrev s.m_IL := by
  intro v hv hhas
  obtain ⟨hin, hbehind⟩ := h.targets v hv hhas
  have hbounds : pIL ≤ v.m_pTarget ∧ v.m_pTarget < s.fresh := by
    rcases hin with hend | hin
    · rw [hend]
      exact ⟨le_refl pIL, h.linked.sentinel_lt⟩
    · obtain ⟨w, hw, haddr⟩ := List.mem_map.mp hin
      have := h.linked.allocated w hw
      omega
  have hpos : nullPtr < pIL := by decide
  exact ⟨by omega, hbounds.2, hbehind, rfl⟩

/-- Every probe goes to a node of the scanned list. -/
theorem priorities_anchored {x : ProbeInsertion} (hx : x ∈ allPriorities leaveMethod s) :
    ∃ w ∈ s.anchors, x.target = w.addr := by
  rcases List.mem_append.mp hx with hx | hx
  · rcases priorities_target hx with ⟨v, hv, -⟩ | hfound
    · cases hv
    · exact hfound
  · obtain ⟨c, hc, rfl⟩ := List.mem_map.mp hx
    obtain ⟨w, hw, haddr⟩ := List.mem_map.mp (h.handlers c hc)
    obtain ⟨v, hv, hvw⟩ := scanned_addr s.fresh hw
    exact ⟨v, hv, (hvw.trans haddr).symm⟩

omit h in
/-- Nodes in front of targets are nodes of the scanned list. -/
theorem predecessors_anchored {p : ℕ} (hp : p ∈ predecessors s.m_pPrev s.m_IL) :
    p = pIL ∨ ∃ w ∈ s.anchors, p = w.addr := by
  obtain ⟨v, -, rfl⟩ := List.mem_map.mp hp
  have hprev : ∀ (l : List ILInstr) (last q : ℕ),
      prevAddr ILInstr.addr last q l = last ∨ prevAddr ILInstr.addr last q l ∈ l.map ILInstr.addr := by
    intro l
    induction l with
    | nil => exact fun last q => Or.inl rfl
    | cons w l ih =>
        intro last q
        rw [prevAddr]
        split
        · exact Or.inl rfl
        · right
          rcases ih w.addr q with heq | hmem
          · rw [heq]
            exact List.mem_cons_self
          · exact List.mem_cons_of_mem _ hmem
  rcases hprev s.m_IL pIL v.m_pTarget with heq | hmem
  · exact Or.inl heq
  · right
    obtain ⟨w, hw, haddr⟩ := List.mem_map.mp hmem
    obtain ⟨u, hu, huw⟩ := scanned_addr s.fresh hw
    exact ⟨u, hu, (huw.trans haddr).symm⟩

/-- The nodes around one of them are other nodes. -/
theorem split_ne {pre post : List ILInstr} {w : ILInstr} (hIL : s.m_IL = pre ++ w :: post) :
    (∀ v ∈ pre, v.addr ≠ w.addr) ∧ (∀ v ∈ post, v.addr ≠ w.addr) ∧ w.addr < s.fresh := by
  have hnodup := h.linked.nodup
  rw [hIL, List.map_append, List.map_cons, List.nodup_append] at hnodup
  refine ⟨fun v hv heq => ?_, fun v hv heq => ?_, (h.linked.split hIL).2.2⟩
  · exact hnodup.2.2 _ (List.mem_map_of_mem hv) _ List.mem_cons_self heq
  · exact (List.nodup_cons.mp hnodup.2.1).1 (heq ▸ List.mem_map_of_mem hv)

/-- The new node of a `tail.` is not the start of a handler. -/
theorem handlerInsertions_new {p : ℕ} (hp : s.fresh ≤ p) :
    insertionsAt (handlerInsertions s.m_pEH) p = [] := by
  refine insertionsAt_eq_nil fun x hx => ?_
  obtain ⟨c, hc, rfl⟩ := List.mem_map.mp hx
  obtain ⟨w, hw, haddr⟩ := List.mem_map.mp (h.handlers c hc)
  have := h.linked.allocated w hw
  show c.m_pHandlerBegin ≠ p
  omega

/-- **The insertions at a node** other than a `tail.`: its own, and those of handlers that start
there. -/
theorem insertionsAt_plain (leaveMethod : Probe) {pre post : List ILInstr} {w : ILInstr}
    (hIL : s.m_IL = pre ++ w :: post) (htail : w.m_opcode ≠ ceeTailcall) :
    insertionsAt (allPriorities leaveMethod s) w.addr
      = ((nodeProbes leaveMethod (lastOpcode none (pre.map ILInstr.m_opcode))
          (tailFlag false (pre.map ILInstr.m_opcode)) w.m_opcode
          (post.head?.map ILInstr.m_opcode)).map fun p => ⟨w.addr, nullPtr, p.1, p.2⟩)
        ++ insertionsAt (handlerInsertions s.m_pEH) w.addr := by
  obtain ⟨hpre, hpost, hlt⟩ := h.split_ne hIL
  rw [allPriorities, insertionsAt_append, hIL, insertionsAt_priorities hpre hpost hlt htail]

theorem insertionsAt_old (leaveMethod : Probe) {pre post : List ILInstr} {w : ILInstr}
    (hIL : s.m_IL = pre ++ w :: post) (htail : w.m_opcode = ceeTailcall) :
    insertionsAt (allPriorities leaveMethod s) w.addr = ⟨w.addr, nullPtr, .coverage, true⟩
      :: insertionsAt (handlerInsertions s.m_pEH) w.addr := by
  obtain ⟨hpre, hpost, hlt⟩ := h.split_ne hIL
  rw [allPriorities, insertionsAt_append, hIL, insertionsAt_oldTail hpre hpost hlt htail]
  rfl

theorem insertionsAt_new (leaveMethod : Probe) {pre post : List ILInstr} {w : ILInstr}
    (hIL : s.m_IL = pre ++ w :: post) (htail : w.m_opcode = ceeTailcall) :
    insertionsAt (allPriorities leaveMethod s) (freshBehind s.fresh pre)
      = [⟨freshBehind s.fresh pre, nullPtr, .tailcall, true⟩] := by
  obtain ⟨c, r, rest, rfl, hcall, -⟩ := h.tails.split hIL htail
  rw [allPriorities, insertionsAt_append, h.handlerInsertions_new (le_freshBehind s.fresh pre), hIL,
    List.append_nil]
  refine insertionsAt_newTail (fun v hv => ?_) htail ?_
  · exact (h.linked.allocated v (by rw [hIL]; exact hv)).2
  · rw [List.head?_cons, Option.map_some]
    rcases hcall with hc | hc | hc <;> rw [hc] <;> decide

omit h in
theorem handlerInsertions_before {p : ℕ} {x : ProbeInsertion}
    (hx : x ∈ insertionsAt (handlerInsertions s.m_pEH) p) : x.isBeforeInstr = true := by
  obtain ⟨c, -, rfl⟩ := List.mem_map.mp (List.mem_of_mem_filter hx)
  rfl

/-- A probe behind a node is the first one that is inserted there. -/
theorem afterFirst {w : ILInstr} (hw : w ∈ s.anchors) :
    AfterFirst (insertionsAt (allPriorities leaveMethod s) w.addr) := by
  intro x hx
  obtain ⟨pre, v, post, hIL, ⟨htail, rfl⟩ | ⟨htail, rfl | rfl⟩⟩ := mem_scanned hw
  · rw [h.insertionsAt_plain leaveMethod hIL htail] at hx
    have hlength := nodeProbes_length leaveMethod (lastOpcode none (pre.map ILInstr.m_opcode))
      (tailFlag false (pre.map ILInstr.m_opcode)) w.m_opcode (post.head?.map ILInstr.m_opcode)
    cases hprobes : nodeProbes leaveMethod (lastOpcode none (pre.map ILInstr.m_opcode))
      (tailFlag false (pre.map ILInstr.m_opcode)) w.m_opcode (post.head?.map ILInstr.m_opcode) with
    | nil =>
        rw [hprobes] at hx
        exact handlerInsertions_before (List.mem_of_mem_tail hx)
    | cons p ps =>
        rw [hprobes] at hx hlength
        obtain rfl : ps = [] := List.eq_nil_of_length_eq_zero (by
          rw [List.length_cons] at hlength
          omega)
        exact handlerInsertions_before hx
  · change x ∈ (insertionsAt (allPriorities leaveMethod s) v.addr).tail at hx
    rw [h.insertionsAt_old leaveMethod hIL htail] at hx
    exact handlerInsertions_before hx
  · change x ∈ (insertionsAt (allPriorities leaveMethod s) (freshBehind s.fresh pre)).tail at hx
    rw [h.insertionsAt_new leaveMethod hIL htail] at hx
    exact absurd hx List.not_mem_nil

/-- The offsets that a `tail.` takes over are covered. -/
theorem covered_tail {pre post : List ILInstr} {w v : ILInstr}
    (hIL : s.m_IL = pre ++ w :: post) (htail : w.m_opcode = ceeTailcall)
    (hv : v ∈ s.anchors) (hcases : v = oldTail w post ∨ v = newTail (freshBehind s.fresh pre) post) :
    Covered (allPriorities leaveMethod s) s.anchors v.m_offset := by
  refine ⟨v, hv, rfl, ?_⟩
  rcases hcases with rfl | rfl
  · show insertionsAt (allPriorities leaveMethod s) w.addr ≠ []
    rw [h.insertionsAt_old leaveMethod hIL htail]
    exact List.cons_ne_nil _ _
  · show insertionsAt (allPriorities leaveMethod s) (freshBehind s.fresh pre) ≠ []
    rw [h.insertionsAt_new leaveMethod hIL htail]
    exact List.cons_ne_nil _ _

/-- What the first loop leaves to the second one. -/
theorem uncovered {covered : Finset ℕ} {its : ℕ → List Item}
    (hits : ∀ w ∈ s.anchors, its w.addr
      = nodeItems (placed (insertionsAt (allPriorities leaveMethod s) w.addr)) w)
    (hcovered : ∀ o, o ∈ covered ↔ Covered (allPriorities leaveMethod s) s.anchors o) :
    Uncovered s.anchors its covered := by
  refine ⟨fun v hv w hw heq => ?_, fun w hw hfree => ?_, fun v hv arg hlast => ?_,
    fun ws₁ v w ws₂ hws hv => ?_⟩
  · rw [hcovered]
    obtain ⟨pre, v', post, hIL, ⟨htail, rfl⟩ | ⟨htail, hcases⟩⟩ := mem_scanned hv
    · obtain ⟨pre', w', post', hIL', ⟨htail', rfl⟩ | ⟨htail', hcases'⟩⟩ := mem_scanned hw
      · left
        exact List.inj_on_of_nodup_map h.offsets (by rw [hIL]; simp) (by rw [hIL']; simp) heq
      · rw [heq]
        exact Or.inr (h.covered_tail hIL' htail' hw hcases')
    · exact Or.inr (h.covered_tail hIL htail hv hcases)
  · rw [hits w hw]
    have hnone : insertionsAt (allPriorities leaveMethod s) w.addr = [] := by
      by_contra hsome
      exact hfree ((hcovered _).mpr ⟨w, hw, rfl, hsome⟩)
    rw [hnone]
    rfl
  · rw [hits v hv] at hlast
    rcases nodeItems_last (placed (insertionsAt (allPriorities leaveMethod s) v.addr)) v with
      hlast' | hlast'
    · exact (Item.instr.inj (Option.some.inj (hlast'.symm.trans hlast))).1
    · exact absurd (Item.instr.inj (Option.some.inj (hlast'.symm.trans hlast))).1 (by decide)
  · rw [hcovered]
    have hmem : v ∈ s.anchors := by rw [hws]; simp
    have hoffset : w.m_offset = v.m_offset := scanned_behind_tail h.tails hws hv
    obtain ⟨pre, v', post, hIL, ⟨htail, rfl⟩ | ⟨htail, hcases⟩⟩ := mem_scanned hmem
    · exact absurd hv htail
    · rw [hoffset]
      exact h.covered_tail hIL htail hmem hcases

omit h in
/-- The items behind the second loop. -/
theorem finalItems {w : ILInstr} (hw : w ∈ s.anchors) {T : List ProbeInsertion}
    (hT : T.map ProbeInsertion.target = predecessors s.m_pPrev s.m_IL) :
    (if ¬ Covered (allPriorities leaveMethod s) s.anchors w.m_offset
        ∧ w.addr ∈ T.map ProbeInsertion.target
      then Item.insertAfter .coverage w.m_offset
        (nodeItems (placed (insertionsAt (allPriorities leaveMethod s) w.addr)) w)
      else nodeItems (placed (insertionsAt (allPriorities leaveMethod s) w.addr)) w)
      = nodeItems (s.placement leaveMethod w) w := by
  rw [ILRewriter.placement, finalPlacement, hT]
  by_cases hnone : insertionsAt (allPriorities leaveMethod s) w.addr = []
  · rw [if_pos hnone, hnone]
    by_cases hboth : w.addr ∈ predecessors s.m_pPrev s.m_IL
      ∧ ¬ Covered (allPriorities leaveMethod s) s.anchors w.m_offset
    · rw [if_pos hboth.symm, if_pos hboth]
      rfl
    · rw [if_neg (fun hswap => hboth hswap.symm), if_neg hboth]
      rfl
  · rw [if_neg hnone, if_neg]
    exact fun hboth => hboth.1 ⟨w, hw, rfl, hnone⟩

end Rewritable

/-- The list that is handed to `Export`: the probe at the entry, then a segment for every node of the
scanned list. -/
structure RewriteResult (covProb : Probe → ProbeCall) (methodId : Int32) (isMain : Bool)
    (s s' : ILRewriter) (enter : List ILInstr) (segs : ℕ → List ILInstr) : Prop where
  list_eq : s'.m_IL = enter ++ s.anchors.flatMap fun w => segs w.addr
  enter_eq : ∃ w ws, s.anchors = w :: ws ∧ enter.map ILInstr.content
    = enterContents covProb methodId (ILRewriter.enterMethod isMain) w.m_offset
  realizes : ∀ w ∈ s.anchors, Realizes covProb methodId
    (nodeItems (s.placement (ILRewriter.leaveMethod isMain) w) w) w (segs w.addr)
  outside : ∀ p, p ∉ s.anchors.map ILInstr.addr → segs p = []
  clauses_eq : s'.m_pEH
    = s.m_pEH.map fun c => { c with m_pHandlerEnd := lastOf segs c.m_pHandlerEnd }
  linked : s'.Linked

/-- What the rewriting adds to the stack counter. -/
def ILRewriter.stackGrowth (leaveMethod : Probe) (s : ILRewriter) : ℕ :=
  (s.anchors.map fun w => excess w (nodeItems (s.placement leaveMethod w) w)).sum + enterPushes

/-- **What `RewriteIL` hands to `Export`.** -/
theorem rewriteIL_eq {covProb : Probe → ProbeCall} {methodId : Int32} {s : ILRewriter}
    (h : Rewritable s.countOffsets) (isMain : Bool) :
    ∃ s' enter segs, s.rewriteIL covProb methodId isMain = .ok s'
      ∧ RewriteResult covProb methodId isMain s.countOffsets s' enter segs
      ∧ Pushed (s.countOffsets.stackGrowth (ILRewriter.leaveMethod isMain)) s.countOffsets s' := by
  rw [ILRewriter.rewriteIL]
  generalize s.countOffsets = s at h ⊢
  -- the scan
  obtain ⟨st, hscan, hlist, hlinked, heh, hpriority, T, htarget, hT, hprobes⟩ :=
    scanFrom_eq h.tables ⟨s, false, [], []⟩ h.linked (List.nil_append _).symm (le_refl _)
      h.tails.followed h.small h.targetsFound
  change st.rewriter.m_IL = s.anchors at hlist
  change st.rewriter.m_pEH = s.m_pEH at heh
  change st.addTargetProbe = T at htarget
  have hP : st.addPriorityProbe ++ handlerInsertions st.rewriter.m_pEH
      = allPriorities (ILRewriter.leaveMethod isMain) s := by
    rw [hpriority, heh]
    rfl
  have hgrouped := hlinked.grouped covProb methodId
  rw [hlist, heh] at hgrouped
  have hsingle : ∀ w ∈ s.anchors,
      singleItems s.anchors w.addr = [.instr w.m_opcode w.m_Arg64] := by
    intro w hw
    have hitems := hlinked.singleItems_eq (w := w) (by rw [hlist]; exact hw)
    rwa [hlist] at hitems
  have hacc : Accounted s.anchors (singleItems s.anchors) s st.rewriter := by
    refine ⟨fun w hw => ⟨_, _, _, hsingle w hw, Or.inl rfl⟩, ?_⟩
    rw [sum_excess_single hsingle]
    exact Scan.scanFrom_pushed hscan
  -- the two loops
  obtain ⟨s₁, covered, its₁, segs₁, hok₁, hgrouped₁, hits₁, hcovered, hacc₁⟩ :=
    insertPriorityProbes_eq ∅ (P := allPriorities (ILRewriter.leaveMethod isMain) s)
      hgrouped fun x hx => h.priorities_anchored hx
  have hits₁' : ∀ w ∈ s.anchors, its₁ w.addr = nodeItems (placed (insertionsAt
      (allPriorities (ILRewriter.leaveMethod isMain) s) w.addr)) w := by
    intro w hw
    rw [hits₁ w hw, hsingle w hw, foldl_insert w (h.afterFirst hw)]
  have hcovered' : ∀ o, o ∈ covered
      ↔ Covered (allPriorities (ILRewriter.leaveMethod isMain) s) s.anchors o := by
    intro o
    rw [hcovered]
    constructor
    · rintro (ho | ⟨w, hw, hoff, x, hx, hxw⟩)
      · exact absurd ho (Finset.notMem_empty o)
      · refine ⟨w, hw, hoff, List.ne_nil_of_mem (a := x) ?_⟩
        exact List.mem_filter.mpr ⟨hx, by simpa using hxw⟩
    · rintro ⟨w, hw, hoff, hsome⟩
      obtain ⟨x, hx⟩ := List.exists_mem_of_ne_nil _ hsome
      obtain ⟨hmem, htarget⟩ := List.mem_filter.mp hx
      exact Or.inr ⟨w, hw, hoff, x, hmem, by simpa using htarget⟩
  obtain ⟨s₂, its₂, segs₂, hok₂, hgrouped₂, hits₂, hacc₂⟩ :=
    insertTargetProbes_eq (ILRewriter.leaveMethod isMain) (T := T) hgrouped₁
      (h.uncovered hits₁' hcovered') fun x hx => by
        refine ⟨(hprobes x hx).1, (hprobes x hx).2, Rewritable.predecessors_anchored ?_⟩
        rw [← hT]
        exact List.mem_map_of_mem hx
  have hits₂' : ∀ w ∈ s.anchors, its₂ w.addr
      = nodeItems (s.placement (ILRewriter.leaveMethod isMain) w) w := by
    intro w hw
    rw [hits₂ w hw, hits₁' w hw]
    simp only [hcovered']
    exact Rewritable.finalItems hw hT
  have hreal : ∀ w ∈ s.anchors, Realizes covProb methodId
      (nodeItems (s.placement (ILRewriter.leaveMethod isMain) w) w) w (segs₂ w.addr) := by
    intro w hw
    rw [← hits₂' w hw]
    exact hgrouped₂.realizes w hw
  -- the probe at the entry
  obtain ⟨w, ws, hws⟩ : ∃ w ws, s.anchors = w :: ws := by
    obtain ⟨u, us, hIL⟩ := List.exists_cons_of_ne_nil h.nonempty
    rw [ILRewriter.anchors, hIL, scanned]
    split
    · exact ⟨_, _, rfl⟩
    · exact ⟨_, _, rfl⟩
  obtain ⟨i, rest, hseg, haddr, hoffset⟩ := (hreal w (by rw [hws]; simp)).anchored
  have hIL₂ : s₂.m_IL = i :: (rest ++ ws.flatMap fun w => segs₂ w.addr) := by
    rw [hgrouped₂.list_eq, hws, List.flatMap_cons, hseg, List.cons_append]
  obtain ⟨s', enter, hok', hlist', henter, hlinked', heh'⟩ := addEnterProbe_eq covProb
    methodId hgrouped₂.linked hIL₂ (ILRewriter.enterMethod isMain)
  have hpushed := (hacc₂ s (hacc₁ s hacc)).pushed.trans
    (ILRewriter.addEnterProbe_pushed covProb methodId hok')
  rw [List.map_congr_left fun w hw => by rw [hits₂' w hw]] at hpushed
  refine ⟨s', enter, segs₂, ?_, ⟨?_, ⟨w, ws, hws, ?_⟩, hreal, hgrouped₂.outside,
    heh'.trans hgrouped₂.clauses_eq, hlinked'⟩, hpushed⟩
  · change Scan.scanFrom _ _ s.first _ = _ at hscan
    dsimp only
    rw [hscan]
    show (ILRewriter.insertPriorityProbes covProb methodId
      (st.addPriorityProbe ++ handlerInsertions st.rewriter.m_pEH) st.rewriter ∅ >>= _) = _
    rw [hP, hok₁]
    show (ILRewriter.insertTargetProbes covProb methodId _ st.addTargetProbe s₁ covered >>= _) = _
    rw [htarget, hok₂]
    exact hok'
  · rw [hlist', hgrouped₂.list_eq]
  · rw [henter, hoffset]

end TestExecutor
