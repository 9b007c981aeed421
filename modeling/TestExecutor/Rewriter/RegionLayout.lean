import TestExecutor.Rewriter.Exported
import TestExecutor.Rewriter.RewrittenBody

/-!
# Where ranges are exported

The ranges of the clauses before the rewriting and after the export.

* `groupOffset` — where the group at a position is written;
* `movedTo_le_iff`, `movedTo_le_node_iff` — boundaries and nodes are exported in their old order;
* `exportedEnd` — where a handler is exported to end;
* `exported_range` — every range is exported between the old boundaries, unless it is cut at a `tail.`;
* `clauses_ready` — the clauses can be written.
-/

namespace TestExecutor

open TestExecutor.Library ILRewriter

/-! ### Positions -/

/-- The byte offset of the group at a position. -/
def groupOffset (il enter : List ILInstr) (gs : List Group) (k : ℕ) : ℕ :=
  totalSize (il.take (frontNodes enter gs k).length)

theorem totalSize_take_lt {il : List ILInstr} (hsized : ∀ n ∈ il, 0 < n.byteSize) {m n : ℕ}
    (hlt : m < n) (hle : n ≤ il.length) : totalSize (il.take m) < totalSize (il.take n) := by
  induction il generalizing m n with
  | nil =>
      have hzero : n = 0 := Nat.le_zero.mp hle
      omega
  | cons i il ih =>
      obtain ⟨n, rfl⟩ : ∃ n', n = n' + 1 := ⟨n - 1, by omega⟩
      have hi := hsized i List.mem_cons_self
      cases m with
      | zero =>
          rw [List.take_succ_cons, totalSize_cons, List.take_zero, totalSize_nil]
          omega
      | succ m =>
          have hrest := ih (fun j hj => hsized j (List.mem_cons_of_mem i hj))
            (Nat.lt_of_succ_lt_succ hlt) (Nat.le_of_succ_le_succ hle)
          rw [List.take_succ_cons, List.take_succ_cons, totalSize_cons, totalSize_cons]
          omega

theorem totalSize_take_le {il : List ILInstr} (hsized : ∀ n ∈ il, 0 < n.byteSize) {m n : ℕ}
    (hle : m ≤ n) (hlength : n ≤ il.length) : totalSize (il.take m) ≤ totalSize (il.take n) := by
  rcases Nat.lt_or_eq_of_le hle with hlt | rfl
  · exact le_of_lt (totalSize_take_lt hsized hlt hlength)
  · exact le_refl _

/-! ### The layout of a rewritten body -/

namespace RewrittenBody

variable {covProb : Probe → ProbeCall} {methodId : Int32} {isMain : Bool} {body : MethodBody}
  {is : List RawInstr} {s' : ILRewriter} {enter : List ILInstr} {gs : List Group}
  (hr : RewrittenBody covProb methodId isMain body is s' enter gs) {il : List ILInstr}
  (hwidened : Widened s'.m_IL il)

include hr

theorem frontNodes_length_le (k : ℕ) : (frontNodes enter gs k).length ≤ s'.m_IL.length := by
  rw [hr.list_split k, List.length_append]
  exact Nat.le_add_right _ _

include hwidened

theorem nodup_widened : (il.map ILInstr.addr).Nodup ∧ pIL ∉ il.map ILInstr.addr := by
  rw [hwidened.map_addr]
  exact ⟨hr.linked.nodup, hr.linked.pIL_notMem⟩

/-- A node at a position of the list is written behind those in front of it. -/
theorem layoutOffset_getElem? {n : ILInstr} {k : ℕ} (hn : s'.m_IL[k]? = some n) :
    layoutOffset il n.addr = totalSize (il.take k) := by
  obtain ⟨hnodup, hsentinel⟩ := hr.nodup_widened hwidened
  have haddr : (il.map ILInstr.addr)[k]? = some n.addr := by
    rw [hwidened.map_addr, List.getElem?_map, hn]
    rfl
  rw [List.getElem?_map, Option.map_eq_some_iff] at haddr
  obtain ⟨w, hw, hwn⟩ := haddr
  rw [← hwn]
  exact layoutOffset_take hnodup hsentinel hw

/-- What stands behind the first nodes is written behind them. -/
theorem layoutOffset_head {m : ℕ} (hm : m ≤ s'.m_IL.length) :
    layoutOffset il (headAddr ILInstr.addr pIL (s'.m_IL.drop m)) = totalSize (il.take m) := by
  rcases Nat.lt_or_eq_of_le hm with hlt | rfl
  · rw [List.drop_eq_getElem_cons hlt]
    exact hr.layoutOffset_getElem? hwidened (List.getElem?_eq_getElem hlt)
  · rw [List.drop_length, hwidened.length_eq, List.take_length]
    exact if_pos rfl

/-- A boundary is exported as the offset of the group that starts there. -/
theorem layoutOffset_boundary {k : ℕ} (hk : k ≤ is.length) :
    layoutOffset il (targetOf is body.code.size (boundaryAt is body.code.size k))
      = groupOffset il enter gs k := by
  have hdrop : s'.m_IL.drop (frontNodes enter gs k).length = (gs.drop k).flatMap Group.nodes := by
    rw [hr.list_split k, List.drop_left]
  rw [hr.targetOf_boundary hk, ← hdrop]
  exact hr.layoutOffset_head hwidened (hr.frontNodes_length_le k)

variable (hsized : ∀ n ∈ il, 0 < n.byteSize)

include hsized

theorem groupOffset_strictMono :
    StrictMonoOn (groupOffset il enter gs) (Set.Iic is.length) := by
  apply strictMonoOn_Iic_of_lt_succ
  intro k hk
  have hlt : k < gs.length := hr.length_eq ▸ hk
  have hg := List.getElem?_eq_getElem hlt
  rw [Nat.succ_eq_succ, Nat.succ_eq_add_one, groupOffset, groupOffset]
  refine totalSize_take_lt hsized ?_ ?_
  · rw [frontNodes_succ enter hg, List.length_append]
    exact Nat.lt_add_of_pos_right (List.length_pos_of_mem (gs[k]).instr_mem)
  · rw [← hwidened.length_eq]
    exact hr.frontNodes_length_le (k + 1)

/-- The nodes of a group are written between its offset and that of the next one. -/
theorem layoutOffset_node {g : Group} {k : ℕ} (hg : gs[k]? = some g) {n : ILInstr}
    (hn : n ∈ g.nodes) : groupOffset il enter gs k ≤ layoutOffset il n.addr
      ∧ layoutOffset il n.addr < groupOffset il enter gs (k + 1) := by
  obtain ⟨m, hm⟩ := List.getElem?_of_mem hn
  obtain ⟨hlt, -⟩ := List.getElem?_eq_some_iff.mp hm
  have hlength := frontNodes_succ enter hg
  have hle := hr.frontNodes_length_le (k + 1)
  rw [hlength, List.length_append, hwidened.length_eq] at hle
  have hpos : s'.m_IL[(frontNodes enter gs k).length + m]? = some n := by
    rw [hr.list_eq, frontNodes_split enter hg, List.getElem?_append_right (Nat.le_add_right _ _),
      Nat.add_sub_cancel_left, List.getElem?_append_left hlt]
    exact hm
  rw [hr.layoutOffset_getElem? hwidened hpos, groupOffset, groupOffset, hlength, List.length_append]
  exact ⟨totalSize_take_le hsized (Nat.le_add_right _ _) (by omega),
    totalSize_take_lt hsized (by omega) hle⟩

/-- The probe at the entry is written in front of all groups. -/
theorem layoutOffset_enter {n : ILInstr} (hn : n ∈ enter) :
    layoutOffset il n.addr < groupOffset il enter gs 0 := by
  obtain ⟨m, hm⟩ := List.getElem?_of_mem hn
  obtain ⟨hlt, -⟩ := List.getElem?_eq_some_iff.mp hm
  have hfront : frontNodes enter gs 0 = enter := List.append_nil enter
  have hle := hr.frontNodes_length_le 0
  rw [hwidened.length_eq, hfront] at hle
  have hpos : s'.m_IL[m]? = some n := by
    rw [hr.list_eq, List.getElem?_append_left hlt]
    exact hm
  rw [hr.layoutOffset_getElem? hwidened hpos, groupOffset, hfront]
  exact totalSize_take_lt hsized hlt hle

end RewrittenBody

theorem WidenedNode.byteSize_pos {i j : ILInstr} (h : WidenedNode i j) (hi : 0 < i.byteSize) :
    0 < j.byteSize := by
  rcases h.m_opcode with hop | ⟨hshort, hop⟩
  · rw [ILInstr.byteSize, hop]
    exact hi
  · have hsize : operandSize j.m_opcode = 4 := by
      rw [operandSize, hop, (widenOpcode_spec hshort).1]
      rfl
    rw [ILInstr.byteSize, hsize]
    omega

/-! ### Boundaries -/

namespace RewrittenBody

variable {covProb : Probe → ProbeCall} {methodId : Int32} {isMain : Bool} {body : MethodBody}
  {is : List RawInstr} {s' : ILRewriter} {enter : List ILInstr} {gs : List Group}
  (hr : RewrittenBody covProb methodId isMain body is s' enter gs) (h : ValidBody body is)

include hr h

theorem sized_widened {il : List ILInstr} (hwidened : Widened s'.m_IL il) :
    ∀ n ∈ il, 0 < n.byteSize := by
  intro n hn
  obtain ⟨m, hm, hnode⟩ := forall₂_exists_left hwidened hn
  exact hnode.byteSize_pos (hr.sized h hm)

end RewrittenBody

/-- The byte offset at which a boundary is written. -/
def movedTo (body : MethodBody) (is : List RawInstr) (il : List ILInstr) (o : ℕ) : ℕ :=
  layoutOffset il (targetOf is body.code.size o)

namespace RewrittenBody

variable {covProb : Probe → ProbeCall} {methodId : Int32} {isMain : Bool} {body : MethodBody}
  {is : List RawInstr} {s' : ILRewriter} {enter : List ILInstr} {gs : List Group}
  (hr : RewrittenBody covProb methodId isMain body is s' enter gs) (h : ValidBody body is)
  {il : List ILInstr} (hwidened : Widened s'.m_IL il)

include hr h hwidened

/-- Boundaries stay in order. -/
theorem movedTo_le_iff {o o' : ℕ} (ho : IsStart is o ∨ o = body.code.size)
    (ho' : IsStart is o' ∨ o' = body.code.size) :
    movedTo body is il o ≤ movedTo body is il o' ↔ o ≤ o' := by
  obtain ⟨k, hk, rfl⟩ := exists_boundaryAt ho
  obtain ⟨k', hk', rfl⟩ := exists_boundaryAt ho'
  rw [movedTo, movedTo, hr.layoutOffset_boundary hwidened hk, hr.layoutOffset_boundary hwidened hk',
    (hr.groupOffset_strictMono hwidened (hr.sized_widened h hwidened)).le_iff_le hk hk',
    h.decoded.consecutive.boundaryAt_strictMono.le_iff_le hk hk']

/-- A node lies behind a boundary if its instruction does. -/
theorem movedTo_le_node_iff {o : ℕ} (ho : IsStart is o ∨ o = body.code.size) {i : RawInstr}
    {g : Group} (hig : (i, g) ∈ is.zip gs) {n : ILInstr} (hn : n ∈ g.nodes) :
    movedTo body is il o ≤ layoutOffset il n.addr ↔ o ≤ i.offset := by
  have hcons := h.decoded.consecutive
  have hsized := hr.sized_widened h hwidened
  have hmono := hr.groupOffset_strictMono hwidened hsized
  obtain ⟨k, hk, rfl⟩ := exists_boundaryAt ho
  obtain ⟨j, hj⟩ := List.getElem?_of_mem hig
  obtain ⟨hi, hg⟩ := List.getElem?_zip_eq_some.mp hj
  obtain ⟨hlt, -⟩ := List.getElem?_eq_some_iff.mp hi
  obtain ⟨hlow, hhigh⟩ := hr.layoutOffset_node hwidened hsized hg hn
  rw [movedTo, hr.layoutOffset_boundary hwidened hk, ← boundaryAt_of_getElem? hi body.code.size,
    hcons.boundaryAt_strictMono.le_iff_le hk (le_of_lt hlt)]
  constructor
  · intro hle
    by_contra hgt
    have hnext : groupOffset il enter gs (j + 1) ≤ groupOffset il enter gs k :=
      (hmono.le_iff_le hlt hk).mpr (by omega)
    omega
  · intro hle
    exact ((hmono.le_iff_le hk (le_of_lt hlt)).mpr hle).trans hlow

/-- The probe at the entry lies in front of all boundaries. -/
theorem enter_lt_movedTo {o : ℕ} (ho : IsStart is o ∨ o = body.code.size) {n : ILInstr}
    (hn : n ∈ enter) : layoutOffset il n.addr < movedTo body is il o := by
  have hsized := hr.sized_widened h hwidened
  obtain ⟨k, hk, rfl⟩ := exists_boundaryAt ho
  have hle : groupOffset il enter gs 0 ≤ groupOffset il enter gs k :=
    ((hr.groupOffset_strictMono hwidened hsized).le_iff_le (Nat.zero_le _) hk).mpr (Nat.zero_le k)
  rw [movedTo, hr.layoutOffset_boundary hwidened hk]
  exact lt_of_lt_of_le (hr.layoutOffset_enter hwidened hsized hn) hle

end RewrittenBody

/-! ### Ends of handlers -/

/-- Where a handler that ended at `o` is exported to end. -/
inductive ExportedEnd (body : MethodBody) (is : List RawInstr) (gs : List Group) (il : List ILInstr)
    (o last : ℕ) : Prop
  | start (ho : o = 0) (hlast : last = 0)
  | boundary (hlast : last = movedTo body is il o)
  -- the handler ends at the old node of the `tail.`
  | tail {k : ℕ} {i : RawInstr} {g : Group} (hi : is[k]? = some i) (hg : gs[k]? = some g)
      (htail : i.opcode = ceeTailcall) (ho : i.next = o) (hlast : last ≤ layoutOffset il g.instr.addr)

theorem HandlerEnds.mem_clauses {body : MethodBody} {is : List RawInstr} {s' : ILRewriter}
    {gs : List Group} {ends : ℕ → ℕ} (h : HandlerEnds body is s' gs ends) {c' : EHClause}
    (hc' : c' ∈ s'.m_pEH) : ∃ c ∈ body.eh, c' = { clauseOf (targetOf is body.code.size) id c with
      m_pHandlerEnd := ends ((c.handlerOffset + c.handlerLength) % 2 ^ 32) } := by
  rw [h.clauses_eq] at hc'
  obtain ⟨c, hc, rfl⟩ := List.mem_map.mp hc'
  exact ⟨c, hc, rfl⟩

section Ends

variable {covProb : Probe → ProbeCall} {methodId : Int32} {isMain : Bool} {body : MethodBody}
  {is : List RawInstr} {s' : ILRewriter} {enter : List ILInstr} {gs : List Group} {ends : ℕ → ℕ}
  (hr : RewrittenBody covProb methodId isMain body is s' enter gs) (h : ValidBody body is)
  (hends : HandlerEnds body is s' gs ends)

include hr h hends

/-- Behind the end of a handler stands the node at some position. -/
theorem RewrittenBody.next_ends (hne : is ≠ []) {o : ℕ} (ho : IsStart is o ∨ o = body.code.size) :
    ∃ m ≤ s'.m_IL.length, s'.m_pNext (ends o) = headAddr ILInstr.addr pIL (s'.m_IL.drop m)
      ∧ ((o = 0 ∧ m = 0)
        ∨ (∃ k ≤ is.length, boundaryAt is body.code.size k = o ∧ m = (frontNodes enter gs k).length)
        ∨ ∃ (k : ℕ) (i : RawInstr) (g : Group) (front back : List ILInstr), is[k]? = some i
          ∧ gs[k]? = some g ∧ i.opcode = ceeTailcall ∧ i.next = o ∧ g.nodes = front ++ back
          ∧ g.instr ∈ back ∧ m = (frontNodes enter gs k).length + front.length) := by
  have hcons := h.decoded.consecutive
  obtain ⟨k, hk, rfl⟩ := exists_boundaryAt ho
  cases k with
  | zero =>
      obtain ⟨i, post, rfl⟩ := List.exists_cons_of_ne_nil hne
      have hzero : boundaryAt (i :: post) body.code.size 0 = 0 := hcons.1
      rw [hzero, hends.atStart hne]
      exact ⟨0, Nat.zero_le _, hr.linked.next_last (List.nil_append s'.m_IL).symm, Or.inl ⟨rfl, rfl⟩⟩
  | succ k =>
      have hi := List.getElem?_eq_getElem (Nat.lt_of_succ_le hk)
      obtain ⟨g, hg, -⟩ := hr.getElem?_group hi
      generalize is[k] = i at hi
      obtain ⟨front, back, hnodes, hfront, hlast, hback, htail⟩ := hends.behind k i g hi hg
      have hlist := hr.list_split (k + 1)
      rw [frontNodes_succ enter hg, hnodes, ← List.append_assoc, List.append_assoc] at hlist
      have hdrop : s'.m_IL.drop (frontNodes enter gs k ++ front).length
          = back ++ (gs.drop (k + 1)).flatMap Group.nodes := by rw [hlist, List.drop_left]
      have hnext := hr.linked.next_last hlist
      have hends_eq : ends i.next = lastAddr ILInstr.addr pIL (frontNodes enter gs k ++ front) := by
        obtain ⟨n, ns, rfl⟩ := List.exists_cons_of_ne_nil hfront
        rw [hlast, lastAddr_append]
        rfl
      rw [hcons.boundaryAt_succ hi, hends_eq, hnext, ← hdrop]
      refine ⟨_, ?_, rfl, ?_⟩
      · rw [hlist]
        exact (List.prefix_append _ _).length_le
      · by_cases hop : i.opcode = ceeTailcall
        · exact Or.inr (Or.inr ⟨k, i, g, front, back, hi, hg, hop, rfl, hnodes, htail hop,
            List.length_append⟩)
        · refine Or.inr (Or.inl ⟨k + 1, hk, hcons.boundaryAt_succ hi, ?_⟩)
          rw [frontNodes_succ enter hg, hnodes, hback hop, List.append_nil]

/-- **The end of a handler** is exported at its boundary, unless a `tail.` stands in front of it. -/
theorem RewrittenBody.exportedEnd {il : List ILInstr} (hwidened : Widened s'.m_IL il) (hne : is ≠ [])
    {o : ℕ} (ho : IsStart is o ∨ o = body.code.size) :
    ExportedEnd body is gs il o (layoutOffset il (s'.m_pNext (ends o))) := by
  obtain ⟨m, hm, hnext, hcases⟩ := hr.next_ends h hends hne ho
  rw [hnext, hr.layoutOffset_head hwidened hm]
  rcases hcases with ⟨rfl, rfl⟩ | ⟨k, hk, rfl, rfl⟩ |
    ⟨k, i, g, front, back, hi, hg, htail, hnextO, hnodes, hinstr, rfl⟩
  · exact .start rfl rfl
  · exact .boundary (hr.layoutOffset_boundary hwidened hk).symm
  · refine .tail hi hg htail hnextO ?_
    obtain ⟨p, hp⟩ := List.getElem?_of_mem hinstr
    obtain ⟨hlt, -⟩ := List.getElem?_eq_some_iff.mp hp
    have hpos : s'.m_IL[(frontNodes enter gs k).length + front.length + p]? = some g.instr := by
      rw [hr.list_eq, frontNodes_split enter hg, hnodes, Nat.add_assoc,
        List.getElem?_append_right (Nat.le_add_right _ _), Nat.add_sub_cancel_left, List.append_assoc,
        List.getElem?_append_right (Nat.le_add_right _ _), Nat.add_sub_cancel_left,
        List.getElem?_append_left hlt]
      exact hp
    obtain ⟨hlength, -⟩ := List.getElem?_eq_some_iff.mp hpos
    rw [hr.layoutOffset_getElem? hwidened hpos]
    refine totalSize_take_le (hr.sized_widened h hwidened) (Nat.le_add_right _ _) ?_
    rw [← hwidened.length_eq]
    exact le_of_lt hlength

/-- The exported clauses can be written. -/
theorem RewrittenBody.clauses_ready :
    ∀ c ∈ s'.m_pEH, (∀ p ∈ c.boundaries, NodeOrEnd s'.m_IL p)
      ∧ NodeOrEnd s'.m_IL (s'.m_pNext c.m_pHandlerEnd) := by
  intro c' hc'
  obtain ⟨c, hc, rfl⟩ := hends.mem_clauses hc'
  have hnode : ∀ o ∈ c.boundaries, NodeOrEnd s'.m_IL (targetOf is body.code.size o) :=
    fun o ho => hr.nodeOrEnd (h.boundaries c hc o ho)
  constructor
  · intro p hp
    simp only [EHClause.boundaries, clauseOf, List.mem_append, List.mem_cons, List.not_mem_nil,
      or_false] at hp
    rcases hp with (rfl | rfl | rfl) | hp
    · exact hnode _ (by simp [EhInfo.boundaries])
    · exact hnode _ (by simp [EhInfo.boundaries])
    · exact hnode _ (by simp [EhInfo.boundaries, EhInfo.entries])
    · split at hp
      · rename_i hfilter
        rw [List.mem_singleton.mp hp]
        exact hnode _ (by simp [EhInfo.boundaries, EhInfo.entries, hfilter])
      · exact absurd hp List.not_mem_nil
  · have hne : is ≠ [] := by
      obtain ⟨i, hi, -⟩ := h.handler_isStart hc
      exact List.ne_nil_of_mem hi
    obtain ⟨m, hm, hnext, -⟩ := hr.next_ends h hends hne
      (h.boundaries c hc ((c.handlerOffset + c.handlerLength) % 2 ^ 32) (by simp [EhInfo.boundaries]))
    show NodeOrEnd _ (s'.m_pNext (ends _))
    rw [hnext]
    cases hdrop : s'.m_IL.drop m with
    | nil => exact Or.inl rfl
    | cons n ns =>
        refine Or.inr (List.mem_map_of_mem (List.mem_of_mem_drop (i := m) ?_))
        rw [hdrop]
        exact List.mem_cons_self

theorem RewrittenBody.exists_export (hcount : s'.m_nInstrs * 10 < 2 ^ 32) :
    ∃ rounds out, s'.exportBody rounds = some (.ok out) := by
  refine ⟨shortBranches s'.m_IL + 1, exists_exportBody hr.fat (hr.clauses_ready h hends)
    (hr.targetsInList h) ?_ (Nat.lt_succ_self _)⟩
  rw [maxSize, Nat.mod_eq_of_lt hcount, Nat.mul_comm]
  exact Nat.mul_le_mul_right 10 hr.counted

end Ends

/-! ### Exported ranges -/

theorem offsetDelta_span {target base : ℕ} (htarget : target < 2 ^ 32) :
    (base + offsetDelta target base) % 2 ^ 32 = target := by
  unfold offsetDelta
  omega

/-- What becomes of a range. -/
inductive ExportedRange (body : MethodBody) (is : List RawInstr) (gs : List Group) (il : List ILInstr)
    (r r' : ℕ × ℕ) : Prop
  | kept (hfirst : r'.1 = movedTo body is il r.1) (hlast : r'.2 = movedTo body is il r.2)
  | empty (hfirst : r'.1 = movedTo body is il r.1) (hempty : r.2 ≤ r.1) (hempty' : r'.2 ≤ r'.1)
  -- a handler that ended behind a `tail.` ends in front of it
  | cut {k : ℕ} {i : RawInstr} {g : Group} (hi : is[k]? = some i) (hg : gs[k]? = some g)
      (hfirst : r'.1 = movedTo body is il r.1) (htail : i.opcode = ceeTailcall)
      (hstart : r.1 ≤ i.offset) (hend : r.2 = i.next) (hcut : r'.2 ≤ layoutOffset il g.instr.addr)

/-- **Every range** is exported between its old boundaries, unless it is cut. -/
theorem RewrittenBody.exported_range {covProb : Probe → ProbeCall} {methodId : Int32} {isMain : Bool}
    {body : MethodBody} {is : List RawInstr} {s' : ILRewriter} {enter : List ILInstr} {gs : List Group}
    {ends : ℕ → ℕ} (hr : RewrittenBody covProb methodId isMain body is s' enter gs)
    (h : ValidBody body is) (hends : HandlerEnds body is s' gs ends) {il : List ILInstr}
    (hwidened : Widened s'.m_IL il) (hsize : totalSize il < 2 ^ 32) {eh : EhInfo} (heh : eh ∈ body.eh)
    (k : RangeKind) :
    Option.Rel (ExportedRange body is gs il) (eh.range k)
      ((clauseInfo (layoutOffset il) s'.m_pNext { clauseOf (targetOf is body.code.size) id eh with
        m_pHandlerEnd := ends ((eh.handlerOffset + eh.handlerLength) % 2 ^ 32) }).range k) := by
  have hlt : ∀ o, IsStart is o ∨ o = body.code.size → movedTo body is il o < 2 ^ 32 := by
    intro o ho
    have hold := hr.nodeOrEnd ho
    rw [NodeOrEnd, ← hwidened.map_addr] at hold
    exact lt_of_le_of_lt (layoutOffset_le hold) hsize
  have hboundary := h.boundaries eh heh
  cases k with
  | tryBlock =>
      exact .some (.kept rfl (offsetDelta_span (hlt _ (hboundary _ (by simp [EhInfo.boundaries])))))
  | filter =>
      simp only [EhInfo.range, clauseInfo, clauseOf]
      split
      · exact .some (.kept rfl rfl)
      · exact .none
  | handler =>
      have hstart := hboundary eh.handlerOffset (by simp [EhInfo.boundaries, EhInfo.entries])
      have hend := hboundary ((eh.handlerOffset + eh.handlerLength) % 2 ^ 32)
        (by simp [EhInfo.boundaries])
      have hne : is ≠ [] := by
        obtain ⟨i, hi, -⟩ := h.handler_isStart heh
        exact List.ne_nil_of_mem hi
      obtain ⟨m, hm, hnext, -⟩ := hr.next_ends h hends hne hend
      have hnextLt : layoutOffset il (s'.m_pNext
          (ends ((eh.handlerOffset + eh.handlerLength) % 2 ^ 32))) < 2 ^ 32 := by
        rw [hnext, hr.layoutOffset_head hwidened hm]
        refine lt_of_le_of_lt ?_ hsize
        rw [hwidened.length_eq] at hm
        exact (totalSize_take_le (hr.sized_widened h hwidened) hm (le_refl _)).trans
          (le_of_eq (by rw [List.take_length]))
      have hlast : (movedTo body is il eh.handlerOffset + offsetDelta _ (movedTo body is il _)) % 2 ^ 32
          = _ := offsetDelta_span hnextLt
      refine .some ?_
      dsimp only [clauseInfo, clauseOf]
      cases hr.exportedEnd h hends hwidened hne hend with
      | start ho hzero =>
          refine .empty rfl (by dsimp only; omega) ?_
          exact (le_of_eq (hlast.trans hzero)).trans (Nat.zero_le _)
      | boundary heq => exact .kept rfl (hlast.trans heq)
      | @tail j i g hi hg htail ho hle =>
          have hcut := (le_of_eq hlast).trans hle
          by_cases hbefore : eh.handlerOffset ≤ i.offset
          · exact .cut hi hg rfl htail hbefore ho.symm hcut
          · -- the handler starts behind the `tail.`, so that it is empty
            have hig : (i, g) ∈ is.zip gs :=
              List.mem_of_getElem? (List.getElem?_zip_eq_some.mpr ⟨hi, hg⟩)
            have hnot := (hr.movedTo_le_node_iff h hwidened hstart hig g.instr_mem).not.mpr hbefore
            obtain ⟨w, hw, hwoffset⟩ := h.handler_isStart heh
            have hnextLe : i.next ≤ eh.handlerOffset := by
              by_contra hgt
              have hlow := (h.decoded.consecutive.lt_next_iff hw (List.mem_of_getElem? hi)).mp
                (by omega)
              omega
            refine .empty rfl (by dsimp only; omega) (hcut.trans (le_of_lt ?_))
            exact lt_of_not_ge hnot

end TestExecutor
