import TestExecutor.Rewriter.OwnProbes
import TestExecutor.Rewriter.StackGrowth

/-!
# Where the probes end up

The insertion loops of `RewriteIL` as functions of the lists that the scan has collected.

* `Placement`, `nodeItems` — the probes around a node, and the items of its segment;
* `placed`, `foldl_insert` — the insertions at one node;
* `insertPriorityProbes_eq`, `insertTargetProbes_eq` — the two loops;
* `Grouped.not_isTailcallRet` — no branch is ever rerouted: where the target is the `ret` of a tail
  call, the offset in front of it is covered.
-/

namespace TestExecutor

open TestExecutor.Library

/-! ### The items around a node -/

/-- The probes in front of a node, in the order in which they run, and the one behind it. -/
structure Placement where
  before : List Probe
  after : Option Probe
  deriving DecidableEq, Repr

/-- The items in front of the instruction of a node. -/
def leadItems (probes : List Probe) (w : ILInstr) : List Item :=
  probes.flatMap fun p => [.instr ceeNop w.m_Arg64, .probe p w.m_offset]

/-- The items behind the instruction of a node. -/
def trailItems (probe : Option Probe) (w : ILInstr) : List Item :=
  probe.toList.flatMap fun p => [.probe p w.m_offset, .instr ceeNop 0]

def nodeItems (pl : Placement) (w : ILInstr) : List Item :=
  leadItems pl.before w ++ .instr w.m_opcode w.m_Arg64 :: trailItems pl.after w

/-- A segment ends with its instruction, or with a `nop` behind a probe. -/
theorem nodeItems_last (pl : Placement) (w : ILInstr) : (nodeItems pl w).getLast?
    = some (.instr w.m_opcode w.m_Arg64) ∨ (nodeItems pl w).getLast? = some (.instr ceeNop 0) := by
  obtain ⟨before, after⟩ := pl
  rw [nodeItems, List.getLast?_append]
  cases after with
  | none => exact Or.inl rfl
  | some p => exact Or.inr rfl

/-- The placement that insertions at one node lead to; the last one in front of the node runs
first. -/
def placed (ins : List ProbeInsertion) : Placement where
  before := ((ins.filter ProbeInsertion.isBeforeInstr).map ProbeInsertion.probe).reverse
  after := (ins.find? fun x => !x.isBeforeInstr).map ProbeInsertion.probe

/-- An insertion behind a node comes before all the others at it. -/
def AfterFirst (ins : List ProbeInsertion) : Prop := ∀ x ∈ ins.tail, x.isBeforeInstr = true

theorem insert_before (pl : Placement) (w : ILInstr) {x : ProbeInsertion}
    (hx : x.isBeforeInstr = true) : Item.insert w.m_offset (nodeItems pl w) x
      = nodeItems ⟨x.probe :: pl.before, pl.after⟩ w := by
  rw [Item.insert, if_pos hx]
  obtain ⟨before, after⟩ := pl
  cases before with
  | nil => rfl
  | cons p before => rfl

theorem foldl_insert_before (w : ILInstr) {ins : List ProbeInsertion}
    (hins : ∀ x ∈ ins, x.isBeforeInstr = true) (pl : Placement) :
    ins.foldl (Item.insert w.m_offset) (nodeItems pl w)
      = nodeItems ⟨(ins.map ProbeInsertion.probe).reverse ++ pl.before, pl.after⟩ w := by
  induction ins generalizing pl with
  | nil => rfl
  | cons x ins ih =>
      rw [List.foldl_cons, insert_before pl w (hins x List.mem_cons_self),
        ih fun y hy => hins y (List.mem_cons_of_mem x hy)]
      simp

/-- **The insertions at one node**, in their order. -/
theorem foldl_insert (w : ILInstr) {ins : List ProbeInsertion} (hins : AfterFirst ins) :
    ins.foldl (Item.insert w.m_offset) [.instr w.m_opcode w.m_Arg64] = nodeItems (placed ins) w := by
  cases ins with
  | nil => rfl
  | cons x ins =>
      have hrest : ∀ y ∈ ins, y.isBeforeInstr = true := hins
      have hall : ins.filter ProbeInsertion.isBeforeInstr = ins := List.filter_eq_self.mpr hrest
      have hnone : ins.find? (fun y => !y.isBeforeInstr) = none := by
        refine List.find?_eq_none.mpr fun y hy => ?_
        rw [hrest y hy]
        exact Bool.false_ne_true
      rw [List.foldl_cons]
      by_cases hx : x.isBeforeInstr = true
      · have hfirst : Item.insert w.m_offset [.instr w.m_opcode w.m_Arg64] x
            = nodeItems ⟨[x.probe], none⟩ w := insert_before ⟨[], none⟩ w hx
        rw [hfirst, foldl_insert_before w hrest, placed, List.filter_cons_of_pos hx, hall,
          List.find?_cons_of_neg (by rw [hx]; exact Bool.false_ne_true), hnone]
        simp
      · have hfirst : Item.insert w.m_offset [.instr w.m_opcode w.m_Arg64] x
            = nodeItems ⟨[], some x.probe⟩ w := if_neg hx
        rw [hfirst, foldl_insert_before w hrest, placed, List.filter_cons_of_neg hx, hall,
          List.find?_cons_of_pos (by simpa using hx)]
        simp

/-! ### The loop over the priority probes -/

section Loops

variable {covProb : Probe → ProbeCall} {methodId : Int32} {ws : List ILInstr}
  {eh : List EHClause} {its : ℕ → List Item} {segs : ℕ → List ILInstr} {s : ILRewriter}
  {w : ILInstr} {covered : Finset ℕ}

/-- **The first loop** makes at every node the insertions that go there, and collects the offsets of
these nodes. -/
theorem insertPriorityProbes_eq {P : List ProbeInsertion} (covered : Finset ℕ)
    (h : Grouped covProb methodId ws eh its segs s)
    (hP : ∀ x ∈ P, ∃ w ∈ ws, x.target = w.addr) :
    ∃ s' covered' its' segs',
      s.insertPriorityProbes covProb methodId P covered = .ok (s', covered')
        ∧ Grouped covProb methodId ws eh its' segs' s'
        ∧ (∀ w ∈ ws, its' w.addr
          = (insertionsAt P w.addr).foldl (Item.insert w.m_offset) (its w.addr))
        ∧ (∀ o, o ∈ covered' ↔
          o ∈ covered ∨ ∃ w ∈ ws, w.m_offset = o ∧ ∃ x ∈ P, x.target = w.addr)
        ∧ ∀ s₀, Accounted ws its s₀ s → Accounted ws its' s₀ s' := by
  induction P generalizing s covered its segs with
  | nil => exact ⟨s, covered, its, segs, rfl, h, fun _ _ => rfl, by simp, fun _ hacc => hacc⟩
  | cons x P ih =>
      obtain ⟨w, hw, hx⟩ := hP x List.mem_cons_self
      obtain ⟨s₁, segs₁, hok, h₁⟩ := h.makeProbeInsertion hw hx
      obtain ⟨s', covered', its', segs', hrest, hgrouped, hits, hcovered, hacc⟩ :=
        ih (insert (s₁.offsetAt x.target) covered) h₁
          fun y hy => hP y (List.mem_cons_of_mem x hy)
      refine ⟨s', covered', its', segs', ?_, hgrouped, ?_, ?_,
        fun s₀ h₀ => hacc s₀ (h₀.makeProbeInsertion h hw hx hok)⟩
      · rw [ILRewriter.insertPriorityProbes, hok]
        exact hrest
      · intro v hv
        rw [hits v hv]
        by_cases hvw : v.addr = w.addr
        · obtain rfl : v = w := List.inj_on_of_nodup_map h.nodup hv hw hvw
          rw [Function.update_self, ← hx, insertionsAt_cons_self, List.foldl_cons]
        · rw [Function.update_of_ne hvw, insertionsAt_cons_ne]
          rw [hx]
          exact Ne.symm hvw
      · intro o
        rw [hcovered, Finset.mem_insert, hx, h₁.offsetAt_eq hw]
        constructor
        · rintro ((rfl | ho) | ⟨v, hv, rfl, y, hy, hyv⟩)
          · exact Or.inr ⟨w, hw, rfl, x, List.mem_cons_self, hx⟩
          · exact Or.inl ho
          · exact Or.inr ⟨v, hv, rfl, y, List.mem_cons_of_mem x hy, hyv⟩
        · rintro (ho | ⟨v, hv, rfl, y, hy, hyv⟩)
          · exact Or.inl (Or.inr ho)
          · rcases List.mem_cons.mp hy with rfl | hy
            · obtain rfl : v = w :=
                List.inj_on_of_nodup_map h.nodup hv hw (hyv.symm.trans hx)
              exact Or.inl (Or.inl rfl)
            · exact Or.inr ⟨v, hv, rfl, y, hy, hyv⟩

/-! ### The loop over the branch targets -/

/-- The last node of a segment is a `tail.` only if the last item is. -/
theorem Realizes.last_tail {items : List Item} {seg : List ILInstr} {v : ILInstr}
    (h : Realizes covProb methodId items w seg) (hlast : seg.getLast? = some v)
    (hv : v.m_opcode = ceeTailcall) :
    items.getLast? = some (.instr ceeTailcall v.m_Arg64) := by
  rcases List.eq_nil_or_concat items with rfl | ⟨front, item, rfl⟩
  · obtain ⟨_, _, _, hstart⟩ := h.starts
    exact absurd hstart (List.cons_ne_nil _ _).symm
  · rw [List.concat_eq_append] at h ⊢
    have hcontents := congrArg List.getLast? h.contents
    rw [List.getLast?_map, hlast, List.flatMap_append, List.flatMap_singleton] at hcontents
    cases item with
    | instr opcode arg =>
        rw [Item.contents, List.getLast?_concat] at hcontents
        obtain ⟨rfl, rfl⟩ := Prod.mk.inj (Option.some.inj hcontents)
        rw [List.getLast?_concat, hv]
    | probe p offset =>
        rw [Item.contents, probeContents, List.getLast?_append] at hcontents
        have hcalli := (Prod.mk.inj (Option.some.inj hcontents)).1
        rw [hv] at hcalli
        exact absurd hcalli (by decide)

/-- **Nothing is rerouted** at a node without insertions, unless it stands behind a `tail.`. -/
theorem Grouped.not_isTailcallRet (h : Grouped covProb methodId ws eh its segs s) (hw : w ∈ ws)
    (hits : its w.addr = [.instr w.m_opcode w.m_Arg64])
    (hclean : ∀ v ∈ ws, ∀ arg, (its v.addr).getLast? = some (.instr ceeTailcall arg) →
      v.m_opcode = ceeTailcall)
    (hbehind : ∀ ws₁ v ws₂, ws = ws₁ ++ v :: w :: ws₂ → v.m_opcode ≠ ceeTailcall) :
    s.isTailcallRet (s.m_pNext w.addr) = false := by
  obtain ⟨ws₁, ws₂, i, rest, hws, -, -, hseg, haddr, -, hIL⟩ := h.split hw
  have hrest : rest = [] := by
    have hcontents := (h.realizes w hw).contents
    rw [hseg, hits] at hcontents
    exact (List.cons.inj hcontents).2 |> List.map_eq_nil_iff.mp
  rw [hrest, List.nil_append] at hIL
  rw [← haddr, h.linked.next_eq hIL]
  cases hpost : ws₂.flatMap fun w => segs w.addr with
  | nil =>
      have hnode : s.node pIL = none := findNode_of_notMem h.linked.pIL_notMem
      rw [headAddr, ILRewriter.isTailcallRet, ILRewriter.opcodeAt, hnode]
      rfl
  | cons j post =>
      rw [hpost] at hIL
      have hIL' := hIL
      rw [List.append_cons] at hIL'
      rw [headAddr, ILRewriter.isTailcallRet, h.linked.prev_eq hIL', lastAddr_concat,
        h.linked.prev_eq hIL]
      rcases h.linked.last_node hIL with ⟨-, hlast, hnode⟩ | ⟨u, hu, hlast, hnode⟩
      · rw [hlast, Bool.and_eq_false_iff]
        right
        rw [ILRewriter.opcodeAt, hnode]
        rfl
      · rw [hlast, Bool.and_eq_false_iff]
        right
        rw [ILRewriter.opcodeAt, hnode]
        refine decide_eq_false fun htail => ?_
        -- the node in front of this one is the last of a segment
        rcases List.eq_nil_or_concat ws₁ with rfl | ⟨front, v, rfl⟩
        · exact absurd hu (by simp)
        · rw [List.concat_eq_append] at hws hu
          have hv : v ∈ ws := by rw [hws]; simp
          obtain ⟨k, ks, hk, -, -⟩ := (h.realizes v hv).anchored
          rw [List.flatMap_append, List.flatMap_singleton, List.getLast?_append] at hu
          have hlastv : (segs v.addr).getLast? = some u := by
            rw [hk] at hu ⊢
            simpa using hu
          refine hbehind front v ws₂ (by rw [hws]; simp) (hclean v hv u.m_Arg64 ?_)
          exact (h.realizes v hv).last_tail hlastv (Option.some.inj htail)

/-- What the second loop finds: every offset that two nodes share is covered, and so is one that
stands behind a `tail.`; the other nodes are as they were. -/
structure Uncovered (ws : List ILInstr) (its : ℕ → List Item) (covered : Finset ℕ) : Prop where
  unique : ∀ v ∈ ws, ∀ w ∈ ws, v.m_offset = w.m_offset → v = w ∨ v.m_offset ∈ covered
  untouched : ∀ w ∈ ws, w.m_offset ∉ covered → its w.addr = [.instr w.m_opcode w.m_Arg64]
  clean : ∀ v ∈ ws, ∀ arg, (its v.addr).getLast? = some (.instr ceeTailcall arg) →
    v.m_opcode = ceeTailcall
  behindTail : ∀ ws₁ v w ws₂, ws = ws₁ ++ v :: w :: ws₂ → v.m_opcode = ceeTailcall →
    w.m_offset ∈ covered

theorem Uncovered.cover (h : Uncovered ws its covered) (hw : w ∈ ws)
    (hnodup : (ws.map ILInstr.addr).Nodup) (hfree : w.m_offset ∉ covered) (p : Probe) :
    Uncovered ws (Function.update its w.addr (Item.insertAfter p w.m_offset (its w.addr)))
      (insert w.m_offset covered) := by
  refine ⟨fun u hu v hv huv => ?_, fun v hv hcov => ?_, fun v hv arg hlast => ?_,
    fun ws₁ u v ws₂ hws hu => Finset.mem_insert_of_mem (h.behindTail ws₁ u v ws₂ hws hu)⟩
  · exact (h.unique u hu v hv huv).imp_right Finset.mem_insert_of_mem
  · rw [Finset.mem_insert, not_or] at hcov
    have hvw : v.addr ≠ w.addr := fun heq =>
      hcov.1 (congrArg ILInstr.m_offset (List.inj_on_of_nodup_map hnodup hv hw heq))
    rw [Function.update_of_ne hvw]
    exact h.untouched v hv hcov.2
  · by_cases hvw : v.addr = w.addr
    · rw [hvw, Function.update_self, h.untouched w hw hfree] at hlast
      exact absurd hlast (by simp [Item.insertAfter, ceeNop, ceeTailcall])
    · rw [Function.update_of_ne hvw] at hlast
      exact h.clean v hv arg hlast

/-- **The second loop** puts a probe behind every node that stands in front of a target and is not
covered. -/
theorem insertTargetProbes_eq (leaveMethod : Probe) {T : List ProbeInsertion}
    (h : Grouped covProb methodId ws eh its segs s) (hfree : Uncovered ws its covered)
    (hT : ∀ x ∈ T, x.probe = .coverage ∧ x.isBeforeInstr = false
      ∧ (x.target = pIL ∨ ∃ w ∈ ws, x.target = w.addr)) :
    ∃ s' its' segs', s.insertTargetProbes covProb methodId leaveMethod T covered = .ok s'
      ∧ Grouped covProb methodId ws eh its' segs' s'
      ∧ (∀ w ∈ ws, its' w.addr
        = if w.m_offset ∉ covered ∧ w.addr ∈ T.map ProbeInsertion.target
          then Item.insertAfter .coverage w.m_offset (its w.addr) else its w.addr)
      ∧ ∀ s₀, Accounted ws its s₀ s → Accounted ws its' s₀ s' := by
  induction T generalizing s covered its segs with
  | nil => exact ⟨s, its, segs, rfl, h, fun _ _ => (if_neg (by simp)).symm, fun _ hacc => hacc⟩
  | cons x T ih =>
      obtain ⟨hprobe, hafter, htarget⟩ := hT x List.mem_cons_self
      have hT' : ∀ y ∈ T, _ := fun y hy => hT y (List.mem_cons_of_mem x hy)
      rcases htarget with hpIL | ⟨w, hw, hx⟩
      · obtain ⟨s', its', segs', hok, hgrouped, hits, hacc⟩ := ih h hfree hT'
        refine ⟨s', its', segs', ?_, hgrouped, fun v hv => ?_, hacc⟩
        · rw [ILRewriter.insertTargetProbes]
          exact (if_pos (Or.inl hpIL)).trans hok
        · have hne : v.addr ≠ x.target := by
            obtain ⟨_, _, i, _, -, -, -, -, haddr, -, hIL⟩ := h.split hv
            rw [hpIL, ← haddr]
            exact (h.linked.split hIL).2.1
          rw [hits v hv]
          simp only [List.map_cons, List.mem_cons, hne, false_or]
      · have hoffset := h.offsetAt_eq hw
        by_cases hcov : w.m_offset ∈ covered
        · obtain ⟨s', its', segs', hok, hgrouped, hits, hacc⟩ := ih h hfree hT'
          refine ⟨s', its', segs', ?_, hgrouped, fun v hv => ?_, hacc⟩
          · rw [ILRewriter.insertTargetProbes]
            refine (if_pos (Or.inr ?_)).trans hok
            rw [hx, hoffset]
            exact hcov
          · rw [hits v hv]
            simp only [List.map_cons, List.mem_cons]
            by_cases hvw : v.addr = x.target
            · obtain rfl : v = w := List.inj_on_of_nodup_map h.nodup hv hw (hvw.trans hx)
              rw [if_neg (fun hboth => hboth.1 hcov), if_neg (fun hboth => hboth.1 hcov)]
            · simp only [hvw, false_or]
        · obtain ⟨s₁, segs₁, hok₁, h₁⟩ := h.makeProbeInsertion hw hx
          have hacc₁ := fun s₀ (h₀ : Accounted ws its s₀ s) => h₀.makeProbeInsertion h hw hx hok₁
          have hitems : Item.insert w.m_offset (its w.addr) x
              = Item.insertAfter .coverage w.m_offset (its w.addr) := by
            rw [Item.insert, if_neg (by rw [hafter]; exact Bool.false_ne_true), hprobe]
          rw [hitems] at h₁ hacc₁
          obtain ⟨s', its', segs', hok, hgrouped, hits, hacc⟩ :=
            ih h₁ (hfree.cover hw h.nodup hcov .coverage) hT'
          refine ⟨s', its', segs', ?_, hgrouped, fun v hv => ?_,
            fun s₀ h₀ => hacc s₀ (hacc₁ s₀ h₀)⟩
          · have hne : w.addr ≠ pIL := by
              obtain ⟨_, _, i, _, -, -, -, -, haddr, -, hIL⟩ := h.split hw
              rw [← haddr]
              exact (h.linked.split hIL).2.1
            have hdead : s.isTailcallRet (s.m_pNext w.addr) = false :=
              h.not_isTailcallRet hw (hfree.untouched w hw hcov) hfree.clean fun ws₁ v ws₂ hws hv =>
                hcov (hfree.behindTail ws₁ v w ws₂ hws hv)
            rw [ILRewriter.makeProbeInsertion, if_neg (by rw [hafter]; exact Bool.false_ne_true)]
              at hok₁
            rw [ILRewriter.insertTargetProbes]
            dsimp only
            rw [hx, hoffset, if_neg (not_or.mpr ⟨hne, hcov⟩), hdead, ← hx, hok₁]
            exact hok
          · rw [hits v hv]
            simp only [List.map_cons, List.mem_cons, Finset.mem_insert]
            by_cases hvw : v.addr = w.addr
            · obtain rfl : v = w := List.inj_on_of_nodup_map h.nodup hv hw hvw
              rw [if_neg (fun hboth => hboth.1 (Or.inl rfl)), Function.update_self,
                if_pos ⟨hcov, Or.inl hx.symm⟩]
            · rw [Function.update_of_ne hvw]
              have hne : v.addr ≠ x.target := by rw [hx]; exact hvw
              by_cases hoff : v.m_offset = w.m_offset
              · rcases hfree.unique v hv w hw hoff with rfl | hmem
                · exact absurd rfl hvw
                · rw [if_neg (fun hboth => hboth.1 (Or.inr hmem)),
                    if_neg (fun hboth => hboth.1 hmem)]
              · simp only [hoff, hne, false_or]

end Loops

end TestExecutor
