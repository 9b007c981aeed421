import TestExecutor.Rewriter.Insertions

/-!
# The stack counter

What the insertions add to `m_maxStack`, which counts what every inserted node pushes.

* `Pushed` — the counter has grown, the kind of header is the same, and new nodes were counted;
* `probePushes`, `enterPushes` — what the calls of probes push;
* `excess` — what the insertions at a node have added, read off the items of its segment: behind a
  probe in front of it, its instruction was counted twice;
* `scanFrom_pushed`, `Accounted.makeProbeInsertion` — the scan, and one insertion.
-/

namespace TestExecutor

open TestExecutor.Library

/-! ### Growth of the counter -/

/-- The counter is larger by `k`, up to its width. -/
structure Pushed (k : ℕ) (s s' : ILRewriter) : Prop where
  header : s'.m_fGenerateTinyHeader = s.m_fGenerateTinyHeader
  maxStack : s'.m_maxStack % 2 ^ 32 = (s.m_maxStack + k) % 2 ^ 32
  counted : s'.m_IL.length + s.m_nInstrs ≤ s.m_IL.length + s'.m_nInstrs

theorem Pushed.refl (s : ILRewriter) : Pushed 0 s s := ⟨rfl, rfl, le_refl _⟩

theorem Pushed.trans {k l : ℕ} {s s' s'' : ILRewriter} (h : Pushed k s s') (h' : Pushed l s' s'') :
    Pushed (k + l) s s'' := by
  refine ⟨h'.header.trans h.header, ?_, ?_⟩
  · rw [h'.maxStack, Nat.add_mod, h.maxStack, ← Nat.add_mod, Nat.add_assoc]
  · have h₁ := h.counted
    have h₂ := h'.counted
    omega

/-- What the call of a probe pushes. -/
def probePushes : ℕ :=
  rgnStackPushes ceeLdcI4 + rgnStackPushes ceeLdcI4 + rgnStackPushes ceeLdcI8
    + rgnStackPushes ceeCalli

/-- What the call of the probe at the entry pushes. -/
def enterPushes : ℕ :=
  rgnStackPushes ceeLdcI4 + rgnStackPushes ceeLdcI4 + rgnStackPushes ceeLdcI40
    + rgnStackPushes ceeLdcI8 + rgnStackPushes ceeCalli

theorem probePushes_eq : probePushes = 4 := by decide

theorem rgnStackPushes_nop : rgnStackPushes ceeNop = 0 := by decide

namespace ILRewriter

variable {s s' : ILRewriter}

theorem newBefore_pushed (s : ILRewriter) (p opcode arg : ℕ) :
    Pushed (rgnStackPushes opcode) s (s.newBefore p opcode arg) := by
  refine ⟨rfl, Nat.mod_mod _ _, ?_⟩
  have hlength : (s.newBefore p opcode arg).m_IL.length = s.m_IL.length + 1 :=
    (spliceBefore_perm p _ s.m_IL).length_eq
  show _ + _ ≤ _ + (s.m_nInstrs + 1)
  omega

theorem newAfter_pushed (s : ILRewriter) (p opcode arg : ℕ) :
    Pushed (rgnStackPushes opcode) s (s.newAfter p opcode arg) := by
  refine ⟨rfl, Nat.mod_mod _ _, ?_⟩
  have hlength : (s.newAfter p opcode arg).m_IL.length ≤ s.m_IL.length + 1 := by
    show (if p = pIL then _ else _ : List ILInstr).length ≤ _
    split
    · exact le_refl _
    · rcases @spliceAfter_perm _ ILInstr.addr p ⟨s.fresh, opcode, 0, arg⟩ s.m_IL with hperm | hsame
      · exact le_of_eq hperm.length_eq
      · have hsame' := congrArg List.length hsame
        exact le_of_eq_of_le hsame' (Nat.le_succ _)
  show _ + _ ≤ _ + (s.m_nInstrs + 1)
  omega

theorem modify_pushed (s : ILRewriter) (p : ℕ) (f : ILInstr → ILInstr) :
    Pushed 0 s (s.modify p f) := by
  refine ⟨rfl, rfl, ?_⟩
  have hlength : (s.modify p f).m_IL.length = s.m_IL.length := modifyNode_length p f s.m_IL
  rw [hlength]
  rfl

theorem correctHandlers_pushed (s : ILRewriter) (p q : ℕ) : Pushed 0 s (s.correctHandlers p q) :=
  ⟨rfl, rfl, le_refl _⟩

theorem countOffsets_pushed (s : ILRewriter) : Pushed 0 s s.countOffsets := by
  refine ⟨rfl, rfl, ?_⟩
  have hlength := congrArg List.length (countOffsetsFrom_map_content s.m_IL 0)
  rw [List.length_map, List.length_map] at hlength
  exact Nat.add_le_add_right (le_of_eq hlength) _

variable (covProb : Probe → ProbeCall) (methodId : Int32)

theorem addProbe_pushed (s : ILRewriter) (probe : ProbeCall) (p : ℕ) :
    Pushed (rgnStackPushes ceeLdcI8 + rgnStackPushes ceeCalli) s (s.addProbe probe p) :=
  (newBefore_pushed s p ceeLdcI8 probe.addr).trans (newBefore_pushed _ p ceeCalli probe.sig)

theorem addCall_pushed (s : ILRewriter) (p : ℕ) (probe : Probe) (offset : ℕ) :
    Pushed probePushes s (s.addCall covProb methodId p probe offset) := by
  have hldc := (newBefore_pushed s p ceeLdcI4 (offset % 2 ^ 32)).trans
    (newBefore_pushed _ p ceeLdcI4 (methodId.toBitVec.toNat % 2 ^ 32))
  have hcall := hldc.trans (addProbe_pushed _ (covProb probe) p)
  rw [← Nat.add_assoc] at hcall
  exact hcall

theorem addEnterProbe_pushed {probe : Probe} (h : s.addEnterProbe covProb methodId probe = .ok s') :
    Pushed enterPushes s s' := by
  rw [addEnterProbe] at h
  split at h
  · cases h
  · rename_i instr _
    obtain rfl := Except.ok.inj h
    have hldc := ((newBefore_pushed s s.first ceeLdcI4 (instr.m_offset % 2 ^ 32)).trans
      (newBefore_pushed _ s.first ceeLdcI4 (methodId.toBitVec.toNat % 2 ^ 32))).trans
        (newBefore_pushed _ s.first ceeLdcI40 0)
    have hcall := hldc.trans (addProbe_pushed _ (covProb probe) s.first)
    rw [← Nat.add_assoc] at hcall
    exact hcall

/-- The `nop` behind a probe pushes nothing. -/
theorem addCoverageProbeAfter_pushed {p : ℕ} {probe : Probe}
    (h : s.addCoverageProbeAfter covProb methodId p probe = .ok s') : Pushed probePushes s s' := by
  rw [addCoverageProbeAfter] at h
  split at h
  · cases h
  · rename_i instr _
    obtain rfl := Except.ok.inj h
    have hnop := newAfter_pushed s p ceeNop 0
    rw [rgnStackPushes_nop] at hnop
    have hcall := (hnop.trans (addCall_pushed covProb methodId _ s.fresh probe instr.m_offset)).trans
      (correctHandlers_pushed _ p s.fresh)
    rw [Nat.zero_add] at hcall
    exact hcall

/-- The copy of the instruction is counted again. -/
theorem addCoverageProbeBefore_pushed {p : ℕ} {i : ILInstr} {probe : Probe} (hi : s.node p = some i)
    (h : s.addCoverageProbeBefore covProb methodId p probe = .ok s') :
    Pushed (rgnStackPushes i.m_opcode + probePushes) s s' := by
  rw [addCoverageProbeBefore, hi] at h
  obtain rfl := Except.ok.inj h
  have hcopy := (newAfter_pushed s p i.m_opcode i.m_Arg64).trans
    (modify_pushed _ p fun i => { i with m_opcode := ceeNop })
  exact (hcopy.trans (addCall_pushed covProb methodId _ s.fresh probe i.m_offset)).trans
    (correctHandlers_pushed _ p s.fresh)

end ILRewriter

/-! ### The scan -/

namespace Scan

variable {leaveMethod : Probe} {st st' : Scan}

theorem target_rewriter {p branch : ℕ} (h : st.target p branch = .ok st') :
    st'.rewriter = st.rewriter := by
  rw [target] at h
  split at h
  · cases h
  · obtain rfl := Except.ok.inj h
    rfl

theorem switchTargets_rewriter {branch n : ℕ} : ∀ {curSwitchArg : ℕ} {st : Scan},
    switchTargets branch n curSwitchArg st = .ok st' → st'.rewriter = st.rewriter := by
  induction n with
  | zero =>
      intro curSwitchArg st h
      rw [Except.ok.inj h]
  | succ n ih =>
      intro curSwitchArg st h
      rw [switchTargets] at h
      split at h
      · cases h
      · rename_i slot _
        cases htarget : st.target slot.m_pTarget branch with
        | error e => rw [htarget] at h; cases h
        | ok st₁ =>
            rw [htarget] at h
            exact (ih h).trans (target_rewriter htarget)

/-- The only node that the scan makes is a `tail.`. -/
theorem scanInstr_pushed {p q : ℕ} {instr : ILInstr}
    (h : scanInstr leaveMethod p instr st = .ok (st', q)) : Pushed 0 st.rewriter st'.rewriter := by
  have hsame : st'.rewriter = st.rewriter → Pushed 0 st.rewriter st'.rewriter := by
    intro heq
    rw [heq]
    exact Pushed.refl _
  rw [scanInstr] at h
  dsimp only at h
  split at h
  · split at h
    · cases hslots : switchTargets p (loopBound instr.m_Arg32) (st.rewriter.m_pNext p)
          (st.priority ⟨p, nullPtr, .branch, true⟩) with
      | error e => rw [hslots] at h; cases h
      | ok st₁ =>
          rw [hslots] at h
          obtain rfl := (Prod.mk.inj (Except.ok.inj h)).1
          have hrewriter : st₁.rewriter = (st.priority ⟨p, nullPtr, .branch, true⟩).rewriter :=
            switchTargets_rewriter hslots
          exact hsame hrewriter
    · cases htarget : (st.priority ⟨p, nullPtr, .branch, true⟩).target instr.m_pTarget p with
      | error e => rw [htarget] at h; cases h
      | ok st₁ =>
          rw [htarget] at h
          obtain rfl := (Prod.mk.inj (Except.ok.inj h)).1
          have hrewriter : st₁.rewriter = (st.priority ⟨p, nullPtr, .branch, true⟩).rewriter :=
            target_rewriter htarget
          exact hsame hrewriter
  split at h
  · obtain rfl := (Prod.mk.inj (Except.ok.inj h)).1
    exact hsame rfl
  split at h
  · obtain rfl := (Prod.mk.inj (Except.ok.inj h)).1
    have htail := (ILRewriter.modify_pushed st.rewriter p fun i => { i with m_opcode := ceeNop }).trans
      (ILRewriter.newAfter_pushed _ p ceeTailcall 0)
    exact ((htail.trans (ILRewriter.modify_pushed _ _ _)).trans (ILRewriter.modify_pushed _ _ _))
  split at h
  · split at h
    · obtain rfl := (Prod.mk.inj (Except.ok.inj h)).1
      exact hsame rfl
    · obtain rfl := (Prod.mk.inj (Except.ok.inj h)).1
      exact hsame rfl
  split at h
  · split at h
    · obtain rfl := (Prod.mk.inj (Except.ok.inj h)).1
      exact hsame rfl
    · obtain rfl := (Prod.mk.inj (Except.ok.inj h)).1
      exact hsame rfl
  split at h
  · obtain rfl := (Prod.mk.inj (Except.ok.inj h)).1
    exact hsame rfl
  split at h
  · obtain rfl := (Prod.mk.inj (Except.ok.inj h)).1
    exact hsame rfl
  · obtain rfl := (Prod.mk.inj (Except.ok.inj h)).1
    exact hsame rfl

theorem scanFrom_pushed {fuel : ℕ} : ∀ {p : ℕ} {st : Scan},
    scanFrom leaveMethod fuel p st = .ok st' → Pushed 0 st.rewriter st'.rewriter := by
  induction fuel with
  | zero =>
      intro p st h
      rw [Except.ok.inj h]
      exact Pushed.refl _
  | succ fuel ih =>
      intro p st h
      rw [scanFrom] at h
      split at h
      · rw [Except.ok.inj h]
        exact Pushed.refl _
      split at h
      · cases h
      · rename_i instr _
        cases hround : scanInstr leaveMethod p instr st with
        | error e => rw [hround] at h; cases h
        | ok result =>
            obtain ⟨st₁, q⟩ := result
            rw [hround] at h
            exact (scanInstr_pushed hround).trans (ih h)

end Scan

/-! ### The insertions at a node -/

def Item.isProbe : Item → Bool
  | .instr _ _ => false
  | .probe _ _ => true

/-- The first item is the instruction of the node, or a `nop`. -/
def Headed (w : ILInstr) (items : List Item) : Prop :=
  ∃ opcode arg rest, items = .instr opcode arg :: rest ∧ (opcode = w.m_opcode ∨ opcode = ceeNop)

/-- What the insertions at a node have added to the counter. -/
def excess (w : ILInstr) (items : List Item) : ℕ :=
  probePushes * items.countP Item.isProbe
    + match items with
      | .instr opcode _ :: _ => if opcode = ceeNop then rgnStackPushes w.m_opcode else 0
      | _ => 0

theorem excess_single (w : ILInstr) (arg : ℕ) : excess w [.instr w.m_opcode arg] = 0 := by
  show probePushes * 0 + (if w.m_opcode = ceeNop then rgnStackPushes w.m_opcode else 0) = 0
  split
  · rename_i hnop
    rw [hnop, rgnStackPushes_nop]
    rfl
  · rfl

theorem sum_excess_single {ws : List ILInstr} {its : ℕ → List Item}
    (h : ∀ w ∈ ws, its w.addr = [.instr w.m_opcode w.m_Arg64]) :
    (ws.map fun w => excess w (its w.addr)).sum = 0 := by
  induction ws with
  | nil => rfl
  | cons w ws ih =>
      rw [List.map_cons, List.sum_cons, h w List.mem_cons_self, excess_single,
        ih fun v hv => h v (List.mem_cons_of_mem w hv)]

/-- The copy of the instruction is counted only where the instruction stood first. -/
theorem excess_insertBefore {w : ILInstr} {opcode arg : ℕ} {rest : List Item}
    (hop : opcode = w.m_opcode ∨ opcode = ceeNop) (p : Probe) (o : ℕ) :
    excess w (Item.insertBefore p o (.instr opcode arg :: rest))
      = excess w (.instr opcode arg :: rest) + (rgnStackPushes opcode + probePushes) := by
  simp only [Item.insertBefore, excess, List.countP_cons, Item.isProbe, Bool.false_eq_true,
    if_false, if_true, Nat.add_zero, Nat.mul_succ]
  split
  · rename_i hnop
    rw [hnop, rgnStackPushes_nop]
    omega
  · rename_i hne
    rw [hop.resolve_right hne]
    omega

theorem excess_insertAfter {w : ILInstr} {opcode arg : ℕ} {rest : List Item} (p : Probe) (o : ℕ) :
    excess w (Item.insertAfter p o (.instr opcode arg :: rest))
      = excess w (.instr opcode arg :: rest) + probePushes := by
  simp only [Item.insertAfter, excess, List.countP_cons, Item.isProbe, Bool.false_eq_true,
    if_false, if_true, Nat.add_zero, Nat.mul_succ]
  omega

/-- The counter has grown by what the items tell. -/
structure Accounted (ws : List ILInstr) (its : ℕ → List Item) (s₀ s : ILRewriter) : Prop where
  headed : ∀ w ∈ ws, Headed w (its w.addr)
  pushed : Pushed (ws.map fun w => excess w (its w.addr)).sum s₀ s

/-- The sum changes where the items do. -/
theorem sum_excess_update {ws : List ILInstr} {w : ILInstr} (hnodup : (ws.map ILInstr.addr).Nodup)
    (hw : w ∈ ws) {its : ℕ → List Item} {items : List Item} {k : ℕ}
    (hk : excess w items = excess w (its w.addr) + k) :
    (ws.map fun v => excess v (Function.update its w.addr items v.addr)).sum
      = (ws.map fun v => excess v (its v.addr)).sum + k := by
  obtain ⟨ws₁, ws₂, rfl⟩ := List.append_of_mem hw
  rw [List.map_append, List.map_cons, List.nodup_append] at hnodup
  have hupdate : ∀ vs : List ILInstr, w.addr ∉ vs.map ILInstr.addr →
      vs.map (fun v => excess v (Function.update its w.addr items v.addr))
        = vs.map fun v => excess v (its v.addr) := by
    intro vs hvs
    refine List.map_congr_left fun v hv => ?_
    rw [Function.update_of_ne]
    exact fun heq => hvs (heq ▸ List.mem_map_of_mem hv)
  have h₁ := hupdate ws₁ fun hmem => hnodup.2.2 _ hmem _ List.mem_cons_self rfl
  have h₂ := hupdate ws₂ (List.nodup_cons.mp hnodup.2.1).1
  rw [List.map_append, List.map_cons, List.sum_append, List.sum_cons, Function.update_self, h₁, h₂, hk,
    List.map_append, List.map_cons, List.sum_append, List.sum_cons]
  omega

section Insertion

variable {covProb : Probe → ProbeCall} {methodId : Int32} {ws : List ILInstr} {w : ILInstr}
  {eh : List EHClause} {its : ℕ → List Item} {segs : ℕ → List ILInstr} {s₀ s s' : ILRewriter}

/-- **One insertion** adds what its items gain. -/
theorem Accounted.makeProbeInsertion (h : Accounted ws its s₀ s)
    (hgrouped : Grouped covProb methodId ws eh its segs s) (hw : w ∈ ws) {x : ProbeInsertion}
    (hx : x.target = w.addr) (hok : s.makeProbeInsertion covProb methodId x = .ok s') :
    Accounted ws (Function.update its w.addr (Item.insert w.m_offset (its w.addr) x)) s₀ s' := by
  obtain ⟨i, hnode, -, rest, hits⟩ := hgrouped.node_eq hw
  have hop : i.m_opcode = w.m_opcode ∨ i.m_opcode = ceeNop := by
    obtain ⟨opcode, arg, rest', hits', hop⟩ := h.headed w hw
    obtain ⟨heq, -⟩ := List.cons.inj (hits.symm.trans hits')
    rwa [(Item.instr.inj heq).1]
  obtain ⟨k, hgain, hpushed, hheaded⟩ : ∃ k,
      excess w (Item.insert w.m_offset (its w.addr) x) = excess w (its w.addr) + k
        ∧ Pushed k s s' ∧ Headed w (Item.insert w.m_offset (its w.addr) x) := by
    rw [hits, Item.insert]
    rw [ILRewriter.makeProbeInsertion, hx] at hok
    split
    · rename_i hbefore
      rw [if_pos hbefore] at hok
      exact ⟨_, excess_insertBefore hop _ _,
        ILRewriter.addCoverageProbeBefore_pushed covProb methodId hnode hok, _, _, _, rfl, Or.inr rfl⟩
    · rename_i hafter
      rw [if_neg hafter] at hok
      exact ⟨_, excess_insertAfter _ _,
        ILRewriter.addCoverageProbeAfter_pushed covProb methodId hok, _, _, _, rfl, hop⟩
  refine ⟨fun v hv => ?_, ?_⟩
  · by_cases hvw : v.addr = w.addr
    · obtain rfl : v = w := List.inj_on_of_nodup_map hgrouped.nodup hv hw hvw
      rw [Function.update_self]
      exact hheaded
    · rw [Function.update_of_ne hvw]
      exact h.headed v hv
  · rw [sum_excess_update hgrouped.nodup hw hgain]
    exact h.pushed.trans hpushed

end Insertion

end TestExecutor
