import TestExecutor.IL.BlockLookup
import TestExecutor.IL.CfgExact
import TestExecutor.Library.Loops

/-!
# What a graph can be asked

The members of `CfgInfo` that look an offset up, on an exact graph.

* `CfgInfo.entryPoint`, `CfgInfo.isBasicBlockStart`, `CfgInfo.hasSiblings` — the members;
* `Method.cfgExact`, `CfgExact.resolve_spec`, `CfgExact.resolve_final` — the graph, and the lookup;
* `CfgExact.hasSiblings_block`, `CfgExact.hasSiblings_start` — siblings are the other ways out of where
  control comes from;
* `queries_exact` — the answers in terms of the control flow.
-/

namespace TestExecutor

open TestExecutor.Library

variable {m : Method} {eh : List EhInfo} {is : List RawInstr} {cfg : CfgInfo}

/-! ### The members -/

/-- `siblings.UnionWith` of the outgoing edges of a block. -/
def unionOutgoing (basicBlocks : ℕ → BasicBlock) (siblings : HashSet ℕ) (bb : ℕ) : HashSet ℕ :=
  match (basicBlocks bb).outgoingEdges with
  | none => siblings
  | some edges => edges.elems.foldl .insert siblings

/-- `HasSiblings` of a block. -/
def BasicBlock.hasSiblings (basicBlocks : ℕ → BasicBlock) (block : BasicBlock) : Bool :=
  let siblings := block.incomingCFGEdges.elems.foldl (unionOutgoing basicBlocks) .empty
  decide (siblings.elems.length > 1)

namespace CfgInfo

def entryPoint (cfg : CfgInfo) : Except CfgError ℕ := cfg.sortedBlock 0

def isBasicBlockStart (cfg : CfgInfo) (offset : ℕ) : Except CfgError Bool := do
  let block ← cfg.resolveBasicBlock offset
  pure (decide ((cfg.basicBlocks block).startOffset = offset))

def hasSiblings (cfg : CfgInfo) (offset : ℕ) : Except CfgError Bool := do
  let basicBlock ← cfg.resolveBasicBlock offset
  pure ((cfg.basicBlocks basicBlock).hasSiblings cfg.basicBlocks)

end CfgInfo

/-! ### The lookup -/

/-- A graph that the constructor has returned is exact. -/
theorem Method.cfgExact {body : MethodBody} {resolves : ℕ → Bool} (hvalid : ValidBody body is)
    (hm : Method.ofBody body resolves = .ok m) (hstarts : SameStarts m is)
    (hplain : ∀ i ∈ is, i.opcode ≠ ceeTailcall ∧ i.opcode ≠ ceeJmp)
    (hresolves : ∀ i ∈ is, i.IsDemandingCall → resolves i.operand = true) {fuel : ℕ}
    (hrun : m.cfgInfo fuel = .ok cfg) : CfgExact m body.eh is cfg := by
  have hwalkable := Method.walkable hvalid hm hstarts hplain hresolves
  obtain ⟨s, hwalks, hdiscovered⟩ := walks_discover hwalkable (Nat.lt_succ_self is.length)
  rw [← Method.startVertices_eq hvalid hm] at hwalks
  obtain ⟨cfg', hcfg', hexact⟩ := cfgInfo_of_discovered hwalkable hstarts hwalks hdiscovered
  -- both runs end alike with the fuel of both
  have hboth := cfgInfo_mono (Nat.le_add_right fuel (is.length + 1)) hrun
  rw [cfgInfo_mono (Nat.le_add_left _ fuel) hcfg'] at hboth
  exact Except.ok.inj hboth ▸ hexact

namespace CfgExact

variable (h : CfgExact m eh is cfg)

include h

theorem exists_first : ∃ b ∈ cfg.sortedBasicBlocks, (cfg.basicBlocks b).startOffset = 0 :=
  (h.starts 0).mpr (Or.inl List.mem_cons_self)

/-- Every offset leads to the last block that starts at or in front of it. -/
theorem resolve_spec (hcount : cfg.sortedBasicBlocks.length ≤ 2 ^ 30 + 1) (o : ℕ) :
    ∃ b ∈ cfg.sortedBasicBlocks, cfg.resolveBasicBlock o = .ok b
      ∧ (cfg.basicBlocks b).startOffset ≤ o
      ∧ ∀ c ∈ cfg.sortedBasicBlocks, (cfg.basicBlocks c).startOffset ≤ o →
        (cfg.basicBlocks c).startOffset ≤ (cfg.basicBlocks b).startOffset := by
  have hs : cfg.IsSorted := h.sorted
  obtain ⟨first, hfirst, hzero⟩ := h.exists_first
  have hpos : 0 < cfg.sortedBasicBlocks.length := List.length_pos_of_mem hfirst
  have hstart : cfg.startAt 0 ≤ o := by
    obtain ⟨i, hi, hget⟩ := List.mem_iff_getElem.mp hfirst
    have hle := hs.startAt_le (Nat.zero_le i) hi
    rw [CfgInfo.startAt_getElem hi, hget, hzero] at hle
    exact hle.trans (Nat.zero_le o)
  obtain ⟨k, hk, hle, hgt⟩ := CfgInfo.exists_lastIndex hs hpos hstart
  have hindex : cfg.resolveBasicBlockIndex o = .ok (Int32.ofNat k) := by
    rw [CfgInfo.resolveBasicBlockIndex_eq hpos]
    exact CfgInfo.binSearch_eq hcount hle hgt _ 0 _ (Nat.zero_le k) (by omega) (by omega) (by omega)
  have hnonneg : ¬Int32.ofNat k < 0 := by
    rw [Int32.lt_iff_toInt_lt, Int32.toInt_ofNat_of_lt (by omega), Int32.toInt_zero]
    omega
  obtain ⟨b, hb, hgreatest⟩ := CfgInfo.isBlockOf_of_last hk hs hle hgt
  refine ⟨b, List.mem_of_getElem? hb, ?_, hgreatest.1.1, fun c hc hco => hgreatest.2 ⟨hco, c, hc, rfl⟩⟩
  rw [CfgInfo.resolveBasicBlock, hindex]
  change cfg.sortedBlock (Int32.ofNat k) = _
  rw [CfgInfo.sortedBlock, if_neg hnonneg, Int32.toNatClampNeg_ofNat_of_lt (by omega), hb]

theorem nodup : cfg.sortedBasicBlocks.Nodup :=
  h.sorted.imp fun hlt heq => absurd (heq ▸ hlt) (lt_irrefl _)

/-- Blocks do not overlap. -/
theorem eq_of_overlap {b c : ℕ} (hb : b ∈ cfg.sortedBasicBlocks) (hc : c ∈ cfg.sortedBasicBlocks)
    {o : ℕ} (ho : IsStart is o)
    (hbo : (cfg.basicBlocks b).startOffset ≤ o ∧ o ≤ (cfg.basicBlocks b).finalOffset)
    (hco : (cfg.basicBlocks c).startOffset ≤ o ∧ o ≤ (cfg.basicBlocks c).finalOffset) : b = c := by
  obtain ⟨i, hi, rfl⟩ := ho
  exact (h.covers _ (h.inside b hb i hi hbo.1 hbo.2).1).unique ⟨hb, hbo⟩ ⟨hc, hco⟩

/-- **The end of a block leads to the block.** -/
theorem resolve_final (hcount : cfg.sortedBasicBlocks.length ≤ 2 ^ 30 + 1) {b : ℕ}
    (hb : b ∈ cfg.sortedBasicBlocks) :
    cfg.resolveBasicBlock (cfg.basicBlocks b).finalOffset = .ok b := by
  obtain ⟨c, hc, hresolve, hle, hlast⟩ := h.resolve_spec hcount (cfg.basicBlocks b).finalOffset
  obtain ⟨hstart, -, hbounds⟩ := h.bounds c hc
  obtain ⟨-, -, hle'⟩ := h.bounds b hb
  obtain rfl := h.eq_of_overlap hb hc hstart ⟨hlast b hb hle', hle⟩ ⟨le_refl _, hbounds⟩
  exact hresolve

end CfgExact

/-! ### Siblings -/

theorem mem_foldl_unionOutgoing {basicBlocks : ℕ → BasicBlock} {c : ℕ} (bbs : List ℕ) :
    ∀ siblings : HashSet ℕ, c ∈ bbs.foldl (unionOutgoing basicBlocks) siblings ↔ c ∈ siblings
      ∨ ∃ p ∈ bbs, ∃ edges, (basicBlocks p).outgoingEdges = some edges ∧ c ∈ edges := by
  induction bbs with
  | nil => simp
  | cons bb bbs ih =>
      intro siblings
      have hhead : c ∈ unionOutgoing basicBlocks siblings bb ↔ c ∈ siblings
          ∨ ∃ edges, (basicBlocks bb).outgoingEdges = some edges ∧ c ∈ edges := by
        rw [unionOutgoing]
        split
        · rename_i hnone
          simp [hnone]
        · rename_i edges hsome
          rw [HashSet.mem_foldl_insert]
          simp [hsome, HashSet.mem_def]
      rw [List.foldl_cons, ih, hhead, List.exists_mem_cons_iff, or_assoc]

namespace CfgExact

variable (h : CfgExact m eh is cfg)

include h

/-- A block has siblings iff some block in front of it has an edge to another one. -/
theorem hasSiblings_block {b : ℕ} (hb : b ∈ cfg.sortedBasicBlocks) :
    (cfg.basicBlocks b).hasSiblings cfg.basicBlocks = true
      ↔ ∃ p ∈ cfg.sortedBasicBlocks, ∃ edges, (cfg.basicBlocks p).outgoingEdges = some edges
        ∧ b ∈ edges ∧ ∃ c ∈ edges, c ≠ b := by
  have hmem : ∀ c, c ∈ (cfg.basicBlocks b).incomingCFGEdges.elems.foldl
      (unionOutgoing cfg.basicBlocks) .empty ↔ ∃ p ∈ cfg.sortedBasicBlocks, ∃ edges,
        (cfg.basicBlocks p).outgoingEdges = some edges ∧ b ∈ edges ∧ c ∈ edges := by
    intro c
    rw [mem_foldl_unionOutgoing]
    constructor
    · rintro (hempty | ⟨p, hp, edges, hedges, hc⟩)
      · exact absurd hempty HashSet.notMem_empty
      · obtain ⟨hp, edges', hedges', hbe⟩ := (h.incoming b hb p).mp hp
        rw [hedges] at hedges'
        cases hedges'
        exact ⟨p, hp, edges, hedges, hbe, hc⟩
    · rintro ⟨p, hp, edges, hedges, hbe, hc⟩
      exact Or.inr ⟨p, (h.incoming b hb p).mpr ⟨hp, edges, hedges, hbe⟩, edges, hedges, hc⟩
  rw [BasicBlock.hasSiblings, decide_eq_true_eq, gt_iff_lt, HashSet.one_lt_length_iff]
  constructor
  · rintro ⟨c, hc, d, hd, hcd⟩
    -- one of the two is another block
    obtain ⟨e, he, hne⟩ : ∃ e, (∃ p ∈ cfg.sortedBasicBlocks, ∃ edges,
        (cfg.basicBlocks p).outgoingEdges = some edges ∧ b ∈ edges ∧ e ∈ edges) ∧ e ≠ b := by
      by_cases hcb : c = b
      · exact ⟨d, (hmem d).mp hd, fun hdb => hcd (hcb.trans hdb.symm)⟩
      · exact ⟨c, (hmem c).mp hc, hcb⟩
    obtain ⟨p, hp, edges, hedges, hbe, hee⟩ := he
    exact ⟨p, hp, edges, hedges, hbe, e, hee, hne⟩
  · rintro ⟨p, hp, edges, hedges, hbe, c, hce, hne⟩
    exact ⟨c, (hmem c).mpr ⟨p, hp, edges, hedges, hbe, hce⟩,
      b, (hmem b).mpr ⟨p, hp, edges, hedges, hbe, hbe⟩, hne⟩

/-- Where control comes from has another way out iff there are siblings. -/
theorem hasSiblings_start (hcons : Consecutive 0 is m.bytecode.size) {b : ℕ}
    (hb : b ∈ cfg.sortedBasicBlocks) :
    (cfg.basicBlocks b).hasSiblings cfg.basicBlocks = true
      ↔ ∃ i ∈ is, Reachable eh is i.offset ∧ (cfg.basicBlocks b).startOffset ∈ i.successors
        ∧ ∃ u ∈ i.successors, u ≠ (cfg.basicBlocks b).startOffset := by
  rw [h.hasSiblings_block hb]
  constructor
  · rintro ⟨p, hp, edges, hedges, hbe, c, hce, hne⟩
    obtain ⟨-, i, hi, hoffset, ht⟩ := (h.outgoing p hp b).mp ⟨edges, hedges, hbe⟩
    obtain ⟨hc, i', hi', hoffset', hu⟩ := (h.outgoing p hp c).mp ⟨edges, hedges, hce⟩
    obtain rfl := hcons.eq_of_offset hi' hi (hoffset'.trans hoffset.symm)
    obtain ⟨-, -, hple⟩ := h.bounds p hp
    refine ⟨i', hi, (h.inside p hp i' hi (hoffset ▸ hple) (le_of_eq hoffset)).1, ht, _, hu, ?_⟩
    intro hstart
    obtain ⟨hbstart, -, hble⟩ := h.bounds b hb
    obtain ⟨-, -, hcle⟩ := h.bounds c hc
    exact hne (h.eq_of_overlap hc hb hbstart ⟨le_of_eq hstart, hstart ▸ hcle⟩ ⟨le_refl _, hble⟩)
  · rintro ⟨i, hi, hreach, ht, u, hu, hne⟩
    have hends : i.EndsBlock := by
      by_contra hnot
      rw [RawInstr.successors_of_not_endsBlock hnot, List.mem_singleton] at ht hu
      exact hne (hu.trans ht.symm)
    obtain ⟨p, ⟨hp, hle₁, hle₂⟩, -⟩ := h.covers i.offset hreach
    have hfinal := ((h.inside p hp i hi hle₁ hle₂).2).mpr (Or.inl hends)
    obtain ⟨c, hc, rfl⟩ := (h.starts u).mpr (Or.inr ⟨i, hi, hreach, hends, hu⟩)
    obtain ⟨edges, hedges, hbe⟩ := (h.outgoing p hp b).mpr ⟨hb, i, hi, hfinal, ht⟩
    obtain ⟨edges', hedges', hce⟩ := (h.outgoing p hp c).mpr ⟨hc, i, hi, hfinal, hu⟩
    rw [hedges] at hedges'
    cases hedges'
    exact ⟨p, hp, edges, hedges, hbe, c, hce, fun hcb => hne (by rw [hcb])⟩

/-! ### The queries -/

/-- The first block is that of the first instruction. -/
theorem entryPoint_spec : ∃ b ∈ cfg.sortedBasicBlocks, cfg.entryPoint = .ok b
    ∧ (cfg.basicBlocks b).startOffset = 0 := by
  obtain ⟨first, hfirst, hzero⟩ := h.exists_first
  have hsorted := h.sorted
  rw [CfgInfo.entryPoint, CfgInfo.sortedBlock, if_neg (by decide)]
  cases hblocks : cfg.sortedBasicBlocks with
  | nil => simp [hblocks] at hfirst
  | cons b bs =>
      refine ⟨b, List.mem_cons_self, rfl, ?_⟩
      rw [hblocks] at hfirst hsorted
      rcases List.mem_cons.mp hfirst with rfl | hlater
      · exact hzero
      · have := (List.pairwise_cons.mp hsorted).1 first hlater
        omega

/-- The block of an offset starts at the last leader that is not behind it. -/
theorem resolve_isGreatest (hcount : cfg.sortedBasicBlocks.length ≤ 2 ^ 30 + 1) (o : ℕ) :
    ∃ b ∈ cfg.sortedBasicBlocks, cfg.resolveBasicBlock o = .ok b
      ∧ IsGreatest {t | t ≤ o ∧ Leader eh is t} (cfg.basicBlocks b).startOffset := by
  obtain ⟨b, hb, hresolve, hle, hlast⟩ := h.resolve_spec hcount o
  refine ⟨b, hb, hresolve, ⟨hle, (h.starts _).mp ⟨b, hb, rfl⟩⟩, ?_⟩
  rintro t ⟨hto, hleader⟩
  obtain ⟨c, hc, rfl⟩ := (h.starts t).mpr hleader
  exact hlast c hc hto

end CfgExact

section Body

variable {body : MethodBody} {resolves : ℕ → Bool}

/-- **What a graph answers.**  On a valid body without `tail.` and `jmp`, whose managed instructions
start where the decoded ones do and whose call tokens can be resolved, a graph of at most `2 ^ 30 + 1`
blocks has its entry at the first instruction, an offset is a block start iff it is a leader, and the
block of an offset has siblings iff control can come to its leader from where it can also go elsewhere. -/
theorem queries_exact (hvalid : ValidBody body is) (hm : Method.ofBody body resolves = .ok m)
    (hstarts : SameStarts m is) (hplain : ∀ i ∈ is, i.opcode ≠ ceeTailcall ∧ i.opcode ≠ ceeJmp)
    (hresolves : ∀ i ∈ is, i.IsDemandingCall → resolves i.operand = true) {fuel : ℕ}
    (hrun : m.cfgInfo fuel = .ok cfg) (hcount : cfg.sortedBasicBlocks.length ≤ 2 ^ 30 + 1) :
    (∃ b ∈ cfg.sortedBasicBlocks, cfg.entryPoint = .ok b ∧ (cfg.basicBlocks b).startOffset = 0)
      ∧ ∀ o, ∃ t, IsGreatest {t | t ≤ o ∧ Leader body.eh is t} t
        ∧ (∃ starts, cfg.isBasicBlockStart o = .ok starts ∧ (starts = true ↔ Leader body.eh is o))
        ∧ ∃ siblings, cfg.hasSiblings o = .ok siblings ∧ (siblings = true
          ↔ ∃ i ∈ is, Reachable body.eh is i.offset ∧ t ∈ i.successors
            ∧ ∃ u ∈ i.successors, u ≠ t) := by
  have h := Method.cfgExact hvalid hm hstarts hplain hresolves hrun
  have hcons := (Method.walkable hvalid hm hstarts hplain hresolves).consecutive
  refine ⟨h.entryPoint_spec, fun o => ?_⟩
  obtain ⟨b, hb, hresolve, hgreatest⟩ := h.resolve_isGreatest hcount o
  have hstart : (cfg.basicBlocks b).startOffset = o ↔ Leader body.eh is o := by
    constructor
    · intro heq
      exact heq ▸ hgreatest.1.2
    · intro hleader
      exact le_antisymm hgreatest.1.1 (hgreatest.2 ⟨le_refl o, hleader⟩)
  refine ⟨_, hgreatest, ⟨decide ((cfg.basicBlocks b).startOffset = o), ?_, ?_⟩, _, ?_,
    h.hasSiblings_start hcons hb⟩
  · rw [CfgInfo.isBasicBlockStart, hresolve]
    rfl
  · rw [decide_eq_true_iff, hstart]
  · rw [CfgInfo.hasSiblings, hresolve]
    rfl

/-- The graph of a small loop has three blocks. -/
theorem loopBody_cfgInfo : ∃ m cfg, Method.ofBody loopBody (fun _ => true) = .ok m
    ∧ SameStarts m loopInstrs ∧ m.cfgInfo 5 = .ok cfg ∧ cfg.sortedBasicBlocks.length = 3 := by
  obtain ⟨m, hm, hstarts⟩ := loopBody_sameStarts
  have hcfg : (Method.ofBody loopBody (fun _ => true)).toOption.bind
      (fun m => (m.cfgInfo 5).toOption.map fun cfg => cfg.sortedBasicBlocks.length) = some 3 := by
    decide +kernel
  rw [hm] at hcfg
  obtain ⟨cfg, hrun, hlength⟩ := Option.map_eq_some_iff.mp hcfg
  exact ⟨m, cfg, hm, hstarts, eq_ok_of_toOption hrun, hlength⟩

/-- The block that the loop jumps back to has a sibling behind the loop. -/
theorem queries_exact_loop : ∃ m cfg, Method.ofBody loopBody (fun _ => true) = .ok m
    ∧ m.cfgInfo 5 = .ok cfg ∧ cfg.hasSiblings 1 = .ok true := by
  obtain ⟨m, cfg, hm, hstarts, hrun, hlength⟩ := loopBody_cfgInfo
  obtain ⟨-, hqueries⟩ := queries_exact loopBody_valid hm hstarts (by decide) (by decide) hrun
    (by rw [hlength]; decide)
  obtain ⟨t, hgreatest, -, siblings, hsiblings, hiff⟩ := hqueries 1
  have hreach : Reachable [] loopInstrs 2 :=
    Reachable.step (Reachable.step (Reachable.entry List.mem_cons_self)
      ⟨⟨0, 0x00, 0, []⟩, by decide, rfl, by decide⟩) ⟨⟨1, 0x17, 0, []⟩, by decide, rfl, by decide⟩
  -- the branch at 2 goes back to 1
  have hleader : Leader [] loopInstrs 1 :=
    Or.inr ⟨⟨2, 0x2D, 0xFD, []⟩, by decide, hreach, by decide, by decide⟩
  obtain rfl : t = 1 := le_antisymm hgreatest.1.1 (hgreatest.2 ⟨le_refl 1, hleader⟩)
  obtain rfl : siblings = true :=
    hiff.mpr ⟨⟨2, 0x2D, 0xFD, []⟩, by decide, hreach, by decide, 4, by decide, by decide⟩
  exact ⟨m, cfg, hm, hrun, hsiblings⟩

end Body

end TestExecutor
