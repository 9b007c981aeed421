import Mathlib.Data.Finset.Union
import Mathlib.Data.Set.Card
import TestExecutor.Coverage.CoverageTool
import TestExecutor.IL.GraphQueries
import TestExecutor.Library.Loops

/-!
# Covered blocks

What the coverage tool makes of reports on an exact graph: the blocks at whose final offsets there are
records, and their sizes.

* `CfgInfo.Hits`, `visitedBlocksOf_sound` — on any graph, there are records at the ends of the blocks that
  are counted;
* `CfgExact.visitedBlocksOf_spec` — the blocks that are counted on an exact graph;
* `CfgInfo.offsetsOf`, `CfgExact.methodSize_eq`, `CfgExact.coveredSize_eq` — sizes are numbers of
  reachable instructions.
-/

namespace TestExecutor

open TestExecutor.Library InteractionCoverageTool

variable {m : Method} {eh : List EhInfo} {is : List RawInstr} {cfg : CfgInfo}

/-- The size of a method is the sum of the sizes of its blocks. -/
theorem Method.cfgInfo_sizes (m : Method) {fuel : ℕ} (hrun : m.cfgInfo fuel = .ok cfg) :
    ∃ sizes, cfg.sortedBasicBlocks.mapM (fun b => m.blockSize (cfg.basicBlocks b)) = .ok sizes
      ∧ cfg.methodSize = sizes.sum := by
  obtain ⟨s, -, hrun⟩ := exists_of_bind_eq_ok hrun
  obtain ⟨sizes, hsizes, hrun⟩ := exists_of_bind_eq_ok hrun
  obtain rfl := Except.ok.inj hrun
  exact ⟨sizes, hsizes, rfl⟩

/-! ### The blocks that are counted -/

/-- A location of the method at the end of a block. -/
def CfgInfo.Hits (cfg : CfgInfo) (token : Int32) (moduleName : List UInt16) (loc : CoverageLocation)
    (b : ℕ) : Prop :=
  loc.methodToken = token ∧ loc.moduleName = moduleName
    ∧ ((cfg.basicBlocks b).finalOffset : ℤ) = loc.offset.toInt

theorem CfgInfo.mem_of_resolveBasicBlock {offset b : ℕ} (hrun : cfg.resolveBasicBlock offset = .ok b) :
    b ∈ cfg.sortedBasicBlocks := by
  obtain ⟨index, -, hrun⟩ := exists_of_bind_eq_ok hrun
  rw [sortedBlock] at hrun
  split at hrun
  · cases hrun
  · split at hrun
    · cases hrun
    · rename_i hget
      obtain rfl := Except.ok.inj hrun
      exact List.mem_of_getElem? hget

section Sound

variable {token : Int32} {moduleName : List UInt16}

theorem visitLocation_sound {visitedBlocks visitedBlocks' : HashSet ℕ} {loc : CoverageLocation}
    (hrun : visitLocation cfg token moduleName visitedBlocks loc = .ok visitedBlocks') :
    ∀ b ∈ visitedBlocks', b ∈ visitedBlocks
      ∨ (b ∈ cfg.sortedBasicBlocks ∧ cfg.Hits token moduleName loc b) := by
  intro b hb
  rw [visitLocation] at hrun
  split at hrun
  · rename_i hmethod
    obtain ⟨c, hresolve, hrun⟩ := exists_of_bind_eq_ok hrun
    split at hrun
    · rename_i hfinal
      obtain rfl := Except.ok.inj hrun
      rcases HashSet.mem_insert.mp hb with rfl | hb
      · exact Or.inr ⟨CfgInfo.mem_of_resolveBasicBlock hresolve, hmethod.1, hmethod.2, hfinal⟩
      · exact Or.inl hb
    · obtain rfl := Except.ok.inj hrun
      exact Or.inl hb
  · obtain rfl := Except.ok.inj hrun
    exact Or.inl hb

/-- **Nothing else is counted.**  At the end of a block that is counted there is a location. -/
theorem visitedBlocksOf_sound {visited : List CoverageReport} {blocks : HashSet ℕ}
    (hrun : visitedBlocksOf cfg token moduleName visited = .ok blocks) :
    ∀ b ∈ blocks, b ∈ cfg.sortedBasicBlocks
      ∧ ∃ report ∈ visited, ∃ loc ∈ report.coverageLocations, cfg.Hits token moduleName loc b := by
  refine foldlM_invariant (fun (seen : List CoverageReport) (s : HashSet ℕ) =>
    ∀ b ∈ s, b ∈ cfg.sortedBasicBlocks
      ∧ ∃ report ∈ seen, ∃ loc ∈ report.coverageLocations, cfg.Hits token moduleName loc b) ?_
    (by simp) hrun
  intro pre report post s s' _ hs hreport
  have hlocs := foldlM_invariant (fun (seen : List CoverageLocation) (s' : HashSet ℕ) =>
    ∀ b ∈ s', b ∈ s ∨ (b ∈ cfg.sortedBasicBlocks ∧ ∃ loc ∈ seen, cfg.Hits token moduleName loc b))
    (fun seen loc _ s₁ s₂ _ hs₁ hstep b hb => by
      rcases visitLocation_sound hstep b hb with hb | ⟨hb, hhits⟩
      · rcases hs₁ b hb with hb | ⟨hb, loc', hloc', hhits⟩
        · exact Or.inl hb
        · exact Or.inr ⟨hb, loc', List.mem_append_left _ hloc', hhits⟩
      · exact Or.inr ⟨hb, loc, List.mem_append_right _ (List.mem_singleton_self _), hhits⟩)
    (fun _ hb => Or.inl hb) hreport
  intro b hb
  rcases hlocs b hb with hb | ⟨hb, loc, hloc, hhits⟩
  · obtain ⟨hb, report', hreport', hrest⟩ := hs b hb
    exact ⟨hb, report', List.mem_append_left _ hreport', hrest⟩
  · exact ⟨hb, report, List.mem_append_right _ (List.mem_singleton_self _), loc, hloc, hhits⟩

end Sound

namespace CfgExact

variable (h : CfgExact m eh is cfg) (hcount : cfg.sortedBasicBlocks.length ≤ 2 ^ 30 + 1)
  (token : Int32) (moduleName : List UInt16)

include h hcount

/-- One location. -/
theorem visitLocation_spec (visitedBlocks : HashSet ℕ) (loc : CoverageLocation) :
    ∃ visitedBlocks', visitLocation cfg token moduleName visitedBlocks loc = .ok visitedBlocks'
      ∧ ∀ b, b ∈ visitedBlocks' ↔ b ∈ visitedBlocks
        ∨ (b ∈ cfg.sortedBasicBlocks ∧ cfg.Hits token moduleName loc b) := by
  rw [visitLocation]
  split
  · rename_i hmethod
    obtain ⟨c, hc, hresolve, -, -⟩ := h.resolve_spec hcount loc.offset.toNatClampNeg
    have hhits : ∀ b, b ∈ cfg.sortedBasicBlocks → cfg.Hits token moduleName loc b →
        b = c ∧ ((cfg.basicBlocks c).finalOffset : ℤ) = loc.offset.toInt := by
      intro b hb hhit
      have hoffset : loc.offset.toNatClampNeg = (cfg.basicBlocks b).finalOffset := by
        rw [Int32.toNatClampNeg, ← hhit.2.2]
        rfl
      rw [hoffset, h.resolve_final hcount hb] at hresolve
      obtain rfl := Except.ok.inj hresolve
      exact ⟨rfl, hhit.2.2⟩
    dsimp only
    rw [hresolve]
    change ∃ visitedBlocks', (if ((cfg.basicBlocks c).finalOffset : ℤ) = loc.offset.toInt then _ else _)
      = Except.ok visitedBlocks' ∧ _
    split
    · rename_i hfinal
      refine ⟨visitedBlocks.insert c, rfl, fun b => ?_⟩
      rw [HashSet.mem_insert]
      constructor
      · rintro (rfl | hb)
        · exact Or.inr ⟨hc, hmethod.1, hmethod.2, hfinal⟩
        · exact Or.inl hb
      · rintro (hb | ⟨hb, hhit⟩)
        · exact Or.inr hb
        · exact Or.inl (hhits b hb hhit).1
    · rename_i hfinal
      refine ⟨visitedBlocks, rfl, fun b => ⟨Or.inl, ?_⟩⟩
      rintro (hb | ⟨hb, hhit⟩)
      · exact hb
      · exact absurd (hhits b hb hhit).2 hfinal
  · rename_i hmethod
    refine ⟨visitedBlocks, rfl, fun b => ⟨Or.inl, ?_⟩⟩
    rintro (hb | ⟨-, hhit⟩)
    · exact hb
    · exact absurd ⟨hhit.1, hhit.2.1⟩ hmethod

/-- One report. -/
theorem visitReport_spec (visitedBlocks : HashSet ℕ) (locs : List CoverageLocation) :
    ∃ visitedBlocks', locs.foldlM (visitLocation cfg token moduleName) visitedBlocks
        = .ok visitedBlocks'
      ∧ ∀ b, b ∈ visitedBlocks' ↔ b ∈ visitedBlocks
        ∨ (b ∈ cfg.sortedBasicBlocks ∧ ∃ loc ∈ locs, cfg.Hits token moduleName loc b) := by
  refine exists_foldlM (fun seen s => ∀ b, b ∈ s ↔ b ∈ visitedBlocks
    ∨ (b ∈ cfg.sortedBasicBlocks ∧ ∃ loc ∈ seen, cfg.Hits token moduleName loc b)) ?_ (by simp)
  intro pre loc post s _ hs
  obtain ⟨s', hstep, hs'⟩ := h.visitLocation_spec hcount token moduleName s loc
  refine ⟨s', hstep, fun b => ?_⟩
  rw [hs', hs]
  simp only [List.mem_append, List.mem_singleton]
  grind

/-- **The blocks that are counted** are those at whose end there is a location. -/
theorem visitedBlocksOf_spec (visited : List CoverageReport) :
    ∃ visitedBlocks, visitedBlocksOf cfg token moduleName visited = .ok visitedBlocks
      ∧ ∀ b, b ∈ visitedBlocks ↔ b ∈ cfg.sortedBasicBlocks
        ∧ ∃ report ∈ visited, ∃ loc ∈ report.coverageLocations, cfg.Hits token moduleName loc b := by
  refine exists_foldlM (fun (seen : List CoverageReport) (s : HashSet ℕ) =>
    ∀ b, b ∈ s ↔ b ∈ cfg.sortedBasicBlocks
    ∧ ∃ report ∈ seen, ∃ loc ∈ report.coverageLocations, cfg.Hits token moduleName loc b) ?_
    (by simp)
  intro pre report post s _ hs
  obtain ⟨s', hstep, hs'⟩ := h.visitReport_spec hcount token moduleName s report.coverageLocations
  refine ⟨s', hstep, fun b => ?_⟩
  rw [hs', hs]
  simp only [List.mem_append, List.mem_singleton]
  grind

end CfgExact

/-! ### Sizes -/

/-- The starts of the instructions of a block. -/
def CfgInfo.offsetsOf (cfg : CfgInfo) (is : List RawInstr) (b : ℕ) : Finset ℕ :=
  (is.map RawInstr.offset).toFinset.filter fun o =>
    (cfg.basicBlocks b).startOffset ≤ o ∧ o ≤ (cfg.basicBlocks b).finalOffset

theorem CfgInfo.mem_offsetsOf {b o : ℕ} : o ∈ cfg.offsetsOf is b
    ↔ IsStart is o ∧ (cfg.basicBlocks b).startOffset ≤ o ∧ o ≤ (cfg.basicBlocks b).finalOffset := by
  rw [CfgInfo.offsetsOf, Finset.mem_filter, List.mem_toFinset, List.mem_map]
  exact Iff.rfl

namespace CfgExact

section Sizes

variable {body : MethodBody} (h : CfgExact m body.eh is cfg) (hvalid : ValidBody body is)

include h

/-- The size of a block is the number of its instructions. -/
theorem blockSize_eq (hcons : Consecutive 0 is m.bytecode.size) (hstarts : SameStarts m is) {b : ℕ}
    (hb : b ∈ cfg.sortedBasicBlocks) :
    m.blockSize (cfg.basicBlocks b) = .ok (cfg.offsetsOf is b).card := by
  have hnodup : (m.instructions.map IlInstr.offset).Nodup := by
    rw [hstarts]
    exact hcons.offsets_pairwise.imp ne_of_lt
  rw [Method.blockSize, h.contiguous b hb, CfgInfo.offsetsOf, ← hstarts]
  have hmap : ((m.instructions.map IlInstr.offset).toFinset.filter fun o =>
      (cfg.basicBlocks b).startOffset ≤ o ∧ o ≤ (cfg.basicBlocks b).finalOffset)
      = ((m.instructions.filter fun j => (cfg.basicBlocks b).startOffset ≤ j.offset
        ∧ j.offset ≤ (cfg.basicBlocks b).finalOffset).map IlInstr.offset).toFinset := by
    ext o
    simp only [Finset.mem_filter, List.mem_toFinset, List.mem_map, List.mem_filter,
      decide_eq_true_eq]
    grind
  rw [hmap, List.toFinset_card_of_nodup ((List.filter_sublist.map _).nodup hnodup), List.length_map]
  rfl

theorem disjoint_offsetsOf {b c : ℕ} (hb : b ∈ cfg.sortedBasicBlocks)
    (hc : c ∈ cfg.sortedBasicBlocks) (hne : b ≠ c) :
    Disjoint (cfg.offsetsOf is b) (cfg.offsetsOf is c) := by
  rw [Finset.disjoint_left]
  intro o hbo hco
  rw [CfgInfo.mem_offsetsOf] at hbo hco
  exact hne (h.eq_of_overlap hb hc hbo.1 hbo.2 hco.2)

include hvalid

/-- **Sizes are numbers of reachable instructions.** -/
theorem coveredSize_eq {bs : List ℕ} (hbs : ∀ b ∈ bs, b ∈ cfg.sortedBasicBlocks)
    (hnodup : bs.Nodup) : (bs.map fun b => (cfg.offsetsOf is b).card).sum
      = {o | Reachable body.eh is o ∧ ∃ b ∈ bs, (cfg.basicBlocks b).startOffset ≤ o
        ∧ o ≤ (cfg.basicBlocks b).finalOffset}.ncard := by
  have hunion : {o | Reachable body.eh is o ∧ ∃ b ∈ bs, (cfg.basicBlocks b).startOffset ≤ o
      ∧ o ≤ (cfg.basicBlocks b).finalOffset} = ↑(bs.toFinset.biUnion (cfg.offsetsOf is)) := by
    ext o
    rw [Set.mem_ofPred_eq, Finset.mem_coe, Finset.mem_biUnion]
    constructor
    · rintro ⟨hreach, b, hb, hbo⟩
      exact ⟨b, List.mem_toFinset.mpr hb,
        CfgInfo.mem_offsetsOf.mpr ⟨hvalid.isStart_of_reachable hreach, hbo⟩⟩
    · rintro ⟨b, hb, hbo⟩
      have hb := List.mem_toFinset.mp hb
      obtain ⟨⟨i, hi, rfl⟩, hbo⟩ := CfgInfo.mem_offsetsOf.mp hbo
      exact ⟨(h.inside b (hbs b hb) i hi hbo.1 hbo.2).1, b, hb, hbo⟩
  rw [hunion, Set.ncard_coe_finset, Finset.card_biUnion]
  · rw [List.sum_toFinset _ hnodup]
  · intro b hb c hc hne
    exact h.disjoint_offsetsOf (hbs b (List.mem_toFinset.mp hb)) (hbs c (List.mem_toFinset.mp hc)) hne

/-- The size of the method. -/
theorem methodSize_eq (hstarts : SameStarts m is) (hcons : Consecutive 0 is m.bytecode.size)
    {fuel : ℕ} (hrun : m.cfgInfo fuel = .ok cfg) :
    cfg.methodSize = {o | Reachable body.eh is o}.ncard := by
  have hsum : cfg.methodSize
      = (cfg.sortedBasicBlocks.map fun b => (cfg.offsetsOf is b).card).sum := by
    obtain ⟨sizes, hsizes, hmethod⟩ := m.cfgInfo_sizes hrun
    rw [mapM_eq_ok fun b hb => h.blockSize_eq hcons hstarts hb] at hsizes
    rw [hmethod, Except.ok.inj hsizes]
  rw [hsum, h.coveredSize_eq hvalid (fun _ hb => hb) h.nodup]
  refine congrArg Set.ncard (Set.ext fun o => and_iff_left_of_imp fun hreach => ?_)
  obtain ⟨b, ⟨hb, hbo⟩, -⟩ := h.covers o hreach
  exact ⟨b, hb, hbo⟩

end Sizes

end CfgExact

end TestExecutor
