import TestExecutor.IL.CfgInvariant

/-!
# The walk finds everything

The walk of `CFG.fs` on a method that it can walk: it ends, keeps the invariant, and the
instructions that it visits get the edges of their control flow.

* `Extends` — what later states keep of earlier ones;
* `makeNewBasicBlock_spec` — the block at a vertex, new, old, or cut out of an old one;
* `Walked` — what a piece of the walk achieves;
* `WalkSpec`, `dfs'_spec` — the walk, entered by a jump or by falling through.
-/

namespace TestExecutor

open TestExecutor.Library

variable {m : Method} {eh : List EhInfo} {is : List RawInstr}

/-! ### Later states -/

/-- What a later state keeps; `ex` are blocks that may still be grown. -/
structure Extends (ex : ℕ → Prop) (is : List RawInstr) (s s' : DfsState) : Prop where
  count : s.basicBlocksCount ≤ s'.basicBlocksCount
  used : ∀ v ∈ s.used, v ∈ s'.used
  starts : ∀ b < s.basicBlocksCount, ∃ b' < s'.basicBlocksCount, s'.start b' = s.start b
  linked : ∀ i ∈ is, i.offset ∈ s.used → ∀ t ∈ i.successors, s.Linked i.offset t →
    s'.Linked i.offset t
  frame : ∀ b < s.basicBlocksCount, ¬ex b →
    s'.final b = s.final b ∧ ∀ t, s'.GoesTo b t ↔ s.GoesTo b t

theorem Extends.trans {ex ex' ex'' : ℕ → Prop} {s s' s'' : DfsState} (h : Extends ex is s s')
    (h' : Extends ex' is s' s'') (hex : ∀ b < s.basicBlocksCount, ex b ∨ ex' b → ex'' b) :
    Extends ex'' is s s'' where
  count := h.count.trans h'.count
  used := fun v hv => h'.used v (h.used v hv)
  starts := by
    intro b hb
    obtain ⟨b', hb', hstart⟩ := h.starts b hb
    obtain ⟨b'', hb'', hstart'⟩ := h'.starts b' hb'
    exact ⟨b'', hb'', hstart'.trans hstart⟩
  linked := fun i hi hused t ht hlinked =>
    h'.linked i hi (h.used _ hused) t ht (h.linked i hi hused t ht hlinked)
  frame := by
    intro b hb hnot
    obtain ⟨hfinal, hgoes⟩ := h.frame b hb fun hex' => hnot (hex b hb (Or.inl hex'))
    obtain ⟨hfinal', hgoes'⟩ := h'.frame b (lt_of_lt_of_le hb h.count)
      fun hex' => hnot (hex b hb (Or.inr hex'))
    exact ⟨hfinal'.trans hfinal, fun t => (hgoes' t).trans (hgoes t)⟩

theorem Extends.refl (ex : ℕ → Prop) (is : List RawInstr) (s : DfsState) : Extends ex is s s where
  count := le_refl _
  used := fun _ hv => hv
  starts := fun b hb => ⟨b, hb, rfl⟩
  linked := fun _ _ _ _ _ hlinked => hlinked
  frame := fun _ _ _ => ⟨rfl, fun _ => Iff.rfl⟩

theorem IsSplit.keeps {s s' : DfsState} {b : ℕ} {w : RawInstr}
    (hcons : Consecutive 0 is m.bytecode.size) (hinv : Inv eh is s none)
    (hb : b < s.basicBlocksCount) (hw : w ∈ is) (hstart : s.start b ≤ w.offset)
    (hle : w.next ≤ s.final b) (h : IsSplit s b w.next w.offset s') :
    Extends (fun _ => False) is s s' where
  count := by rw [h.count]; exact Nat.le_succ _
  used := fun v hv => by rwa [h.used]
  starts := by
    intro c hc
    rw [h.count]
    by_cases hcb : c = b
    · subst hcb
      exact ⟨s.basicBlocksCount, Nat.lt_succ_self _, h.start_head⟩
    · exact ⟨c, Nat.lt_succ_of_lt hc, h.start_old hc hcb⟩
  linked := by
    intro i hi _ t ht hlinked
    have hwlt := w.offset_lt_next
    have hcount := h.count
    have hbefore := hcons.lt_next_iff hi hw
    rcases hlinked with ⟨c, hc, hle₁, hlt₁⟩ | ⟨c, hc, hfinal, hgoes⟩
    · by_cases hcb : c = b
      · subst hcb
        rcases Nat.lt_trichotomy i.offset w.offset with hlt | heq | hgt
        · exact Or.inl ⟨s.basicBlocksCount, by omega, by rw [h.start_head]; exact hle₁,
            by rw [h.final_head]; exact hlt⟩
        · -- the instruction in front of the cut now ends the head
          have hiw : i = w := hcons.eq_of_offset hi hw heq
          subst hiw
          have hsucc := RawInstr.successors_of_not_endsBlock (hinv.interior c hb i hi hle₁ hlt₁)
          rw [hsucc, List.mem_singleton] at ht
          refine Or.inr ⟨s.basicBlocksCount, by omega, h.final_head, c, ?_, ?_⟩
          · rw [h.edges, if_pos rfl]
          · rw [h.start_tail hb, ht]
        · exact Or.inl ⟨c, by omega, by rw [h.start_tail hb]; omega, by rwa [h.final_old hb]⟩
      · exact Or.inl ⟨c, by omega, by rwa [h.start_old hc hcb], by rwa [h.final_old hc]⟩
    · exact Or.inr ⟨c, by omega, by rwa [h.final_old hc], (h.goesTo_old hinv hb hc t).mpr hgoes⟩
  frame := fun c hc _ => ⟨h.final_old hc, h.goesTo_old hinv hb hc⟩

theorem IsEdgeAdded.keeps {s s' : DfsState} {b c : ℕ} (h : IsEdgeAdded s b c s') :
    Extends (fun d => d = b) is s s' where
  count := le_of_eq h.count.symm
  used := fun v hv => by rwa [h.used]
  starts := fun d hd => ⟨d, by rwa [h.count], h.start d⟩
  linked := by
    intro i _ _ t _ hlinked
    rcases hlinked with ⟨d, hd, hle, hlt⟩ | ⟨d, hd, hfinal, hgoes⟩
    · exact Or.inl ⟨d, by rwa [h.count], by rwa [h.start], by rwa [h.final]⟩
    · exact Or.inr ⟨d, by rwa [h.count], by rwa [h.final], (h.goesTo d t).mpr (Or.inl hgoes)⟩
  frame := by
    intro d _ hne
    refine ⟨h.final d, fun t => ?_⟩
    rw [h.goesTo]
    exact ⟨fun ht => ht.resolve_right fun heq => hne heq.1, Or.inl⟩

/-! ### The block at a vertex -/

/-- The block that the walk is about to enter at its start: visited before, or new. -/
structure Entered (s : DfsState) (b v : ℕ) (fresh : Option ℕ) : Prop where
  lt : b < s.basicBlocksCount
  slot : s.vertexToBasicBlock v = some b
  start : s.start b = v
  new : (v ∈ s.used ∧ fresh = none)
    ∨ (v ∉ s.used ∧ fresh = some v ∧ s.final b = v ∧ ∀ t, ¬s.GoesTo b t)

/-- A state with one more block, which consists of its start so far. -/
def DfsState.addBlock (s : DfsState) (v : ℕ) : DfsState :=
  { s with
    vertexToBasicBlock := Function.update s.vertexToBasicBlock v (some s.basicBlocksCount)
    basicBlocks := Function.update s.basicBlocks s.basicBlocksCount (.new v)
    basicBlocksCount := s.basicBlocksCount + 1 }

section AddBlock

variable {s : DfsState} {v : ℕ}

theorem DfsState.addBlock_basicBlocks (c : ℕ) : (s.addBlock v).basicBlocks c
    = if c = s.basicBlocksCount then .new v else s.basicBlocks c := by
  rw [DfsState.addBlock]
  dsimp only
  rw [Function.update_apply]

theorem DfsState.addBlock_new : (s.addBlock v).start s.basicBlocksCount = v
    ∧ (s.addBlock v).final s.basicBlocksCount = v
    ∧ (∀ c, ¬(s.addBlock v).HasEdge s.basicBlocksCount c)
    ∧ ∀ c, c ∉ (s.addBlock v).incoming s.basicBlocksCount := by
  simp [DfsState.start, DfsState.final, DfsState.HasEdge, DfsState.incoming,
    DfsState.addBlock_basicBlocks, BasicBlock.new]

theorem DfsState.addBlock_old {c : ℕ} (hc : c ≠ s.basicBlocksCount) :
    (s.addBlock v).start c = s.start c ∧ (s.addBlock v).final c = s.final c
    ∧ (∀ d, (s.addBlock v).HasEdge c d ↔ s.HasEdge c d)
    ∧ (s.addBlock v).incoming c = s.incoming c := by
  simp [DfsState.start, DfsState.final, DfsState.HasEdge, DfsState.incoming,
    DfsState.addBlock_basicBlocks, hc]

theorem Inv.goesTo_addBlock (hinv : Inv eh is s none) {c : ℕ} (hc : c < s.basicBlocksCount)
    (t : ℕ) : (s.addBlock v).GoesTo c t ↔ s.GoesTo c t := by
  obtain ⟨-, -, hedges, -⟩ := DfsState.addBlock_old (v := v) (ne_of_lt hc)
  constructor
  · rintro ⟨d, hd, rfl⟩
    rw [hedges] at hd
    have hdlt := (hinv.edge c hc d hd).1
    exact ⟨d, hd, (DfsState.addBlock_old (ne_of_lt hdlt)).1.symm⟩
  · rintro ⟨d, hd, rfl⟩
    have hdlt := (hinv.edge c hc d hd).1
    exact ⟨d, (hedges d).mpr hd, (DfsState.addBlock_old (ne_of_lt hdlt)).1⟩

theorem Inv.addBlock (hinv : Inv eh is s none) (hv : IsStart is v) (hleader : Leader eh is v)
    (hslot : s.vertexToBasicBlock v = none) : Inv eh is (s.addBlock v) (some v) := by
  obtain ⟨hstart, hfinal, hedge, hincoming⟩ := DfsState.addBlock_new (s := s) (v := v)
  have hcount : (s.addBlock v).basicBlocksCount = s.basicBlocksCount + 1 := rfl
  have hcases : ∀ c < (s.addBlock v).basicBlocksCount, c = s.basicBlocksCount
      ∨ (c < s.basicBlocksCount ∧ c ≠ s.basicBlocksCount) := by
    intro c hc
    omega
  refine ⟨?slot, ?assigned, ?startIsStart, ?finalIsStart, ?startLe, ?interior, ?leader, ?reachable,
    ?edge, ?inverse, ?incomingLt, ?grey⟩
  case slot =>
    intro i hi c
    show Function.update s.vertexToBasicBlock v (some s.basicBlocksCount) i.offset = some c ↔ _
    rw [Function.update_apply]
    by_cases hiv : i.offset = v
    · rw [if_pos hiv]
      constructor
      · intro hc
        obtain rfl := (Option.some.inj hc).symm
        exact ⟨by omega, by omega, by omega⟩
      · rintro ⟨hc, hle₁, hle₂⟩
        rcases hcases c hc with rfl | ⟨hclt, hne⟩
        · rfl
        · obtain ⟨hs, hf, -, -⟩ := DfsState.addBlock_old (v := v) hne
          have := (hinv.slot i hi c).mpr ⟨hclt, by omega, by omega⟩
          rw [hiv, hslot] at this
          cases this
    · rw [if_neg hiv, hinv.slot i hi c]
      constructor
      · rintro ⟨hc, hle₁, hle₂⟩
        obtain ⟨hs, hf, -, -⟩ := DfsState.addBlock_old (v := v) (ne_of_lt hc)
        exact ⟨by omega, by omega, by omega⟩
      · rintro ⟨hc, hle₁, hle₂⟩
        rcases hcases c hc with rfl | ⟨hclt, hne⟩
        · omega
        · obtain ⟨hs, hf, -, -⟩ := DfsState.addBlock_old (v := v) hne
          exact ⟨hclt, by omega, by omega⟩
  case assigned =>
    intro i hi
    show (∃ b, Function.update s.vertexToBasicBlock v (some s.basicBlocksCount) i.offset = some b)
      ↔ i.offset ∈ s.used ∨ some v = some i.offset
    rw [Function.update_apply]
    by_cases hiv : i.offset = v
    · rw [if_pos hiv]
      exact ⟨fun _ => Or.inr (by rw [hiv]), fun _ => ⟨_, rfl⟩⟩
    · rw [if_neg hiv, hinv.assigned i hi]
      have hne : ¬some v = some i.offset := fun heq => hiv (Option.some.inj heq).symm
      simp [hne]
  case startIsStart =>
    intro c hc
    rcases hcases c hc with rfl | ⟨hclt, hne⟩
    · rwa [hstart]
    · rw [(DfsState.addBlock_old hne).1]
      exact hinv.start_isStart c hclt
  case finalIsStart =>
    intro c hc
    rcases hcases c hc with rfl | ⟨hclt, hne⟩
    · rwa [hfinal]
    · rw [(DfsState.addBlock_old hne).2.1]
      exact hinv.final_isStart c hclt
  case startLe =>
    intro c hc
    rcases hcases c hc with rfl | ⟨hclt, hne⟩
    · omega
    · obtain ⟨hs, hf, -, -⟩ := DfsState.addBlock_old (v := v) hne
      have := hinv.start_le c hclt
      omega
  case interior =>
    intro c hc i hi hle hlt
    rcases hcases c hc with rfl | ⟨hclt, hne⟩
    · omega
    · obtain ⟨hs, hf, -, -⟩ := DfsState.addBlock_old (v := v) hne
      exact hinv.interior c hclt i hi (by omega) (by omega)
  case leader =>
    intro c hc
    rcases hcases c hc with rfl | ⟨hclt, hne⟩
    · rwa [hstart]
    · rw [(DfsState.addBlock_old hne).1]
      exact hinv.leader c hclt
  case reachable => exact hinv.reachable
  case edge =>
    intro c hc d hd
    rcases hcases c hc with rfl | ⟨hclt, hne⟩
    · exact absurd hd (hedge d)
    · obtain ⟨hs, hf, he, -⟩ := DfsState.addBlock_old (v := v) hne
      obtain ⟨hdlt, i, hi, hoffset, hsucc⟩ := hinv.edge c hclt d ((he d).mp hd)
      refine ⟨by omega, i, hi, by omega, ?_⟩
      rwa [(DfsState.addBlock_old (ne_of_lt hdlt)).1]
  case inverse =>
    intro c hc d hd
    rcases hcases d hd with rfl | ⟨hdlt, hdne⟩
    · refine iff_of_false (hincoming c) fun hcd => ?_
      rcases hcases c hc with rfl | ⟨hclt, hne⟩
      · exact hedge _ hcd
      · obtain ⟨-, -, he, -⟩ := DfsState.addBlock_old (v := v) hne
        have := (hinv.edge c hclt _ ((he _).mp hcd)).1
        omega
    · rw [(DfsState.addBlock_old hdne).2.2.2]
      rcases hcases c hc with rfl | ⟨hclt, hne⟩
      · refine iff_of_false (fun hmem => ?_) (hedge d)
        have := hinv.incoming_lt d hdlt _ hmem
        omega
      · rw [(DfsState.addBlock_old hne).2.2.1]
        exact hinv.inverse c hclt d hdlt
  case incomingLt =>
    intro d hd c hmem
    rcases hcases d hd with rfl | ⟨hdlt, hdne⟩
    · exact absurd hmem (hincoming c)
    · rw [(DfsState.addBlock_old hdne).2.2.2] at hmem
      have := hinv.incoming_lt d hdlt c hmem
      omega
  case grey => exact hinv.grey

theorem Inv.keeps_addBlock (hinv : Inv eh is s none) :
    Extends (fun _ => False) is s (s.addBlock v) where
  count := Nat.le_succ _
  used := fun _ hv => hv
  starts := fun b hb => ⟨b, Nat.lt_succ_of_lt hb, (DfsState.addBlock_old (ne_of_lt hb)).1⟩
  linked := by
    intro i _ _ t _ hlinked
    rcases hlinked with ⟨c, hc, hle, hlt⟩ | ⟨c, hc, hfinal, hgoes⟩
    · obtain ⟨hs, hf, -, -⟩ := DfsState.addBlock_old (v := v) (ne_of_lt hc)
      exact Or.inl ⟨c, Nat.lt_succ_of_lt hc, by omega, by omega⟩
    · obtain ⟨-, hf, -, -⟩ := DfsState.addBlock_old (v := v) (ne_of_lt hc)
      exact Or.inr ⟨c, Nat.lt_succ_of_lt hc, by omega, (hinv.goesTo_addBlock hc t).mpr hgoes⟩
  frame := fun b hb _ =>
    ⟨(DfsState.addBlock_old (ne_of_lt hb)).2.1, hinv.goesTo_addBlock hb⟩

end AddBlock

/-- **The block at a leader**: new, there already, or cut out of another one. -/
theorem makeNewBasicBlock_spec (hm : Walkable m eh is) {s : DfsState} (hinv : Inv eh is s none)
    {v : ℕ} (hv : IsStart is v) (hleader : Leader eh is v) :
    ∃ b s' fresh, m.makeNewBasicBlock s v = .ok (b, s') ∧ Inv eh is s' fresh
      ∧ Extends (fun _ => False) is s s' ∧ Entered s' b v fresh
      ∧ s'.used = s.used ∧ s'.greyVertices = s.greyVertices
      ∧ (v ∉ s.used → b = s.basicBlocksCount) := by
  obtain ⟨i, hi, rfl⟩ := hv
  have hbound := (hm.consecutive.bounds hi).2
  have hlt := i.offset_lt_next
  rw [Method.makeNewBasicBlock, if_neg (by omega)]
  cases hslot : s.vertexToBasicBlock i.offset with
  | none =>
      have hunused : i.offset ∉ s.used := by
        intro hused
        obtain ⟨b, hb⟩ := (hinv.assigned i hi).mpr (Or.inl hused)
        rw [hslot] at hb
        cases hb
      obtain ⟨hstart, hfinal, hedge, -⟩ := DfsState.addBlock_new (s := s) (v := i.offset)
      refine ⟨s.basicBlocksCount, s.addBlock i.offset, some i.offset, rfl,
        hinv.addBlock ⟨i, hi, rfl⟩ hleader hslot, hinv.keeps_addBlock, ⟨Nat.lt_succ_self _, ?_,
          hstart, Or.inr ⟨hunused, rfl, hfinal, ?_⟩⟩, rfl, rfl, fun _ => rfl⟩
      · exact Function.update_self _ _ _
      · rintro t ⟨c, hc, -⟩
        exact hedge c hc
  | some b =>
      obtain ⟨hb, hle₁, hle₂⟩ := (hinv.slot i hi b).mp hslot
      have hused : i.offset ∈ s.used := by
        rcases (hinv.assigned i hi).mp ⟨b, hslot⟩ with hused | hfresh
        · exact hused
        · cases hfresh
      by_cases hstart : s.start b = i.offset
      · refine ⟨b, s, none, ?_, hinv, Extends.refl _ is s, ⟨hb, hslot, hstart,
          Or.inl ⟨hused, rfl⟩⟩, rfl, rfl, fun h => absurd hused h⟩
        exact if_pos hstart
      · obtain ⟨w, hw, hnext, hwstart, s', hrun, hsplit⟩ :=
          splitBasicBlock_spec hm hinv hb ⟨i, hi, rfl⟩ (by omega) hle₂
        rw [← hnext] at hsplit hleader hle₂
        have hinv' : Inv eh is s' none := hinv.split hm.consecutive hb hw hwstart
          (by omega) hle₂ hleader ⟨i, hi, hnext.symm⟩ hsplit
        refine ⟨b, s', none, ?_, hinv', hsplit.keeps hm.consecutive hinv hb hw hwstart hle₂,
          ⟨?_, ?_, ?_, Or.inl ⟨?_, rfl⟩⟩, hsplit.used, hsplit.grey, fun h => absurd hused h⟩
        · dsimp only
          rw [if_neg (show ¬(s.basicBlocks b).startOffset = i.offset from hstart), hrun]
          rfl
        · rw [hsplit.count]
          exact Nat.lt_succ_of_lt hb
        · rw [hsplit.slots, if_neg (by omega), hslot]
        · rw [hsplit.start_tail hb, hnext]
        · rwa [hsplit.used]

/-! ### Pieces of the walk -/

/-- States that differ in their grey vertices, sinks and loop entries only. -/
structure SameGraph (s s' : DfsState) : Prop where
  used : s'.used = s.used
  slots : s'.vertexToBasicBlock = s.vertexToBasicBlock
  blocks : s'.basicBlocks = s.basicBlocks
  count : s'.basicBlocksCount = s.basicBlocksCount

namespace SameGraph

variable {s s' : DfsState}

theorem linked (h : SameGraph s s') {v t : ℕ} : s'.Linked v t ↔ s.Linked v t := by
  simp only [DfsState.Linked, DfsState.Inner, DfsState.GoesTo, DfsState.HasEdge, DfsState.start,
    DfsState.final, h.blocks, h.count]

theorem keeps (h : SameGraph s s') (ex : ℕ → Prop) : Extends ex is s s' where
  count := le_of_eq h.count.symm
  used := fun v hv => by rwa [h.used]
  starts := fun b hb => ⟨b, by rwa [h.count], by rw [DfsState.start, h.blocks]; rfl⟩
  linked := fun _ _ _ _ _ hlinked => h.linked.mpr hlinked
  frame := fun b _ _ => by
    simp only [DfsState.GoesTo, DfsState.HasEdge, DfsState.start, DfsState.final, h.blocks,
      implies_true, and_self]

theorem inv (h : SameGraph s s') {fresh : Option ℕ} (hinv : Inv eh is s fresh)
    (hgrey : ∀ v ∈ s'.greyVertices, v ∈ s'.used) : Inv eh is s' fresh := by
  obtain ⟨used, grey, slots, blocks, count, sinks, loops⟩ := s
  obtain ⟨used', grey', slots', blocks', count', sinks', loops'⟩ := s'
  obtain ⟨rfl, rfl, rfl, rfl⟩ := h
  exact ⟨hinv.slot, hinv.assigned, hinv.start_isStart, hinv.final_isStart, hinv.start_le,
    hinv.interior, hinv.leader, hinv.reachable, hinv.edge, hinv.inverse, hinv.incoming_lt, hgrey⟩

end SameGraph

/-- What a piece of the walk achieves: instructions visited on the way have all their edges. -/
structure Walked (eh : List EhInfo) (is : List RawInstr) (ex : ℕ → Prop) (s s' : DfsState) :
    Prop where
  inv : Inv eh is s' none
  keeps : Extends ex is s s'
  grey : s'.greyVertices = s.greyVertices
  done : ∀ i ∈ is, i.offset ∈ s'.used → i.offset ∉ s.used →
    ∀ t ∈ i.successors, s'.Linked i.offset t

theorem Walked.trans {ex ex' ex'' : ℕ → Prop} {s s' s'' : DfsState} (h : Walked eh is ex s s')
    (h' : Walked eh is ex' s' s'') (hex : ∀ b < s.basicBlocksCount, ex b ∨ ex' b → ex'' b) :
    Walked eh is ex'' s s'' where
  inv := h'.inv
  keeps := h.keeps.trans h'.keeps hex
  grey := h'.grey.trans h.grey
  done := by
    intro i hi hused hnot t ht
    by_cases hbetween : i.offset ∈ s'.used
    · exact h'.keeps.linked i hi hbetween t ht (h.done i hi hbetween hnot t ht)
    · exact h'.done i hi hused hbetween t ht

/-- Changes that visit nothing. -/
theorem Walked.of_used {ex : ℕ → Prop} {s s' : DfsState} (hinv : Inv eh is s' none)
    (hkeeps : Extends ex is s s') (hused : s'.used = s.used)
    (hgrey : s'.greyVertices = s.greyVertices) : Walked eh is ex s s' where
  inv := hinv
  keeps := hkeeps
  grey := hgrey
  done := fun _ _ h hnot => absurd (hused ▸ h) hnot

/-- How many instructions are still to be visited. -/
def unvisited (is : List RawInstr) (s : DfsState) : ℕ := is.countP fun i => i.offset ∉ s.used

theorem Extends.unvisited_le {ex : ℕ → Prop} {s s' : DfsState} (h : Extends ex is s s') :
    unvisited is s' ≤ unvisited is s := by
  refine List.countP_mono_left fun i _ hnot => ?_
  simp only [decide_eq_true_eq] at hnot ⊢
  exact fun hused => hnot (h.used _ hused)

/-- Visiting an instruction makes the number smaller. -/
theorem unvisited_lt {s s' : DfsState} {i : RawInstr} (hi : i ∈ is) (hnot : i.offset ∉ s.used)
    (hvisited : i.offset ∈ s'.used) (hused : ∀ v ∈ s.used, v ∈ s'.used) :
    unvisited is s' < unvisited is s := by
  obtain ⟨before, behind, rfl⟩ := List.append_of_mem hi
  have hle : ∀ js : List RawInstr, unvisited js s' ≤ unvisited js s := fun js =>
    List.countP_mono_left fun i _ h => by
      simp only [decide_eq_true_eq] at h ⊢
      exact fun hu => h (hused _ hu)
  have hbefore := hle before
  have hbehind := hle behind
  unfold unvisited at hbefore hbehind ⊢
  rw [List.countP_append, List.countP_append, List.countP_cons_of_neg (by simpa using hvisited),
    List.countP_cons_of_pos (by simpa using hnot)]
  omega

/-! ### Visiting a vertex -/

namespace DfsState

/-- A block grows by the instruction at a vertex. -/
def grow (s : DfsState) (b v : ℕ) : DfsState :=
  { s.setFinalOffset b v with
    vertexToBasicBlock := Function.update s.vertexToBasicBlock v (some b) }

def visit (s : DfsState) (v : ℕ) : DfsState :=
  { s with
    greyVertices := s.greyVertices.insert v
    used := s.used.insert v }

variable (s : DfsState) (b c v : ℕ)

@[simp] theorem start_setFinalOffset : (s.setFinalOffset b v).start c = s.start c := by
  rw [start, setFinalOffset, modifyBlock_basicBlocks]
  split
  · rename_i h
    rw [h]
    rfl
  · rfl

@[simp] theorem final_setFinalOffset :
    (s.setFinalOffset b v).final c = if c = b then v else s.final c := by
  rw [final, setFinalOffset, modifyBlock_basicBlocks]
  split <;> rfl

@[simp] theorem incoming_setFinalOffset : (s.setFinalOffset b v).incoming c = s.incoming c := by
  rw [incoming, setFinalOffset, modifyBlock_basicBlocks]
  split
  · rename_i h
    rw [h]
    rfl
  · rfl

@[simp] theorem hasEdge_setFinalOffset (d : ℕ) :
    (s.setFinalOffset b v).HasEdge c d ↔ s.HasEdge c d := by
  rw [HasEdge, setFinalOffset, modifyBlock_basicBlocks]
  split
  · rename_i h
    rw [h]
    exact Iff.rfl
  · exact Iff.rfl

theorem setFinalOffset_self (h : s.final b = v) : s.setFinalOffset b v = s := by
  subst h
  exact congrArg (fun blocks => { s with basicBlocks := blocks })
    (Function.update_eq_self b s.basicBlocks)

theorem setFinalOffset_setFinalOffset (w : ℕ) :
    (s.setFinalOffset b v).setFinalOffset b w = s.setFinalOffset b w := by
  simp only [setFinalOffset, modifyBlock]
  rw [Function.update_idem, Function.update_self]

@[simp] theorem start_grow : (s.grow b v).start c = s.start c := s.start_setFinalOffset b c v

@[simp] theorem final_grow : (s.grow b v).final c = if c = b then v else s.final c :=
  s.final_setFinalOffset b c v

@[simp] theorem incoming_grow : (s.grow b v).incoming c = s.incoming c :=
  s.incoming_setFinalOffset b c v

@[simp] theorem hasEdge_grow (d : ℕ) : (s.grow b v).HasEdge c d ↔ s.HasEdge c d :=
  s.hasEdge_setFinalOffset b c v d

@[simp] theorem goesTo_grow (t : ℕ) : (s.grow b v).GoesTo c t ↔ s.GoesTo c t := by
  simp only [GoesTo, hasEdge_grow, start_grow]

end DfsState

section Grow

variable {s : DfsState} {b : ℕ} {w : RawInstr}

/-- A block grows by the instruction behind its last one, which does not end it. -/
theorem Inv.grow (hcons : Consecutive 0 is m.bytecode.size) (hinv : Inv eh is s none) (hw : w ∈ is)
    (hends : ¬w.EndsBlock) (hb : b < s.basicBlocksCount) (hstart : s.start b ≤ w.offset)
    (hfinal : s.final b = w.offset) (hgoes : ∀ t, ¬s.GoesTo b t) (hnext : IsStart is w.next)
    (hnew : w.next ∉ s.used) : Inv eh is (s.grow b w.next) (some w.next) := by
  have hwlt := w.offset_lt_next
  have hnone : ∀ i ∈ is, i.offset = w.next → s.vertexToBasicBlock i.offset = none := by
    intro i hi hoffset
    cases hslot : s.vertexToBasicBlock i.offset with
    | none => rfl
    | some c =>
        rcases (hinv.assigned i hi).mp ⟨c, hslot⟩ with hused | hfresh
        · exact absurd (hoffset ▸ hused) hnew
        · cases hfresh
  refine ⟨?slot, ?assigned, ?startIsStart, ?finalIsStart, ?startLe, ?interior, ?leader, ?reachable,
    ?edge, ?inverse, ?incomingLt, ?grey⟩
  case slot =>
    intro i hi c
    have hbefore := hcons.lt_next_iff hi hw
    show Function.update s.vertexToBasicBlock w.next (some b) i.offset = some c
      ↔ c < s.basicBlocksCount ∧ _
    rw [Function.update_apply, DfsState.start_grow, DfsState.final_grow]
    by_cases hiv : i.offset = w.next
    · rw [if_pos hiv]
      constructor
      · intro hc
        obtain rfl := Option.some.inj hc
        rw [if_pos rfl]
        exact ⟨hb, by omega, by omega⟩
      · rintro ⟨hc, hle₁, hle₂⟩
        by_cases hcb : c = b
        · rw [hcb]
        · rw [if_neg hcb] at hle₂
          have hslot := (hinv.slot i hi c).mpr ⟨hc, hle₁, hle₂⟩
          rw [hnone i hi hiv] at hslot
          cases hslot
    · rw [if_neg hiv, hinv.slot i hi c]
      by_cases hcb : c = b
      · subst hcb
        rw [if_pos rfl]
        exact ⟨fun ⟨h₁, h₂, h₃⟩ => ⟨h₁, h₂, by omega⟩, fun ⟨h₁, h₂, h₃⟩ => ⟨h₁, h₂, by omega⟩⟩
      · rw [if_neg hcb]
  case assigned =>
    intro i hi
    show (∃ c, Function.update s.vertexToBasicBlock w.next (some b) i.offset = some c)
      ↔ i.offset ∈ s.used ∨ _
    rw [Function.update_apply]
    by_cases hiv : i.offset = w.next
    · rw [if_pos hiv]
      exact ⟨fun _ => Or.inr (by rw [hiv]), fun _ => ⟨b, rfl⟩⟩
    · rw [if_neg hiv, hinv.assigned i hi]
      have hne : ¬some w.next = some i.offset := fun heq => hiv (Option.some.inj heq).symm
      simp [hne]
  case startIsStart =>
    intro c hc
    rw [DfsState.start_grow]
    exact hinv.start_isStart c hc
  case finalIsStart =>
    intro c hc
    rw [DfsState.final_grow]
    split
    · exact hnext
    · exact hinv.final_isStart c hc
  case startLe =>
    intro c hc
    rw [DfsState.start_grow, DfsState.final_grow]
    split
    · rename_i hcb
      subst hcb
      omega
    · exact hinv.start_le c hc
  case interior =>
    intro c hc i hi hle hlt
    rw [DfsState.start_grow] at hle
    rw [DfsState.final_grow] at hlt
    split at hlt
    · rename_i hcb
      subst hcb
      rcases Nat.lt_or_eq_of_le ((hcons.lt_next_iff hi hw).mp hlt) with hlt | heq
      · exact hinv.interior c hc i hi hle (by omega)
      · rw [hcons.eq_of_offset hi hw heq]
        exact hends
    · exact hinv.interior c hc i hi hle hlt
  case leader =>
    intro c hc
    rw [DfsState.start_grow]
    exact hinv.leader c hc
  case reachable => exact hinv.reachable
  case edge =>
    intro c hc d hd
    rw [DfsState.hasEdge_grow] at hd
    have hcb : c ≠ b := fun heq => hgoes _ ⟨d, heq ▸ hd, rfl⟩
    rw [DfsState.final_grow, if_neg hcb, DfsState.start_grow]
    exact hinv.edge c hc d hd
  case inverse =>
    intro c hc d hd
    rw [DfsState.incoming_grow, DfsState.hasEdge_grow]
    exact hinv.inverse c hc d hd
  case incomingLt =>
    intro c hc d hd
    rw [DfsState.incoming_grow] at hd
    exact hinv.incoming_lt c hc d hd
  case grey => exact hinv.grey

theorem keeps_grow {v : ℕ} (hle : s.final b ≤ v) (hgoes : ∀ t, ¬s.GoesTo b t) :
    Extends (fun c => c = b) is s (s.grow b v) where
  count := le_refl _
  used := fun _ hv => hv
  starts := fun c hc => ⟨c, hc, s.start_grow b c v⟩
  linked := by
    intro i _ _ t _ hlinked
    rcases hlinked with ⟨c, hc, hle₁, hlt⟩ | ⟨c, hc, hfinal, ht⟩
    · refine Or.inl ⟨c, hc, by rwa [DfsState.start_grow], ?_⟩
      rw [DfsState.final_grow]
      split
      · rename_i hcb
        subst hcb
        omega
      · exact hlt
    · have hcb : c ≠ b := fun heq => hgoes t (heq ▸ ht)
      exact Or.inr ⟨c, hc, by rwa [DfsState.final_grow, if_neg hcb],
        (s.goesTo_grow b c v t).mpr ht⟩
  frame := by
    intro c _ hcb
    exact ⟨by rw [DfsState.final_grow, if_neg hcb], s.goesTo_grow b c v⟩

end Grow

section Visit

variable {s : DfsState} {v : ℕ}

theorem Inv.visit (hinv : Inv eh is s (some v)) (hreach : Reachable eh is v) :
    Inv eh is (s.visit v) none where
  slot := hinv.slot
  assigned := by
    intro i hi
    show (∃ b, s.vertexToBasicBlock i.offset = some b) ↔ i.offset ∈ s.used.insert v ∨ _
    rw [hinv.assigned i hi, HashSet.mem_insert, Option.some.injEq]
    simp only [reduceCtorEq, or_false]
    tauto
  start_isStart := hinv.start_isStart
  final_isStart := hinv.final_isStart
  start_le := hinv.start_le
  interior := hinv.interior
  leader := hinv.leader
  reachable := by
    intro u hu
    rcases HashSet.mem_insert.mp hu with rfl | hu
    · exact hreach
    · exact hinv.reachable u hu
  edge := hinv.edge
  inverse := hinv.inverse
  incoming_lt := hinv.incoming_lt
  grey := by
    intro u hu
    rcases HashSet.mem_insert.mp hu with rfl | hu
    · exact HashSet.mem_insert.mpr (Or.inl rfl)
    · exact HashSet.mem_insert.mpr (Or.inr (hinv.grey u hu))

theorem keeps_visit (s : DfsState) (v : ℕ) : Extends (fun _ => False) is s (s.visit v) where
  count := le_refl _
  used := fun _ hu => HashSet.mem_insert.mpr (Or.inr hu)
  starts := fun b hb => ⟨b, hb, rfl⟩
  linked := fun _ _ _ _ _ hlinked => hlinked
  frame := fun _ _ _ => ⟨rfl, fun _ => Iff.rfl⟩

theorem enter_eq {b : ℕ} (hv : v ≤ m.bytecode.size) (hgrey : v ∉ s.greyVertices)
    (hused : v ∉ s.used) : m.enter s b v = .ok (DfsState.visit { s with
      vertexToBasicBlock := Function.update s.vertexToBasicBlock v (some b) } v) := by
  rw [Method.enter, if_neg (by omega), addNew_eq hgrey]
  show (addNew s.used v >>= _) = _
  rw [addNew_eq hused]
  rfl

end Visit

end TestExecutor
