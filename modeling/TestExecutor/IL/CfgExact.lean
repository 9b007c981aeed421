import TestExecutor.IL.CfgDfs

/-!
# The graph is exact

The construction of a control-flow graph on a valid method: it ends, its blocks start at the
leaders of the method, they are the maximal runs of instructions between leaders and block ends,
and the edges are the control flow between them.

* `Method.startVertices_eq`, `Method.walkable` — the managed view of a valid body;
* `walks_spec` — the walks from all entries;
* `takeThrough_eq`, `getInstructions_eq` — the instructions of a block;
* `Discovered.exists_start_iff`, `Discovered.final_iff`, `Discovered.hasEdge_iff` — the blocks and
  the edges, when all is discovered;
* `CfgExact`, `cfgInfo_exact` — the construction ends with an exact graph.
-/

namespace TestExecutor

open TestExecutor.Library

variable {m : Method} {eh : List EhInfo} {is : List RawInstr}

/-! ### The managed view of a body -/

section Body

variable {body : MethodBody} {resolves : ℕ → Bool}

theorem EhClause.entries_create {clause : EhInfo} (h : ClauseKind clause.flags) :
    ((EhClause.create clause).handlerOffset ::
      match (EhClause.create clause).ehcType with
      | .filter offset => [offset]
      | _ => []) = clause.entries := by
  rw [EhInfo.entries, EhClause.create]
  rcases h with h | h | h | h <;> rw [h] <;> rfl

/-- The walk starts where control enters. -/
theorem Method.startVertices_eq (hvalid : ValidBody body is)
    (hm : Method.ofBody body resolves = .ok m) : m.startVertices = entryOffsets body.eh := by
  obtain ⟨-, hclauses, -, -, -⟩ := Method.ofBody_spec hm
  rw [Method.startVertices, entryOffsets, hclauses, List.flatMap_map]
  refine congrArg (List.cons 0) (List.flatMap_congr fun clause hclause => ?_)
  exact EhClause.entries_create (hvalid.clauseKinds clause hclause)

/-- A valid method on which both decoders agree can be walked. -/
theorem Method.walkable (hvalid : ValidBody body is) (hm : Method.ofBody body resolves = .ok m)
    (hstarts : SameStarts m is) (hplain : ∀ i ∈ is, i.opcode ≠ ceeTailcall ∧ i.opcode ≠ ceeJmp)
    (hresolves : ∀ i ∈ is, i.IsDemandingCall → resolves i.operand = true) :
    Walkable m body.eh is where
  consecutive := by
    rw [(Method.ofBody_spec hm).1]
    exact hvalid.consecutive
  keys := fun o => mem_keys_offsetToInstr hm hstarts
  starts := fun v hv => hvalid.isStart_of_reachable hv
  instr := by
    intro i hi
    obtain ⟨j, hj⟩ := exists_managedAt hvalid hm hstarts hi
    obtain ⟨tr, htransition, hof⟩ := transition_at hvalid hm hi (hplain i hi).2 hj
    exact ⟨j, tr, hj.lookup, htransition, hof, isDemandingCall_iff hj (hplain i hi).1,
      fun hcall => parseCallSite_at hvalid hm hi hj hcall (hresolves i hi hcall)⟩

end Body

/-! ### The walks from all entries -/

theorem Inv.init : Inv eh is .init none := by
  constructor <;> simp [DfsState.init, DfsState.HasEdge, DfsState.start]

/-- The walk from one entry. -/
theorem walkFrom_spec (hm : Walkable m eh is) {fuel : ℕ} {s : DfsState} (hinv : Inv eh is s none)
    {v : ℕ} (hv : v ∈ entryOffsets eh) (hfuel : unvisited is s < fuel) :
    ∃ s', m.walkFrom fuel s v = .ok s' ∧ Walked eh is (fun _ => True) s s' ∧ v ∈ s'.used
      ∧ ∃ b < s'.basicBlocksCount, s'.start b = v := by
  have hreach : Reachable eh is v := Reachable.entry hv
  obtain ⟨b, s₁, fresh, hrun₁, hinv₁, hkeeps₁, hentered, hused₁, hgrey₁, -⟩ :=
    makeNewBasicBlock_spec hm hinv (hm.starts v hreach) (Or.inl hv)
  obtain ⟨s₂, hrun₂, hwalked, hmem⟩ := (dfs'_spec hm fuel).jump s₁ b v fresh hinv₁ hentered hreach
    (lt_of_le_of_lt hkeeps₁.unvisited_le hfuel)
  obtain ⟨b', hb', hstart⟩ := hwalked.keeps.starts b hentered.lt
  refine ⟨s₂, ?_, ⟨hwalked.inv, hkeeps₁.trans hwalked.keeps fun _ _ _ => trivial,
    hwalked.grey.trans hgrey₁, ?_⟩, hmem, b', hb', hstart.trans hentered.start⟩
  · rw [Method.walkFrom, hrun₁]
    exact hrun₂
  · intro i hi hused hnot
    exact hwalked.done i hi hused (by rwa [hused₁])

/-- The walks from several entries. -/
theorem walks_spec (hm : Walkable m eh is) {fuel : ℕ} (vs : List ℕ) : ∀ s : DfsState,
    (∀ v ∈ vs, v ∈ entryOffsets eh) → Inv eh is s none → unvisited is s < fuel →
    ∃ s', vs.foldlM (m.walkFrom fuel) s = .ok s' ∧ Walked eh is (fun _ => True) s s'
      ∧ ∀ v ∈ vs, v ∈ s'.used ∧ ∃ b < s'.basicBlocksCount, s'.start b = v := by
  induction vs with
  | nil =>
      intro s _ hinv _
      exact ⟨s, rfl, Walked.of_used hinv (Extends.refl _ is s) rfl rfl, by simp⟩
  | cons v vs ih =>
      intro s hentry hinv hfuel
      obtain ⟨s₁, hrun₁, hwalked₁, hused₁, b, hb, hstart⟩ :=
        walkFrom_spec hm hinv (hentry v List.mem_cons_self) hfuel
      obtain ⟨s₂, hrun₂, hwalked₂, hall⟩ := ih s₁
        (fun u hu => hentry u (List.mem_cons_of_mem v hu)) hwalked₁.inv
        (lt_of_le_of_lt hwalked₁.keeps.unvisited_le hfuel)
      refine ⟨s₂, ?_, hwalked₁.trans hwalked₂ fun _ _ _ => trivial, fun u hu => ?_⟩
      · rw [List.foldlM_cons, hrun₁]
        exact hrun₂
      · rcases List.mem_cons.mp hu with rfl | hu
        · obtain ⟨b', hb', hstart'⟩ := hwalked₂.keeps.starts b hb
          exact ⟨hwalked₂.keeps.used u hused₁, b', hb', hstart'.trans hstart⟩
        · exact hall u hu

/-- A state in which everything is discovered. -/
structure Discovered (eh : List EhInfo) (is : List RawInstr) (s : DfsState) : Prop where
  inv : Inv eh is s none
  used_iff : ∀ v, v ∈ s.used ↔ Reachable eh is v
  linked : ∀ i ∈ is, i.offset ∈ s.used → ∀ t ∈ i.successors, s.Linked i.offset t
  entry : ∀ r ∈ entryOffsets eh, ∃ b < s.basicBlocksCount, s.start b = r

/-- Where control goes, according to the graph, was visited. -/
theorem Inv.used_of_linked (hcons : Consecutive 0 is m.bytecode.size) {s : DfsState}
    (hinv : Inv eh is s none) {i : RawInstr} (hi : i ∈ is) {t : ℕ} (ht : t ∈ i.successors)
    (hlinked : s.Linked i.offset t) : t ∈ s.used := by
  have hmem : ∀ j ∈ is, ∀ b, s.vertexToBasicBlock j.offset = some b → j.offset ∈ s.used := by
    intro j hj b hslot
    rcases (hinv.assigned j hj).mp ⟨b, hslot⟩ with h | h
    · exact h
    · cases h
  rcases hlinked with ⟨b, hb, hle, hlt⟩ | ⟨b, hb, -, c, hedge, rfl⟩
  · have hsucc := RawInstr.successors_of_not_endsBlock (hinv.interior b hb i hi hle hlt)
    rw [hsucc, List.mem_singleton] at ht
    obtain ⟨f, hf, hfinal⟩ := hinv.final_isStart b hb
    have hwlt := i.offset_lt_next
    rcases hcons.next_isStart hi with ⟨j, hj, hoffset⟩ | hend
    · have hle' : j.offset ≤ s.final b := by
        rw [← hfinal, hoffset]
        by_contra hgt
        exact absurd ((hcons.lt_next_iff hf hi).mp (by omega)) (by omega)
      rw [ht, ← hoffset]
      exact hmem j hj b ((hinv.slot j hj b).mpr ⟨hb, by omega, hle'⟩)
    · have := (hcons.bounds hf).2
      have := (hcons.lt_next_iff hf hi).mp (by have := f.offset_lt_next; omega)
      omega
  · have hc := (hinv.edge b hb c hedge).1
    obtain ⟨j, hj, hoffset⟩ := hinv.start_isStart c hc
    rw [← hoffset]
    exact hmem j hj c ((hinv.slot j hj c).mpr ⟨hc, by omega, by
      rw [hoffset]
      exact hinv.start_le c hc⟩)

/-- **The walks discover everything** that control can reach. -/
theorem walks_discover (hm : Walkable m eh is) {fuel : ℕ} (hfuel : is.length < fuel) :
    ∃ s, (entryOffsets eh).foldlM (m.walkFrom fuel) .init = .ok s ∧ Discovered eh is s := by
  obtain ⟨s, hrun, hwalked, hentry⟩ := walks_spec hm (entryOffsets eh) .init (fun _ h => h)
    Inv.init (lt_of_le_of_lt List.countP_le_length hfuel)
  have hlinked : ∀ i ∈ is, i.offset ∈ s.used → ∀ t ∈ i.successors, s.Linked i.offset t :=
    fun i hi hused => hwalked.done i hi hused HashSet.notMem_empty
  refine ⟨s, hrun, hwalked.inv, fun v => ⟨hwalked.inv.reachable v, fun hv => ?_⟩, hlinked,
    fun r hr => (hentry r hr).2⟩
  refine hv.closed (fun r hr => (hentry r hr).1) ?_
  rintro a t hused ⟨i, hi, rfl, ht⟩
  exact hwalked.inv.used_of_linked hm.consecutive hi ht (hlinked i hi hused t ht)

/-! ### The instructions of a block -/

/-- The loop of `GetInstructions` collects what is not behind the final offset. -/
theorem takeThrough_eq {final : ℕ} (js : List IlInstr) :
    js.Pairwise (fun j k => j.offset < k.offset) → final ∈ js.map IlInstr.offset →
      Method.takeThrough final js = .ok (js.filter fun j => j.offset ≤ final) := by
  induction js with
  | nil => intro _ h; cases h
  | cons j js ih =>
      intro hpairwise hmem
      obtain ⟨hhead, htail⟩ := List.pairwise_cons.mp hpairwise
      rw [Method.takeThrough]
      by_cases heq : j.offset = final
      · have hnone : js.filter (fun k => k.offset ≤ final) = [] := by
          refine List.filter_eq_nil_iff.mpr fun k hk => ?_
          have := hhead k hk
          simp only [decide_eq_true_eq]
          omega
        rw [if_pos heq, List.filter_cons_of_pos (by simp [heq]), hnone]
      · rw [List.map_cons, List.mem_cons] at hmem
        have hmem := hmem.resolve_left (Ne.symm heq)
        obtain ⟨k, hk, hfinal⟩ := List.mem_map.mp hmem
        have hlt := hhead k hk
        rw [if_neg heq, ih htail hmem,
          List.filter_cons_of_pos (by simp only [decide_eq_true_eq]; omega)]
        rfl

theorem dropWhile_eq {start : ℕ} (js : List IlInstr) :
    js.Pairwise (fun j k => j.offset < k.offset) → start ∈ js.map IlInstr.offset →
      js.dropWhile (fun j => j.offset ≠ start) = js.filter fun j => start ≤ j.offset := by
  induction js with
  | nil => intro _ h; cases h
  | cons j js ih =>
      intro hpairwise hmem
      obtain ⟨hhead, htail⟩ := List.pairwise_cons.mp hpairwise
      by_cases heq : j.offset = start
      · have hall : js.filter (fun k => start ≤ k.offset) = js := by
          refine List.filter_eq_self.mpr fun k hk => ?_
          have := hhead k hk
          simp only [decide_eq_true_eq]
          omega
        rw [List.dropWhile_cons_of_neg (by simpa using heq),
          List.filter_cons_of_pos (by simp [heq]), hall]
      · rw [List.map_cons, List.mem_cons] at hmem
        have hmem := hmem.resolve_left (Ne.symm heq)
        obtain ⟨k, hk, hstart⟩ := List.mem_map.mp hmem
        have hlt := hhead k hk
        rw [List.dropWhile_cons_of_pos (by simpa using heq), ih htail hmem,
          List.filter_cons_of_neg (by simp only [decide_eq_true_eq]; omega)]

/-- `GetInstructions` returns the instructions from the start to the final offset. -/
theorem getInstructions_eq
    (hpairwise : m.instructions.Pairwise fun j k => j.offset < k.offset) {block : BasicBlock}
    (hstart : block.startOffset ∈ m.instructions.map IlInstr.offset)
    (hfinal : block.finalOffset ∈ m.instructions.map IlInstr.offset)
    (hle : block.startOffset ≤ block.finalOffset) :
    m.getInstructions block = .ok (m.instructions.filter fun j =>
      block.startOffset ≤ j.offset ∧ j.offset ≤ block.finalOffset) := by
  rw [Method.getInstructions, dropWhile_eq m.instructions hpairwise hstart, takeThrough_eq,
    List.filter_filter]
  · refine congrArg Except.ok (List.filter_congr fun j _ => ?_)
    rw [← Bool.decide_and, decide_eq_decide, and_comm]
  · exact hpairwise.filter _
  · obtain ⟨j, hj, hoffset⟩ := List.mem_map.mp hfinal
    exact List.mem_map.mpr ⟨j, List.mem_filter.mpr ⟨hj, by
      rw [hoffset]
      exact decide_eq_true hle⟩, hoffset⟩

/-! ### Exactness -/

namespace Discovered

variable {s : DfsState}

/-- The way out of the end of a block is an edge. -/
theorem goesTo (h : Discovered eh is s) {b : ℕ} (hb : b < s.basicBlocksCount) {i : RawInstr}
    (hi : i ∈ is) (hoffset : i.offset = s.final b) {t : ℕ} (ht : t ∈ i.successors) :
    s.GoesTo b t := by
  have hused : i.offset ∈ s.used := by
    have hslot := (h.inv.slot i hi b).mpr ⟨hb, hoffset ▸ h.inv.start_le b hb, le_of_eq hoffset⟩
    rcases (h.inv.assigned i hi).mp ⟨b, hslot⟩ with hu | hu
    · exact hu
    · cases hu
  rcases h.linked i hi hused t ht with hinner | ⟨c, hc, hfinal, hgoes⟩
  · rw [hoffset] at hinner
    exact absurd hinner (h.inv.not_inner_final hb)
  · rwa [h.inv.eq_of_final hb hc (hoffset.symm.trans hfinal.symm)]

/-- An instruction lies in a block iff control can reach it. -/
theorem exists_block_iff (h : Discovered eh is s) {i : RawInstr} (hi : i ∈ is) :
    (∃ b < s.basicBlocksCount, s.start b ≤ i.offset ∧ i.offset ≤ s.final b)
      ↔ Reachable eh is i.offset := by
  rw [← h.used_iff]
  constructor
  · rintro ⟨b, hb, hin⟩
    rcases (h.inv.assigned i hi).mp ⟨b, (h.inv.slot i hi b).mpr ⟨hb, hin⟩⟩ with hu | hu
    · exact hu
    · cases hu
  · intro hused
    obtain ⟨b, hslot⟩ := (h.inv.assigned i hi).mpr (Or.inl hused)
    exact ⟨b, (h.inv.slot i hi b).mp hslot⟩

/-- An instruction that ends blocks is the last one of its block. -/
theorem final_of_endsBlock (h : Discovered eh is s) {b : ℕ} (hb : b < s.basicBlocksCount)
    {i : RawInstr} (hi : i ∈ is) (hle₁ : s.start b ≤ i.offset) (hle₂ : i.offset ≤ s.final b)
    (hends : i.EndsBlock) : i.offset = s.final b := by
  by_contra hne
  exact h.inv.interior b hb i hi hle₁ (by omega) hends

/-- **The blocks start at the leaders.** -/
theorem exists_start_iff (h : Discovered eh is s) (t : ℕ) :
    (∃ b < s.basicBlocksCount, s.start b = t) ↔ Leader eh is t := by
  constructor
  · rintro ⟨b, hb, rfl⟩
    exact h.inv.leader b hb
  · rintro (hentry | ⟨i, hi, hreach, hends, ht⟩)
    · exact h.entry t hentry
    · obtain ⟨b, hb, hle₁, hle₂⟩ := (h.exists_block_iff hi).mpr hreach
      obtain ⟨c, hc, hstart⟩ := h.goesTo hb hi (h.final_of_endsBlock hb hi hle₁ hle₂ hends) ht
      exact ⟨c, (h.inv.edge b hb c hc).1, hstart⟩

/-- **The last instruction** of a block ends it, or stands in front of a leader. -/
theorem final_iff (hcons : Consecutive 0 is m.bytecode.size) (h : Discovered eh is s) {b : ℕ}
    (hb : b < s.basicBlocksCount) {i : RawInstr} (hi : i ∈ is) (hle₁ : s.start b ≤ i.offset)
    (hle₂ : i.offset ≤ s.final b) : i.offset = s.final b ↔ i.EndsBlock ∨ Leader eh is i.next := by
  constructor
  · intro hoffset
    by_cases hends : i.EndsBlock
    · exact Or.inl hends
    · obtain ⟨c, hc, hstart⟩ := h.goesTo hb hi hoffset (t := i.next) (by
        rw [RawInstr.successors_of_not_endsBlock hends]
        exact List.mem_singleton_self _)
      exact Or.inr ((h.exists_start_iff _).mp ⟨c, (h.inv.edge b hb c hc).1, hstart⟩)
  · rintro (hends | hleader)
    · exact h.final_of_endsBlock hb hi hle₁ hle₂ hends
    · by_contra hne
      obtain ⟨c, hc, hstart⟩ := (h.exists_start_iff _).mpr hleader
      obtain ⟨f, hf, hfinal⟩ := h.inv.final_isStart b hb
      obtain ⟨j, hj, hoffset⟩ := h.inv.start_isStart c hc
      have hnext := i.offset_lt_next
      have hbefore := hcons.lt_next_iff hf hi
      have hcle := h.inv.start_le c hc
      have heq := h.inv.block_unique hj hb hc ⟨by omega, by omega⟩ ⟨by omega, by omega⟩
      subst heq
      omega

/-- **The edges** are the ways of control between blocks. -/
theorem hasEdge_iff (h : Discovered eh is s) {b c : ℕ} (hb : b < s.basicBlocksCount)
    (hc : c < s.basicBlocksCount) : s.HasEdge b c ↔ CanGo is (s.final b) (s.start c) := by
  constructor
  · intro hedge
    obtain ⟨-, i, hi, hoffset, hsucc⟩ := h.inv.edge b hb c hedge
    exact ⟨i, hi, hoffset, hsucc⟩
  · rintro ⟨i, hi, hoffset, hsucc⟩
    exact (h.inv.hasEdge_iff hb hc).mpr (h.goesTo hb hi hoffset hsucc)

end Discovered

/-- A graph that is exact, for the entries and the instructions of a method. -/
structure CfgExact (m : Method) (eh : List EhInfo) (is : List RawInstr) (cfg : CfgInfo) : Prop where
  sorted : cfg.sortedBasicBlocks.Pairwise fun b c =>
    (cfg.basicBlocks b).startOffset < (cfg.basicBlocks c).startOffset
  starts : ∀ t, (∃ b ∈ cfg.sortedBasicBlocks, (cfg.basicBlocks b).startOffset = t)
    ↔ Leader eh is t
  covers : ∀ v, Reachable eh is v → ∃! b, b ∈ cfg.sortedBasicBlocks
    ∧ (cfg.basicBlocks b).startOffset ≤ v ∧ v ≤ (cfg.basicBlocks b).finalOffset
  bounds : ∀ b ∈ cfg.sortedBasicBlocks, IsStart is (cfg.basicBlocks b).startOffset
    ∧ IsStart is (cfg.basicBlocks b).finalOffset
    ∧ (cfg.basicBlocks b).startOffset ≤ (cfg.basicBlocks b).finalOffset
  contiguous : ∀ b ∈ cfg.sortedBasicBlocks, m.getInstructions (cfg.basicBlocks b)
    = .ok (m.instructions.filter fun j => (cfg.basicBlocks b).startOffset ≤ j.offset
      ∧ j.offset ≤ (cfg.basicBlocks b).finalOffset)
  inside : ∀ b ∈ cfg.sortedBasicBlocks, ∀ i ∈ is, (cfg.basicBlocks b).startOffset ≤ i.offset →
    i.offset ≤ (cfg.basicBlocks b).finalOffset → Reachable eh is i.offset
      ∧ (i.offset = (cfg.basicBlocks b).finalOffset ↔ i.EndsBlock ∨ Leader eh is i.next)
  outgoing : ∀ b ∈ cfg.sortedBasicBlocks, ∀ c,
    (∃ edges, (cfg.basicBlocks b).outgoingEdges = some edges ∧ c ∈ edges)
      ↔ c ∈ cfg.sortedBasicBlocks
        ∧ CanGo is (cfg.basicBlocks b).finalOffset (cfg.basicBlocks c).startOffset
  incoming : ∀ c ∈ cfg.sortedBasicBlocks, ∀ b, b ∈ (cfg.basicBlocks c).incomingCFGEdges
    ↔ b ∈ cfg.sortedBasicBlocks
      ∧ ∃ edges, (cfg.basicBlocks b).outgoingEdges = some edges ∧ c ∈ edges

/-- What is left of the construction when everything is discovered. -/
theorem cfgInfo_of_discovered (hm : Walkable m eh is) (hstarts : SameStarts m is) {fuel : ℕ}
    {s : DfsState} (hrun : m.startVertices.foldlM (m.walkFrom fuel) .init = .ok s)
    (h : Discovered eh is s) : ∃ cfg, m.cfgInfo fuel = .ok cfg ∧ CfgExact m eh is cfg := by
  have hpairwise : m.instructions.Pairwise fun j k => j.offset < k.offset := by
    have hoffsets := hm.consecutive.offsets_pairwise
    rw [← hstarts] at hoffsets
    exact List.pairwise_map.mp hoffsets
  have hmem : ∀ o, o ∈ m.instructions.map IlInstr.offset ↔ IsStart is o := by
    intro o
    rw [hstarts, List.mem_map]
    rfl
  obtain ⟨sorted, hsorted⟩ : ∃ sorted, sorted = (List.range s.basicBlocksCount).insertionSort
      fun b c => (s.basicBlocks b).startOffset ≤ (s.basicBlocks c).startOffset := ⟨_, rfl⟩
  have hin : ∀ b, b ∈ sorted ↔ b < s.basicBlocksCount := by
    intro b
    rw [hsorted, (List.perm_insertionSort _ _).mem_iff, List.mem_range]
  have hinstrs : ∀ b ∈ sorted, m.getInstructions (s.basicBlocks b)
      = .ok (m.instructions.filter fun j => (s.basicBlocks b).startOffset ≤ j.offset
        ∧ j.offset ≤ (s.basicBlocks b).finalOffset) := by
    intro b hb
    have hlt := (hin b).mp hb
    exact getInstructions_eq hpairwise ((hmem _).mpr (h.inv.start_isStart b hlt))
      ((hmem _).mpr (h.inv.final_isStart b hlt)) (h.inv.start_le b hlt)
  obtain ⟨sizes, hsizes⟩ : ∃ sizes,
      sorted.mapM (fun b => m.blockSize (s.basicBlocks b)) = .ok sizes := by
    refine ⟨_, mapM_eq_ok (g := fun b => (m.instructions.filter fun j =>
      (s.basicBlocks b).startOffset ≤ j.offset
        ∧ j.offset ≤ (s.basicBlocks b).finalOffset).length) fun b hb => ?_⟩
    rw [Method.blockSize, hinstrs b hb]
    rfl
  refine ⟨⟨s.basicBlocks, sorted, sizes.sum, s.sinks, s.loopEntries⟩, ?_, ?_⟩
  · rw [Method.cfgInfo, hrun]
    change (((List.range s.basicBlocksCount).insertionSort fun b c =>
      (s.basicBlocks b).startOffset ≤ (s.basicBlocks c).startOffset).mapM
        (fun b => m.blockSize (s.basicBlocks b)) >>= _) = _
    rw [← hsorted, hsizes]
    rfl
  refine ⟨?sorted, ?starts, ?covers, ?bounds, hinstrs, ?inside, ?outgoing, ?incoming⟩
  case sorted =>
    have hle : sorted.Pairwise fun b c => s.start b ≤ s.start c := by
      rw [hsorted]
      exact List.pairwise_insertionSort (fun b c => s.start b ≤ s.start c) _
    have hnodup : sorted.Nodup := by
      rw [hsorted, (List.perm_insertionSort _ _).nodup_iff]
      exact List.nodup_range
    refine (hle.and hnodup).imp_of_mem fun {b c} hb hc hbc => ?_
    refine lt_of_le_of_ne hbc.1 fun heq => hbc.2 ?_
    exact h.inv.eq_of_start ((hin b).mp hb) ((hin c).mp hc) heq
  case starts =>
    intro t
    rw [← h.exists_start_iff t]
    simp only [hin]
    rfl
  case covers =>
    intro v hv
    obtain ⟨i, hi, rfl⟩ := hm.starts v hv
    obtain ⟨b, hb, hle⟩ := (h.exists_block_iff hi).mpr hv
    refine ⟨b, ⟨(hin b).mpr hb, hle⟩, ?_⟩
    rintro c ⟨hc, hcle⟩
    exact h.inv.block_unique hi ((hin c).mp hc) hb hcle hle
  case bounds =>
    intro b hb
    have hlt := (hin b).mp hb
    exact ⟨h.inv.start_isStart b hlt, h.inv.final_isStart b hlt, h.inv.start_le b hlt⟩
  case inside =>
    intro b hb i hi hle₁ hle₂
    have hlt := (hin b).mp hb
    exact ⟨(h.exists_block_iff hi).mp ⟨b, hlt, hle₁, hle₂⟩,
      h.final_iff hm.consecutive hlt hi hle₁ hle₂⟩
  case outgoing =>
    intro b hb c
    have hlt := (hin b).mp hb
    constructor
    · intro hedge
      have hclt := (h.inv.edge b hlt c hedge).1
      exact ⟨(hin c).mpr hclt, (h.hasEdge_iff hlt hclt).mp hedge⟩
    · rintro ⟨hc, hcan⟩
      exact (h.hasEdge_iff hlt ((hin c).mp hc)).mpr hcan
  case incoming =>
    intro c hc b
    have hlt := (hin c).mp hc
    constructor
    · intro hmem
      have hblt := h.inv.incoming_lt c hlt b hmem
      exact ⟨(hin b).mpr hblt, (h.inv.inverse b hblt c hlt).mp hmem⟩
    · rintro ⟨hb, hedge⟩
      exact (h.inv.inverse b ((hin b).mp hb) c hlt).mpr hedge

theorem walkFrom_mono {fuel fuel' : ℕ} (hle : fuel ≤ fuel') {s s' : DfsState} {v : ℕ}
    (hrun : m.walkFrom fuel s v = .ok s') : m.walkFrom fuel' s v = .ok s' :=
  bind_eq_ok_mono (fun _ hp => dfs'_mono hle hp) hrun

/-- More fuel gives the same graph. -/
theorem cfgInfo_mono {fuel fuel' : ℕ} (hle : fuel ≤ fuel') {cfg : CfgInfo}
    (hrun : m.cfgInfo fuel = .ok cfg) : m.cfgInfo fuel' = .ok cfg := by
  rw [Method.cfgInfo] at hrun ⊢
  cases hwalks : m.startVertices.foldlM (m.walkFrom fuel) .init with
  | error e =>
      rw [hwalks] at hrun
      cases hrun
  | ok s =>
      rw [hwalks] at hrun
      rw [foldlM_eq_ok_mono (fun _ _ _ => walkFrom_mono hle) _ _ hwalks]
      exact hrun

/-- **The graph is exact.**  On a valid body without `tail.` and `jmp`, whose managed instructions
start where the decoded ones do and whose call tokens can be resolved, the construction ends with
an exact graph. -/
theorem cfgInfo_exact {body : MethodBody} {resolves : ℕ → Bool} (hvalid : ValidBody body is)
    (hm : Method.ofBody body resolves = .ok m) (hstarts : SameStarts m is)
    (hplain : ∀ i ∈ is, i.opcode ≠ ceeTailcall ∧ i.opcode ≠ ceeJmp)
    (hresolves : ∀ i ∈ is, i.IsDemandingCall → resolves i.operand = true) :
    ∃ cfg, (∀ fuel, is.length < fuel → m.cfgInfo fuel = .ok cfg)
      ∧ CfgExact m body.eh is cfg := by
  have hwalkable := Method.walkable hvalid hm hstarts hplain hresolves
  obtain ⟨s, hrun, hdiscovered⟩ := walks_discover hwalkable (Nat.lt_succ_self is.length)
  rw [← Method.startVertices_eq hvalid hm] at hrun
  obtain ⟨cfg, hcfg, hexact⟩ := cfgInfo_of_discovered hwalkable hstarts hrun hdiscovered
  exact ⟨cfg, fun fuel hfuel => cfgInfo_mono hfuel hcfg, hexact⟩

/-- `nop`, and a loop that jumps back behind it: `ldc.i4.1; brtrue.s`; then `ret`. -/
def loopBody : MethodBody where
  flags := 0
  maxStack := 1
  localVarSigTok := 0
  code := ⟨[0x00, 0x17, 0x2D, 0xFD, 0x2A], by decide⟩
  eh := []

def loopInstrs : List RawInstr :=
  [⟨0, 0x00, 0, []⟩, ⟨1, 0x17, 0, []⟩, ⟨2, 0x2D, 0xFD, []⟩, ⟨4, 0x2A, 0, []⟩]

theorem loopBody_valid : ValidBody loopBody loopInstrs := by
  have hdecodes : decodeAll loopBody.code loopBody.code.size 0 = .ok loopInstrs := by
    decide +kernel
  refine ⟨hdecodes, by decide, by decide +kernel, by decide, by decide +kernel, by decide +kernel,
    by simp [loopBody], ?_⟩
  exact not_reachable_of_closed [0, 1, 2, 4] (by decide) (by decide +kernel) (by decide)

theorem loopBody_sameStarts : ∃ m, Method.ofBody loopBody (fun _ => true) = .ok m
    ∧ SameStarts m loopInstrs := by
  have hbuild : (build loopBody.code).map (fun p => p.1.map IlInstr.offset) = .ok [0, 1, 2, 4] := by
    decide +kernel
  rw [Method.ofBody]
  cases hp : build loopBody.code with
  | error e =>
      rw [hp] at hbuild
      cases hbuild
  | ok p =>
      rw [hp] at hbuild
      exact ⟨_, rfl, Except.ok.inj hbuild⟩

/-- The walk meets the loop when it is inside the block that the loop cuts. -/
theorem cfgInfo_exact_loop : ∃ m cfg, Method.ofBody loopBody (fun _ => true) = .ok m
    ∧ (∀ fuel, 4 < fuel → m.cfgInfo fuel = .ok cfg) ∧ CfgExact m [] loopInstrs cfg := by
  obtain ⟨m, hm, hstarts⟩ := loopBody_sameStarts
  obtain ⟨cfg, hcfg, hexact⟩ := cfgInfo_exact loopBody_valid hm hstarts (by decide) (by decide)
  exact ⟨m, cfg, hm, hcfg, hexact⟩

end TestExecutor
