import TestExecutor.Library.Loops
import TestExecutor.IL.CfgExact
import TestExecutor.Rewriter.Successors

/-!
# Sinks

The walk of `CFG.fs` notes the block that it is in when it meets a return.  Blocks are cut later on, and
others are grown; the note still names the block that ends with that return.

* `SameSinks` — what making blocks and edges leaves as it is;
* `Called`, `WalkSpec.exists_called` — a walk is only called where its specification speaks of it;
* `Sunk`, `dealWithJump_sunk`, `transfer_sunk`, `dfs'_sunk` — the walk keeps the notes right;
* `sinks_iff` — the sinks are the blocks that end with a return, each once.
-/

namespace TestExecutor

open TestExecutor.Library

variable {m : Method} {eh : List EhInfo} {is : List RawInstr}

/-! ### Blocks and edges -/

/-- Nothing new was visited, and the blocks that were there end where they ended. -/
structure SameSinks (s s' : DfsState) : Prop where
  sinks : s'.sinks = s.sinks
  used : s'.used = s.used
  count : s.basicBlocksCount ≤ s'.basicBlocksCount
  final : ∀ b < s.basicBlocksCount, s'.final b = s.final b

theorem SameSinks.refl (s : DfsState) : SameSinks s s := ⟨rfl, rfl, le_refl _, fun _ _ => rfl⟩

theorem SameSinks.trans {s s' s'' : DfsState} (h : SameSinks s s') (h' : SameSinks s' s'') :
    SameSinks s s'' where
  sinks := h'.sinks.trans h.sinks
  used := h'.used.trans h.used
  count := h.count.trans h'.count
  final := fun b hb => (h'.final b (lt_of_lt_of_le hb h.count)).trans (h.final b hb)

/-- A change of a block that leaves its final offset alone. -/
theorem sameSinks_modifyBlock (s : DfsState) (b : ℕ) {f : BasicBlock → BasicBlock}
    (hf : ∀ block, (f block).finalOffset = block.finalOffset) : SameSinks s (s.modifyBlock b f) := by
  refine ⟨rfl, rfl, le_refl _, fun c _ => ?_⟩
  rw [DfsState.final, DfsState.modifyBlock_basicBlocks]
  split
  · rename_i hcb
    rw [hf, hcb]
    rfl
  · rfl

theorem redirectParent_sameSinks {block newBlock parent : ℕ} {s s' : DfsState}
    (hrun : redirectParent block newBlock s parent = .ok s') :
    SameSinks s s' ∧ s'.vertexToBasicBlock = s.vertexToBasicBlock := by
  unfold redirectParent at hrun
  split at hrun
  · cases hrun
  · split at hrun
    · cases hrun
    · obtain ⟨edges, -, hrun⟩ := exists_of_bind_eq_ok hrun
      obtain ⟨incoming, -, hrun⟩ := exists_of_bind_eq_ok hrun
      rw [← Except.ok.inj hrun]
      refine ⟨(sameSinks_modifyBlock s parent ?_).trans (sameSinks_modifyBlock _ newBlock ?_), rfl⟩
      · exact fun _ => rfl
      · exact fun _ => rfl

/-- The new block is the only one whose end is set. -/
theorem splitBasicBlock_sameSinks {block intermediatePoint : ℕ} {s s' : DfsState}
    (hrun : m.splitBasicBlock s block intermediatePoint = .ok s') : SameSinks s s'
      ∧ s'.vertexToBasicBlock intermediatePoint = s.vertexToBasicBlock intermediatePoint := by
  unfold Method.splitBasicBlock at hrun
  obtain ⟨finalOffset, -, hrun⟩ := exists_of_bind_eq_ok hrun
  obtain ⟨s₁, hparents, hrun⟩ := exists_of_bind_eq_ok hrun
  obtain ⟨hsame, hslot⟩ : SameSinks s s₁
      ∧ s₁.vertexToBasicBlock intermediatePoint = s.vertexToBasicBlock intermediatePoint := by
    refine foldlM_invariant (fun _ t => SameSinks s t
      ∧ t.vertexToBasicBlock intermediatePoint = s.vertexToBasicBlock intermediatePoint) ?_
      ?_ hparents
    · rintro _ _ _ t t' _ ⟨ht, htslot⟩ hstep
      obtain ⟨hkept, hslots⟩ := redirectParent_sameSinks hstep
      exact ⟨ht.trans hkept, (congrFun hslots _).trans htslot⟩
    · refine ⟨⟨rfl, rfl, Nat.le_succ _, fun c hc => ?_⟩, if_neg fun h => lt_irrefl _ h.2⟩
      rw [DfsState.final]
      simp only [DfsState.setFinalOffset, DfsState.modifyBlock, Function.update_apply,
        if_neg (ne_of_lt hc)]
      split
      · rename_i hcb
        rw [← hcb, if_neg (ne_of_lt hc)]
        rfl
      · rfl
  rw [← Except.ok.inj hrun]
  refine ⟨hsame.trans ((sameSinks_modifyBlock _ block ?_).trans
    (sameSinks_modifyBlock _ s.basicBlocksCount ?_)), hslot⟩
  · exact fun _ => rfl
  · exact fun _ => rfl

/-- The block that is made or found is in the slot. -/
theorem makeNewBasicBlock_sameSinks {startVertex block : ℕ} {s s' : DfsState}
    (hrun : m.makeNewBasicBlock s startVertex = .ok (block, s')) :
    SameSinks s s' ∧ s'.vertexToBasicBlock startVertex = some block := by
  unfold Method.makeNewBasicBlock at hrun
  split at hrun
  · cases hrun
  · split at hrun
    · cases hrun
      refine ⟨⟨rfl, rfl, Nat.le_succ _, fun c hc => ?_⟩, Function.update_self _ _ _⟩
      exact (DfsState.addBlock_old (ne_of_lt hc)).2.1
    · rename_i found hfound
      split at hrun
      · cases hrun
        exact ⟨SameSinks.refl s, hfound⟩
      · obtain ⟨s₁, hsplit, hrun⟩ := exists_of_bind_eq_ok hrun
        cases hrun
        obtain ⟨hsame, hslot⟩ := splitBasicBlock_sameSinks hsplit
        exact ⟨hsame, hslot.trans hfound⟩

theorem addEdge_sameSinks {src dst : ℕ} {s s' : DfsState} (hrun : addEdge s src dst = .ok s') :
    SameSinks s s' ∧ s'.vertexToBasicBlock = s.vertexToBasicBlock := by
  unfold addEdge at hrun
  obtain ⟨incoming, -, hrun⟩ := exists_of_bind_eq_ok hrun
  dsimp only at hrun
  split at hrun
  · obtain ⟨edges, -, hrun⟩ := exists_of_bind_eq_ok hrun
    cases hrun
    refine ⟨(sameSinks_modifyBlock s dst ?_).trans (sameSinks_modifyBlock _ src ?_), rfl⟩
    · exact fun _ => rfl
    · exact fun _ => rfl
  · cases hrun
    refine ⟨(sameSinks_modifyBlock s dst ?_).trans (sameSinks_modifyBlock _ src ?_), rfl⟩
    · exact fun _ => rfl
    · exact fun _ => rfl

/-! ### Where the walk is called -/

/-- The specification of a walk speaks of it at a vertex that it enters by a jump, or by falling
through. -/
inductive Called (eh : List EhInfo) (is : List RawInstr) (bound : ℕ) : ℕ → ℕ → DfsState → Prop
  | jump {s : DfsState} {b v : ℕ} {fresh : Option ℕ} (hinv : Inv eh is s fresh)
      (hentered : Entered s b v fresh) (hreach : Reachable eh is v)
      (hbound : unvisited is s < bound) : Called eh is bound b v s
  | fall {s : DfsState} {b : ℕ} {w : RawInstr} (hw : w ∈ is) (hinv : Inv eh is s none)
      (hends : ¬w.EndsBlock) (hstand : Standing s b w) (hreach : Reachable eh is w.next)
      (hbound : unvisited is s < bound) : Called eh is bound b w.next (s.setFinalOffset b w.next)

theorem Called.lt {bound b v : ℕ} {s : DfsState} (h : Called eh is bound b v s) :
    b < s.basicBlocksCount := by
  cases h with
  | jump hinv hentered => exact hentered.lt
  | fall hw hinv hends hstand => exact hstand.lt

/-- At a new vertex the block ends there. -/
theorem Called.final_eq {bound b v : ℕ} {s : DfsState} (h : Called eh is bound b v s)
    (hunused : v ∉ s.used) : s.final b = v := by
  cases h with
  | jump hinv hentered =>
      rcases hentered.new with ⟨hused, -⟩ | ⟨-, -, hfinal, -⟩
      · exact absurd hused hunused
      · exact hfinal
  | fall => rw [DfsState.final_setFinalOffset, if_pos rfl]

/-- Behind the entry of a new vertex the walk stands at its instruction. -/
theorem Called.standing (hm : Walkable m eh is) {bound b v : ℕ} {s s' : DfsState}
    (h : Called eh is (bound + 1) b v s) (hunused : v ∉ s.used) (hrun : m.enter s b v = .ok s') :
    ∃ i ∈ is, i.offset = v ∧ Inv eh is s' none ∧ Standing s' b i ∧ Reachable eh is v
      ∧ unvisited is s' < bound := by
  cases h with
  | jump hinv hentered hreach hbound =>
      rcases hentered.new with ⟨hused, -⟩ | ⟨-, rfl, hfinal, hgoes⟩
      · exact absurd hused hunused
      obtain ⟨i, hi, rfl⟩ := hm.starts v hreach
      have hslot : Function.update s.vertexToBasicBlock i.offset (some b)
          = s.vertexToBasicBlock := by
        rw [← hentered.slot]
        exact Function.update_eq_self _ _
      rw [enter_eq (hm.offset_le hi) (fun h => hunused (hinv.grey _ h)) hunused, hslot] at hrun
      have hs' : s' = s.visit i.offset := (Except.ok.inj hrun).symm
      have hless : unvisited is (s.visit i.offset) < unvisited is s :=
        unvisited_lt hi hunused (HashSet.mem_insert.mpr (Or.inl rfl)) fun u hu =>
          HashSet.mem_insert.mpr (Or.inr hu)
      rw [hs']
      exact ⟨i, hi, rfl, hinv.visit hreach, ⟨hentered.lt, le_of_eq hentered.start, hfinal, hgoes⟩,
        hreach, by omega⟩
  | @fall s b w hw hinv hends hstand hreach hbound =>
      obtain ⟨i, hi, hoffset⟩ := hm.starts _ hreach
      have hwlt := w.offset_lt_next
      have hgrown : Inv eh is (s.grow b w.next) (some w.next) :=
        hinv.grow hm.consecutive hw hends hstand.lt hstand.start_le hstand.final_eq
          hstand.noEdge ⟨i, hi, hoffset⟩ hunused
      have hkeeps : Extends (fun c => c = b) is s (s.grow b w.next) :=
        keeps_grow (by rw [hstand.final_eq]; omega) hstand.noEdge
      have henter := enter_eq (m := m) (s := s.setFinalOffset b w.next) (b := b)
        (hoffset ▸ hm.offset_le hi) (fun h => hunused (hinv.grey _ h)) hunused
      have hs' : s' = (s.grow b w.next).visit w.next := (Except.ok.inj (henter.symm.trans hrun)).symm
      have hless : unvisited is ((s.grow b w.next).visit w.next) < unvisited is (s.grow b w.next) :=
        unvisited_lt hi (hoffset ▸ hunused) (hoffset ▸ HashSet.mem_insert.mpr (Or.inl rfl)) fun u hu =>
          HashSet.mem_insert.mpr (Or.inr hu)
      have hle := hkeeps.unvisited_le
      rw [hs']
      refine ⟨i, hi, hoffset, hgrown.visit hreach, ?_, hreach, by omega⟩
      refine ⟨hstand.lt, ?_, ?_, fun t => ?_⟩
      · show (s.grow b w.next).start b ≤ i.offset
        rw [DfsState.start_grow, hoffset]
        exact hstand.start_le.trans (le_of_lt hwlt)
      · show (s.grow b w.next).final b = i.offset
        rw [DfsState.final_grow, if_pos rfl, hoffset]
      · show ¬(s.grow b w.next).GoesTo b t
        rw [DfsState.goesTo_grow]
        exact hstand.noEdge t

/-- A walk can refuse all other calls. -/
theorem WalkSpec.exists_called {walk : ℕ → ℕ → DfsState → Except CfgError DfsState} {bound : ℕ}
    (h : WalkSpec eh is walk bound) : ∃ walk', WalkSpec eh is walk' bound
      ∧ ∀ b v s s', walk' b v s = .ok s' → Called eh is bound b v s ∧ walk b v s = .ok s' := by
  classical
  refine ⟨fun b v s => if Called eh is bound b v s then walk b v s else .error .assertFailed,
    ⟨?jump, ?fall⟩, ?called⟩
  case jump =>
    intro s b v fresh hinv hentered hreach hbound
    obtain ⟨s', hrun, hrest⟩ := h.jump s b v fresh hinv hentered hreach hbound
    exact ⟨s', (if_pos (.jump hinv hentered hreach hbound)).trans hrun, hrest⟩
  case fall =>
    intro s b w hw hinv hends hstand hreach hbound
    obtain ⟨s', hrun, hrest⟩ := h.fall s b w hw hinv hends hstand hreach hbound
    exact ⟨s', (if_pos (.fall hw hinv hends hstand hreach hbound)).trans hrun, hrest⟩
  case called =>
    intro b v s s' hrun
    dsimp only at hrun
    split at hrun
    · rename_i hcalled
      exact ⟨hcalled, hrun⟩
    · cases hrun

/-- The ways out of an instruction call the walk only where its specification speaks of it. -/
theorem transfer_called (hm : Walkable m eh is) {walk : ℕ → ℕ → DfsState → Except CfgError DfsState}
    {bound : ℕ} (hwalk : WalkSpec eh is walk bound) {s s' : DfsState} {b : ℕ} {i : RawInstr}
    (hi : i ∈ is) (hinv : Inv eh is s none) (hstand : Standing s b i)
    (hreach : Reachable eh is i.offset) (hbound : unvisited is s < bound)
    (hrun : m.transfer walk b i.offset s = .ok s') :
    ∃ walk', m.transfer walk' b i.offset s = .ok s'
      ∧ ∀ b v s s', walk' b v s = .ok s' → Called eh is bound b v s ∧ walk b v s = .ok s' := by
  obtain ⟨walk', hwalk', hcalled⟩ := hwalk.exists_called
  obtain ⟨s₁, hrun₁, -⟩ := transfer_spec hm hwalk' hi hinv hstand hreach hbound
  have hsame := transfer_mono (fun b v s s' h => (hcalled b v s s' h).2) hrun₁
  rw [Except.ok.inj (hsame.symm.trans hrun)] at hrun₁
  exact ⟨walk', hrun₁, hcalled⟩

/-! ### The notes -/

/-- Control returns behind the instruction at a vertex, as the managed side sees it. -/
def Method.ReturnsAt (m : Method) (v : ℕ) : Prop :=
  ∃ j, m.offsetToInstr.lookup v = some j
    ∧ findNextInstructionOffsetAndEdges j.opcode m.bytecode v = .ok .ret

/-- The sinks are blocks that end with a return, and all visited returns are ends of sinks. -/
structure Sunk (m : Method) (s : DfsState) : Prop where
  nodup : s.sinks.Nodup
  lt : ∀ b ∈ s.sinks, b < s.basicBlocksCount
  final : ∀ b ∈ s.sinks, s.final b ∈ s.used ∧ m.ReturnsAt (s.final b)
  found : ∀ v ∈ s.used, m.ReturnsAt v → ∃ b ∈ s.sinks, s.final b = v

section Notes

variable {s s' : DfsState} {b v : ℕ}

theorem Sunk.init : Sunk m .init := by
  constructor <;> simp [DfsState.init]

theorem SameSinks.sunk (h : SameSinks s s') (hs : Sunk m s) : Sunk m s' where
  nodup := by
    rw [h.sinks]
    exact hs.nodup
  lt := fun b hb => lt_of_lt_of_le (hs.lt b (h.sinks ▸ hb)) h.count
  final := by
    intro b hb
    rw [h.sinks] at hb
    rw [h.final b (hs.lt b hb), h.used]
    exact hs.final b hb
  found := by
    intro v hv hreturns
    rw [h.used] at hv
    obtain ⟨b, hb, hfinal⟩ := hs.found v hv hreturns
    exact ⟨b, h.sinks ▸ hb, (h.final b (hs.lt b hb)).trans hfinal⟩

/-- A block that is no sink can be grown. -/
theorem Sunk.setFinalOffset (hs : Sunk m s) (hb : b ∉ s.sinks) : Sunk m (s.setFinalOffset b v) := by
  have hfinal : ∀ c ∈ s.sinks, (s.setFinalOffset b v).final c = s.final c := by
    intro c hc
    rw [DfsState.final_setFinalOffset, if_neg fun h : c = b => hb (h ▸ hc)]
  refine ⟨hs.nodup, hs.lt, fun c hc => ?_, fun u hu hreturns => ?_⟩
  · rw [hfinal c hc]
    exact hs.final c hc
  · obtain ⟨c, hc, hu⟩ := hs.found u hu hreturns
    exact ⟨c, hc, (hfinal c hc).trans hu⟩

/-- A block that ends at a new vertex is no sink. -/
theorem Sunk.notMem (hs : Sunk m s) (hfinal : s.final b = v) (hunused : v ∉ s.used) :
    b ∉ s.sinks := by
  intro hb
  exact hunused (hfinal ▸ (hs.final b hb).1)

/-- The walk enters a vertex. -/
structure Enters (s : DfsState) (v : ℕ) (s' : DfsState) : Prop where
  sinks : s'.sinks = s.sinks
  used : s'.used = s.used.insert v
  count : s'.basicBlocksCount = s.basicBlocksCount
  final : ∀ b, s'.final b = s.final b

theorem enters_of_enter (hrun : m.enter s b v = .ok s') : Enters s v s' := by
  unfold Method.enter at hrun
  split at hrun
  · cases hrun
  · obtain ⟨grey, -, hrun⟩ := exists_of_bind_eq_ok hrun
    obtain ⟨used, hused, hrun⟩ := exists_of_bind_eq_ok hrun
    cases hrun
    unfold addNew at hused
    split at hused
    · cases hused
    · cases hused
      exact ⟨rfl, rfl, rfl, fun _ => rfl⟩

/-- What is no return needs no note. -/
theorem Enters.sunk (h : Enters s v s') (hs : Sunk m s) (hreturns : ¬m.ReturnsAt v) : Sunk m s' where
  nodup := by
    rw [h.sinks]
    exact hs.nodup
  lt := by
    rw [h.sinks, h.count]
    exact hs.lt
  final := by
    intro b hb
    rw [h.sinks] at hb
    rw [h.final, h.used]
    exact ⟨HashSet.mem_insert.mpr (Or.inr (hs.final b hb).1), (hs.final b hb).2⟩
  found := by
    intro u hu hreturns'
    rw [h.used] at hu
    rcases HashSet.mem_insert.mp hu with huv | hu
    · exact absurd (huv ▸ hreturns') hreturns
    · obtain ⟨b, hb, hfinal⟩ := hs.found u hu hreturns'
      exact ⟨b, h.sinks ▸ hb, (h.final b).trans hfinal⟩

/-- A return is noted with the block that it ends. -/
theorem Enters.sunk_ret (h : Enters s v s') (hs : Sunk m s) (hb : b ∉ s.sinks)
    (hlt : b < s.basicBlocksCount) (hreturns : m.ReturnsAt v) :
    Sunk m ({ s' with sinks := s'.sinks ++ [b] }.setFinalOffset b v) := by
  have hold : ∀ c ∈ s.sinks,
      ({ s' with sinks := s'.sinks ++ [b] }.setFinalOffset b v).final c = s.final c := by
    intro c hc
    rw [DfsState.final_setFinalOffset, if_neg fun heq : c = b => hb (heq ▸ hc)]
    exact h.final c
  have hnew : ({ s' with sinks := s'.sinks ++ [b] }.setFinalOffset b v).final b = v := by
    rw [DfsState.final_setFinalOffset, if_pos rfl]
  have hmem : ∀ c, c ∈ s'.sinks ++ [b] ↔ c ∈ s.sinks ∨ c = b := by
    intro c
    rw [h.sinks, List.mem_append, List.mem_singleton]
  have hused : ∀ u, u ∈ s'.used ↔ u = v ∨ u ∈ s.used := by
    intro u
    rw [h.used]
    exact HashSet.mem_insert
  refine ⟨?_, fun c hc => ?_, fun c hc => ?_, fun u hu hreturns' => ?_⟩
  · show (s'.sinks ++ [b]).Nodup
    rw [h.sinks]
    exact hs.nodup.append (List.nodup_singleton b) (by simpa using hb)
  · show c < s'.basicBlocksCount
    rw [h.count]
    rcases (hmem c).mp hc with hc | rfl
    · exact hs.lt c hc
    · exact hlt
  · rcases (hmem c).mp hc with hc | rfl
    · rw [hold c hc]
      exact ⟨(hused _).mpr (Or.inr (hs.final c hc).1), (hs.final c hc).2⟩
    · rw [hnew]
      exact ⟨(hused v).mpr (Or.inl rfl), hreturns⟩
  · rcases (hused u).mp hu with rfl | hu
    · exact ⟨b, (hmem b).mpr (Or.inr rfl), hnew⟩
    · obtain ⟨c, hc, hfinal⟩ := hs.found u hu hreturns'
      exact ⟨c, (hmem c).mpr (Or.inl hc), (hold c hc).trans hfinal⟩

end Notes

/-! ### The walk -/

/-- A walk that keeps the notes right, from a block that holds the vertex, or that is no sink. -/
def KeepsSunk (m : Method) (walk : ℕ → ℕ → DfsState → Except CfgError DfsState) : Prop :=
  ∀ b v s s', walk b v s = .ok s' → Sunk m s →
    (b ∈ s.sinks → v ∈ s.used ∧ s.vertexToBasicBlock v = some b) → Sunk m s'

section Transfer

variable {walk : ℕ → ℕ → DfsState → Except CfgError DfsState} {bound b v : ℕ} {s s' : DfsState}

theorem dealWithJump_sunk (hwalk : KeepsSunk m walk)
    (hcalled : ∀ b v s s', walk b v s = .ok s' → Called eh is bound b v s) {t : ℕ}
    (hrun : m.dealWithJump walk b s t = .ok s') (hs : Sunk m s) : Sunk m s' := by
  unfold Method.dealWithJump at hrun
  obtain ⟨⟨c, s₁⟩, hmake, hrun⟩ := exists_of_bind_eq_ok hrun
  obtain ⟨s₂, hadd, hrun⟩ := exists_of_bind_eq_ok hrun
  obtain ⟨hmade, hslot⟩ := makeNewBasicBlock_sameSinks hmake
  obtain ⟨hadded, hslots⟩ := addEdge_sameSinks hadd
  have hs₂ : Sunk m s₂ := hadded.sunk (hmade.sunk hs)
  refine hwalk c t s₂ s' hrun hs₂ fun hmem => ?_
  by_cases hused : t ∈ s₂.used
  · exact ⟨hused, (congrFun hslots t).trans hslot⟩
  · exact absurd hmem (hs₂.notMem ((hcalled c t s₂ s' hrun).final_eq hused) hused)

/-- Behind a new vertex: a return is noted, and the rest is left to the walk. -/
theorem transfer_sunk (hwalk : KeepsSunk m walk)
    (hcalled : ∀ b v s s', walk b v s = .ok s' → Called eh is bound b v s) {s₀ : DfsState}
    (hs : Sunk m s₀) (henters : Enters s₀ v s) (hb : b ∉ s₀.sinks) (hlt : b < s₀.basicBlocksCount)
    (hrun : m.transfer walk b v s = .ok s') : Sunk m s' := by
  have hbs : b ∉ s.sinks := by rwa [henters.sinks]
  unfold Method.transfer at hrun
  split at hrun
  · cases hrun
  rename_i j hlookup
  dsimp only at hrun
  obtain ⟨tr, htransition, hrun⟩ := exists_of_bind_eq_ok hrun
  -- without a return at the vertex there is nothing to note
  have hrest : tr ≠ .ret → Sunk m s := by
    refine fun hne => henters.sunk hs ?_
    rintro ⟨j', hlookup', hret⟩
    rw [hlookup] at hlookup'
    cases hlookup'
    exact hne (Except.ok.inj (htransition.symm.trans hret))
  have hjumps : ∀ targets : List ℕ, tr ≠ .ret →
      targets.foldlM (m.dealWithJump walk b) (s.setFinalOffset b v) = .ok s' → Sunk m s' := by
    intro targets hne hfold
    refine foldlM_invariant (fun _ t => Sunk m t) (fun _ t _ s₁ s₂ _ hs₁ hstep =>
      dealWithJump_sunk hwalk hcalled hstep hs₁) ?_ hfold
    exact (hrest hne).setFinalOffset hbs
  cases tr with
  | fallThrough offset =>
      change (if isDemandingCallOpCode j.opcode = true then _ else _) = Except.ok s' at hrun
      split at hrun
      · obtain ⟨opCode', -, hrun⟩ := exists_of_bind_eq_ok hrun
        split at hrun
        · cases hrun
        · exact hjumps [offset] (by simp) (by simpa using hrun)
      · exact hwalk b offset _ s' hrun ((hrest (by simp)).setFinalOffset hbs) fun hmem =>
          absurd hmem hbs
  | ret =>
      cases hrun
      exact henters.sunk_ret hs hb hlt ⟨j, hlookup, htransition⟩
  | exceptionMechanism =>
      cases hrun
      exact (hrest (by simp)).setFinalOffset hbs
  | unconditionalBranch target => exact hjumps [target] (by simp) (by simpa using hrun)
  | conditionalBranch fallThrough offsets => exact hjumps _ (by simp) hrun

end Transfer

theorem revisit_sunk {b v : ℕ} {s s' : DfsState} (hrun : m.revisit s b v = .ok s') (hs : Sunk m s)
    (hslot : b ∈ s.sinks → s.vertexToBasicBlock v = some b) : Sunk m s' := by
  -- behind the edge, if there is one
  have hbehind : ∀ s₁, Sunk m s₁ → (if v ∈ s₁.greyVertices then
      pure { s₁ with loopEntries := s₁.loopEntries.insert v } else pure s₁ : Except CfgError DfsState)
        = .ok s' → Sunk m s' := by
    intro s₁ hs₁ hrun
    split at hrun
    · cases hrun
      refine SameSinks.sunk ?_ hs₁
      exact ⟨rfl, rfl, le_refl _, fun _ _ => rfl⟩
    · cases hrun
      exact hs₁
  unfold Method.revisit at hrun
  split at hrun
  · cases hrun
  rename_i existingBasicBlock hexisting
  dsimp only at hrun
  split at hrun
  · rename_i hne
    obtain ⟨finalOffset, -, hrun⟩ := exists_of_bind_eq_ok hrun
    obtain ⟨s₁, hedge, hrun⟩ := exists_of_bind_eq_ok hrun
    have hb : b ∉ s.sinks := by
      intro hb
      rw [hslot hb] at hexisting
      exact hne (Option.some.inj hexisting)
    exact hbehind s₁ ((addEdge_sameSinks hedge).1.sunk (hs.setFinalOffset hb)) hrun
  · exact hbehind s hs hrun

/-- **The walk** keeps the notes right, where its specification speaks of it. -/
theorem dfs'_sunk (hm : Walkable m eh is) (fuel : ℕ) : ∀ b v s s', m.dfs' fuel b v s = .ok s' →
    Called eh is fuel b v s → Sunk m s →
    (b ∈ s.sinks → v ∈ s.used ∧ s.vertexToBasicBlock v = some b) → Sunk m s' := by
  induction fuel with
  | zero =>
      intro b v s s' hrun
      cases hrun
  | succ fuel ih =>
      intro b v s s' hrun hcall hs hb
      rw [Method.dfs'] at hrun
      split at hrun
      · exact revisit_sunk hrun hs fun hmem => (hb hmem).2
      · rename_i hunused
        obtain ⟨s₁, henter, hrun⟩ := exists_of_bind_eq_ok hrun
        obtain ⟨s₂, htransfer, hleave⟩ := exists_of_bind_eq_ok hrun
        obtain ⟨i, hi, rfl, hinv, hstand, hreach, hbound⟩ := hcall.standing hm hunused henter
        obtain ⟨walk, htransfer, hcalled⟩ :=
          transfer_called hm (dfs'_spec hm fuel) hi hinv hstand hreach hbound htransfer
        have hwalk : KeepsSunk m walk := by
          intro c u t t' hwalk ht hc
          obtain ⟨hcall, hrun⟩ := hcalled c u t t' hwalk
          exact ih c u t t' hrun hcall ht hc
        have hs₂ : Sunk m s₂ := transfer_sunk hwalk (fun c u t t' h => (hcalled c u t t' h).1) hs
          (enters_of_enter henter) (fun hmem => hunused (hb hmem).1) hcall.lt htransfer
        unfold DfsState.leave at hleave
        split at hleave
        · cases hleave
          refine SameSinks.sunk ?_ hs₂
          exact ⟨rfl, rfl, le_refl _, fun _ _ => rfl⟩
        · cases hleave

/-- The walks from several entries. -/
theorem walks_sunk (hm : Walkable m eh is) {fuel : ℕ} (hfuel : is.length < fuel) {s : DfsState}
    (hrun : (entryOffsets eh).foldlM (m.walkFrom fuel) .init = .ok s) : Sunk m s := by
  have hend : Inv eh is s none ∧ unvisited is s < fuel ∧ Sunk m s := by
    refine foldlM_invariant (fun _ t => Inv eh is t none ∧ unvisited is t < fuel ∧ Sunk m t) ?_ ?_ hrun
    · rintro pre v post s₁ s₂ hsplit ⟨hinv, hless, hs₁⟩ hstep
      have hv : v ∈ entryOffsets eh := by
        rw [hsplit]
        exact List.mem_append_right _ List.mem_cons_self
      obtain ⟨s₂', hstep', hwalked, -⟩ := walkFrom_spec hm hinv hv hless
      obtain rfl := Except.ok.inj (hstep'.symm.trans hstep)
      refine ⟨hwalked.inv, lt_of_le_of_lt hwalked.keeps.unvisited_le hless, ?_⟩
      have hreach : Reachable eh is v := Reachable.entry hv
      obtain ⟨b, s₁', fresh, hmake, hinv', hkeeps, hentered, -⟩ :=
        makeNewBasicBlock_spec hm hinv (hm.starts v hreach) (Or.inl hv)
      rw [Method.walkFrom, hmake] at hstep
      have hmade : Sunk m s₁' := (makeNewBasicBlock_sameSinks hmake).1.sunk hs₁
      have hcall : Called eh is fuel b v s₁' :=
        .jump hinv' hentered hreach (lt_of_le_of_lt hkeeps.unvisited_le hless)
      refine dfs'_sunk hm fuel b v s₁' s₂' hstep hcall hmade fun hmem => ⟨?_, hentered.slot⟩
      by_contra hunused
      exact hmade.notMem (hcall.final_eq hunused) hunused hmem
    · exact ⟨Inv.init, lt_of_le_of_lt List.countP_le_length hfuel, Sunk.init⟩
  exact hend.2.2

/-! ### The sinks of a graph -/

section Body

variable {body : MethodBody} {resolves : ℕ → Bool}

/-- What the managed side takes for a return is one. -/
theorem returnsAt_iff (hvalid : ValidBody body is) (hm : Method.ofBody body resolves = .ok m)
    (hstarts : SameStarts m is) {i : RawInstr} (hi : i ∈ is) :
    m.ReturnsAt i.offset ↔ IsReturn i.opcode := by
  obtain ⟨j, hj⟩ := exists_managedAt hvalid hm hstarts hi
  have hdec := hvalid.decodedAt hi
  have hctrl := (opCtrl_eq_iff hdec.opcode_lt).2.2.1
  have hreturns : m.ReturnsAt i.offset
      ↔ findNextInstructionOffsetAndEdges j.opcode m.bytecode i.offset = .ok .ret := by
    constructor
    · rintro ⟨j', hlookup, hret⟩
      rw [hj.lookup] at hlookup
      cases hlookup
      exact hret
    · exact fun hret => ⟨j, hj.lookup, hret⟩
  rw [hreturns, ← hctrl, (Method.ofBody_spec hm).1]
  by_cases hassigned : Assigned i.opcode
  · rw [hj.opcode_of_assigned hassigned, transition_of_decoded hdec, Except.ok.injEq,
      RawInstr.transition]
    cases opCtrl i.opcode <;> simp
  · have hnot := opCtrl_of_not_assigned hdec.opcode_lt hassigned
    rw [hj.opcode_eq, managedOpCode, if_neg hassigned]
    refine iff_of_false (fun h => ?_) fun h => ?_
    · cases h
    · rw [h] at hnot
      rcases hnot with h | h <;> cases h

/-- **The sinks** are the blocks that end with a return, each once: on a valid body without `tail.` and
`jmp`, whose managed instructions start where the decoded ones do and whose call tokens can be resolved,
whatever was cut and grown behind the note. -/
theorem sinks_iff (hvalid : ValidBody body is) (hm : Method.ofBody body resolves = .ok m)
    (hstarts : SameStarts m is) (hplain : ∀ i ∈ is, i.opcode ≠ ceeTailcall ∧ i.opcode ≠ ceeJmp)
    (hresolves : ∀ i ∈ is, i.IsDemandingCall → resolves i.operand = true) :
    ∃ cfg, (∀ fuel, is.length < fuel → m.cfgInfo fuel = .ok cfg) ∧ cfg.sinks.Nodup
      ∧ ∀ b, b ∈ cfg.sinks ↔ b ∈ cfg.sortedBasicBlocks
        ∧ ∃ i ∈ is, i.offset = (cfg.basicBlocks b).finalOffset ∧ IsReturn i.opcode := by
  have hwalkable := Method.walkable hvalid hm hstarts hplain hresolves
  obtain ⟨s, hrun, hdiscovered⟩ := walks_discover hwalkable (Nat.lt_succ_self is.length)
  have hs : Sunk m s := walks_sunk hwalkable (Nat.lt_succ_self is.length) hrun
  rw [← Method.startVertices_eq hvalid hm] at hrun
  obtain ⟨cfg, hcfg, -⟩ := cfgInfo_of_discovered hwalkable hstarts hrun hdiscovered
  refine ⟨cfg, fun fuel hfuel => cfgInfo_mono hfuel hcfg, ?_⟩
  unfold Method.cfgInfo at hcfg
  obtain ⟨s', hwalks, hcfg⟩ := exists_of_bind_eq_ok hcfg
  obtain rfl : s = s' := Except.ok.inj (hrun.symm.trans hwalks)
  obtain ⟨sizes, -, hcfg⟩ := exists_of_bind_eq_ok hcfg
  cases hcfg
  have hin : ∀ b, b ∈ (List.range s.basicBlocksCount).insertionSort
      (fun b c => (s.basicBlocks b).startOffset ≤ (s.basicBlocks c).startOffset)
        ↔ b < s.basicBlocksCount := by
    intro b
    rw [(List.perm_insertionSort _ _).mem_iff, List.mem_range]
  refine ⟨hs.nodup, fun b => ?_⟩
  rw [hin]
  constructor
  · intro hb
    obtain ⟨hused, hreturns⟩ := hs.final b hb
    obtain ⟨i, hi, hoffset⟩ := hdiscovered.inv.final_isStart b (hs.lt b hb)
    refine ⟨hs.lt b hb, i, hi, hoffset, (returnsAt_iff hvalid hm hstarts hi).mp ?_⟩
    rwa [hoffset]
  · rintro ⟨hb, i, hi, hoffset, hreturns⟩
    have hreach : Reachable body.eh is i.offset :=
      (hdiscovered.exists_block_iff hi).mp ⟨b, hb, hoffset ▸ hdiscovered.inv.start_le b hb,
        le_of_eq hoffset⟩
    obtain ⟨c, hc, hfinal⟩ := hs.found i.offset ((hdiscovered.used_iff _).mpr hreach)
      ((returnsAt_iff hvalid hm hstarts hi).mpr hreturns)
    rwa [hdiscovered.inv.eq_of_final hb (hs.lt c hc) (hoffset.symm.trans hfinal.symm)]

/-- The end of a small loop. -/
theorem sinks_iff_loop : ∃ m cfg, Method.ofBody loopBody (fun _ => true) = .ok m
    ∧ (∀ fuel, 4 < fuel → m.cfgInfo fuel = .ok cfg) ∧ cfg.sinks.Nodup
    ∧ ∀ b, b ∈ cfg.sinks ↔ b ∈ cfg.sortedBasicBlocks
      ∧ ∃ i ∈ loopInstrs, i.offset = (cfg.basicBlocks b).finalOffset ∧ IsReturn i.opcode := by
  obtain ⟨m, hm, hstarts⟩ := loopBody_sameStarts
  obtain ⟨cfg, hcfg, hsinks⟩ := sinks_iff loopBody_valid hm hstarts (by decide) (by decide)
  exact ⟨m, cfg, hm, hcfg, hsinks⟩

end Body

end TestExecutor
