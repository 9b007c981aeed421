import TestExecutor.Library.DepthFirst
import TestExecutor.Library.Loops
import TestExecutor.IL.CfgExact

/-!
# Loop entries

The walk of `CFG.fs` keeps its grey vertices in a set, and what it meets again while it is grey is
a loop entry.  Blocks are made and cut underneath, which the visits do not notice: they are a
depth-first search of the control flow.

* `SameVisits` — what the functions that work on blocks leave as it is;
* `Searched`, `Explored`, `DfsState.Settled` — the search, before and behind a part of the walk;
* `dealWithJump_explored`, `transfer_explored`, `dfs'_explored`, `walks_explored` — the walk;
* `loopEntries_cut` — the loop entries cut all cycles of the control flow, and lie on them.
-/

namespace TestExecutor

open TestExecutor.Library Relation

variable {m : Method} {eh : List EhInfo} {is : List RawInstr}

/-! ### Blocks do not matter -/

/-- The same vertices were visited, are grey, and were met again. -/
structure SameVisits (s s' : DfsState) : Prop where
  used : s'.used = s.used
  greyVertices : s'.greyVertices = s.greyVertices
  loopEntries : s'.loopEntries = s.loopEntries

theorem SameVisits.refl (s : DfsState) : SameVisits s s := ⟨rfl, rfl, rfl⟩

theorem SameVisits.trans {s s' s'' : DfsState} (h : SameVisits s s') (h' : SameVisits s' s'') :
    SameVisits s s'' :=
  ⟨h'.used.trans h.used, h'.greyVertices.trans h.greyVertices, h'.loopEntries.trans h.loopEntries⟩

theorem sameVisits_setFinalOffset (s : DfsState) (b v : ℕ) : SameVisits s (s.setFinalOffset b v) :=
  ⟨rfl, rfl, rfl⟩

theorem redirectParent_sameVisits {block newBlock parent : ℕ} {s s' : DfsState}
    (hrun : redirectParent block newBlock s parent = .ok s') : SameVisits s s' := by
  unfold redirectParent at hrun
  split at hrun
  · cases hrun
  · split at hrun
    · cases hrun
    · obtain ⟨edges, -, hrun⟩ := exists_of_bind_eq_ok hrun
      obtain ⟨incoming, -, hrun⟩ := exists_of_bind_eq_ok hrun
      rw [← Except.ok.inj hrun]
      exact ⟨rfl, rfl, rfl⟩

theorem splitBasicBlock_sameVisits {block intermediatePoint : ℕ} {s s' : DfsState}
    (hrun : m.splitBasicBlock s block intermediatePoint = .ok s') : SameVisits s s' := by
  unfold Method.splitBasicBlock at hrun
  obtain ⟨finalOffset, -, hrun⟩ := exists_of_bind_eq_ok hrun
  obtain ⟨s₁, hparents, hrun⟩ := exists_of_bind_eq_ok hrun
  have hsame : SameVisits s s₁ := by
    refine foldlM_invariant (fun _ t => SameVisits s t) ?_ ?_ hparents
    · intro _ _ _ t t' _ ht hstep
      exact ht.trans (redirectParent_sameVisits hstep)
    · exact ⟨rfl, rfl, rfl⟩
  rw [← Except.ok.inj hrun]
  exact hsame.trans ⟨rfl, rfl, rfl⟩

theorem makeNewBasicBlock_sameVisits {startVertex block : ℕ} {s s' : DfsState}
    (hrun : m.makeNewBasicBlock s startVertex = .ok (block, s')) : SameVisits s s' := by
  unfold Method.makeNewBasicBlock at hrun
  split at hrun
  · cases hrun
  · split at hrun
    · cases hrun
      exact ⟨rfl, rfl, rfl⟩
    · split at hrun
      · cases hrun
        exact SameVisits.refl s
      · obtain ⟨s₁, hsplit, hrun⟩ := exists_of_bind_eq_ok hrun
        cases hrun
        exact splitBasicBlock_sameVisits hsplit

theorem addEdge_sameVisits {src dst : ℕ} {s s' : DfsState} (hrun : addEdge s src dst = .ok s') :
    SameVisits s s' := by
  unfold addEdge at hrun
  obtain ⟨incoming, -, hrun⟩ := exists_of_bind_eq_ok hrun
  dsimp only at hrun
  split at hrun
  · obtain ⟨edges, -, hrun⟩ := exists_of_bind_eq_ok hrun
    cases hrun
    exact ⟨rfl, rfl, rfl⟩
  · cases hrun
    exact ⟨rfl, rfl, rfl⟩

/-! ### The search -/

/-- A vertex is visited, and if the walk stands behind it, then it is a loop entry. -/
def DfsState.Settled (s : DfsState) (v : ℕ) : Prop :=
  v ∈ s.used ∧ (v ∈ s.greyVertices → v ∈ s.loopEntries)

/-- The visits are a search of the control flow. -/
structure Searched (eh : List EhInfo) (is : List RawInstr) (s : DfsState) : Prop where
  search : Search (CanGo is) {v | v ∈ s.used} {v | v ∈ s.greyVertices} {v | v ∈ s.loopEntries}
  reachable : ∀ v ∈ s.used, Reachable eh is v

/-- What a part of the walk does to the visits. -/
structure Explored (eh : List EhInfo) (is : List RawInstr) (s s' : DfsState) : Prop where
  searched : Searched eh is s'
  greyVertices : s'.greyVertices = s.greyVertices
  used : ∀ v ∈ s.used, v ∈ s'.used
  loopEntries : ∀ v ∈ s.loopEntries, v ∈ s'.loopEntries

theorem Explored.trans {s s' s'' : DfsState} (h : Explored eh is s s')
    (h' : Explored eh is s' s'') : Explored eh is s s'' where
  searched := h'.searched
  greyVertices := h'.greyVertices.trans h.greyVertices
  used := fun v hv => h'.used v (h.used v hv)
  loopEntries := fun v hv => h'.loopEntries v (h.loopEntries v hv)

theorem Explored.settled {s s' : DfsState} (h : Explored eh is s s') {v : ℕ} (hv : s.Settled v) :
    s'.Settled v := by
  refine ⟨h.used v hv.1, fun hgrey => ?_⟩
  rw [h.greyVertices] at hgrey
  exact h.loopEntries v (hv.2 hgrey)

theorem SameVisits.explored {s s' : DfsState} (h : SameVisits s s') (hs : Searched eh is s) :
    Explored eh is s s' where
  searched := by
    refine ⟨?_, fun v hv => hs.reachable v (by rwa [h.used] at hv)⟩
    rw [h.used, h.greyVertices, h.loopEntries]
    exact hs.search
  greyVertices := h.greyVertices
  used := fun v hv => by rwa [h.used]
  loopEntries := fun v hv => by rwa [h.loopEntries]

theorem Searched.init : Searched eh is .init := by
  refine ⟨?_, fun v hv => absurd hv HashSet.notMem_empty⟩
  have hempty : ({v | v ∈ (HashSet.empty : HashSet ℕ)} : Set ℕ) = ∅ :=
    Set.eq_empty_of_forall_notMem fun v => HashSet.notMem_empty
  show Search (CanGo is) {v | v ∈ HashSet.empty} {v | v ∈ HashSet.empty} {v | v ∈ HashSet.empty}
  rw [hempty]
  exact Search.empty

/-- The walk enters a vertex. -/
theorem enter_searched {b v : ℕ} {s s' : DfsState} (hrun : m.enter s b v = .ok s')
    (hs : Searched eh is s) (hv : Reachable eh is v) : Searched eh is s' ∧ v ∉ s.greyVertices
      ∧ s'.greyVertices = s.greyVertices.insert v ∧ s'.used = s.used.insert v
      ∧ s'.loopEntries = s.loopEntries := by
  unfold Method.enter at hrun
  split at hrun
  · cases hrun
  · obtain ⟨grey, hgrey, hrun⟩ := exists_of_bind_eq_ok hrun
    obtain ⟨used, hused, hrun⟩ := exists_of_bind_eq_ok hrun
    cases hrun
    unfold addNew at hgrey hused
    split at hgrey
    · cases hgrey
    · rename_i hnot
      split at hused
      · cases hused
      · cases hgrey
        cases hused
        have hinsert : ∀ set : HashSet ℕ, {u | u ∈ set.insert v} = insert v {u | u ∈ set} :=
          fun set => Set.ext fun u => HashSet.mem_insert
        refine ⟨⟨?_, fun u hu => ?_⟩, hnot, rfl, rfl, rfl⟩
        · show Search (CanGo is) {u | u ∈ s.used.insert v} {u | u ∈ s.greyVertices.insert v} _
          rw [hinsert, hinsert]
          exact hs.search.enter
        · rcases HashSet.mem_insert.mp hu with huv | hu
          · rwa [huv]
          · exact hs.reachable u hu

/-- The walk leaves a vertex when all that lies behind it is settled. -/
theorem leave_searched {v : ℕ} {s s' : DfsState} (hrun : s.leave v = .ok s')
    (hs : Searched eh is s) (hnext : ∀ t, CanGo is v t → s.Settled t) :
    Searched eh is s' ∧ s'.greyVertices = s.greyVertices.remove v ∧ s'.used = s.used
      ∧ s'.loopEntries = s.loopEntries := by
  unfold DfsState.leave at hrun
  split at hrun
  · cases hrun
    refine ⟨⟨?_, hs.reachable⟩, rfl, rfl, rfl⟩
    have hremove : {u | u ∈ s.greyVertices.remove v} = {u | u ∈ s.greyVertices} \ {v} := by
      ext u
      exact HashSet.mem_remove.trans and_comm
    show Search (CanGo is) {u | u ∈ s.used} {u | u ∈ s.greyVertices.remove v} _
    rw [hremove]
    exact hs.search.leave hnext
  · cases hrun

/-- The walk comes to a vertex that was visited before. -/
theorem revisit_explored {b v : ℕ} {s s' : DfsState} (hrun : m.revisit s b v = .ok s')
    (hs : Searched eh is s) (hused : v ∈ s.used)
    (hgrey : ∀ g ∈ s.greyVertices, TransGen (CanGo is) g v) :
    Explored eh is s s' ∧ s'.Settled v := by
  -- behind the edge, if there is one
  have hbehind : ∀ s₁, SameVisits s s₁ → (if v ∈ s₁.greyVertices then
      pure { s₁ with loopEntries := s₁.loopEntries.insert v } else pure s₁ : Except CfgError DfsState)
        = .ok s' → Explored eh is s s' ∧ s'.Settled v := by
    intro s₁ hsame hrun
    have hexplored : Explored eh is s s₁ := hsame.explored hs
    split at hrun
    · rename_i hv
      cases hrun
      refine ⟨hexplored.trans ⟨⟨?_, hexplored.searched.reachable⟩, rfl, fun u hu => hu,
        fun u hu => HashSet.mem_insert.mpr (Or.inr hu)⟩, hexplored.used v hused,
        fun _ => HashSet.mem_insert.mpr (Or.inl rfl)⟩
      have hinsert : {u | u ∈ s₁.loopEntries.insert v} = insert v {u | u ∈ s₁.loopEntries} :=
        Set.ext fun u => HashSet.mem_insert
      show Search (CanGo is) _ _ {u | u ∈ s₁.loopEntries.insert v}
      rw [hinsert]
      -- the walk stands behind all grey vertices, so behind this one
      exact hexplored.searched.search.again hv (hgrey v (by rwa [hsame.greyVertices] at hv))
    · rename_i hv
      cases hrun
      exact ⟨hexplored, hexplored.used v hused, fun h => absurd h hv⟩
  unfold Method.revisit at hrun
  split at hrun
  · cases hrun
  · dsimp only at hrun
    split at hrun
    · obtain ⟨finalOffset, -, hrun⟩ := exists_of_bind_eq_ok hrun
      obtain ⟨s₁, hedge, hrun⟩ := exists_of_bind_eq_ok hrun
      exact hbehind s₁
        ((sameVisits_setFinalOffset s b finalOffset).trans (addEdge_sameVisits hedge)) hrun
    · exact hbehind s (SameVisits.refl s) hrun

/-! ### The walk -/

/-- The transitions that the walk finds are the control flow. -/
def FollowsControl (m : Method) (is : List RawInstr) : Prop :=
  ∀ v j, m.offsetToInstr.lookup v = some j → ∃ i ∈ is, i.offset = v ∧ ∃ tr,
    findNextInstructionOffsetAndEdges j.opcode m.bytecode v = .ok tr ∧ TransitionOf i tr
      ∧ ∀ t, CanGo is v t ↔ t ∈ i.successors

/-- A walk that searches on from a vertex behind all grey ones. -/
def Explores (eh : List EhInfo) (is : List RawInstr)
    (walk : ℕ → ℕ → DfsState → Except CfgError DfsState) : Prop :=
  ∀ b v s s', walk b v s = .ok s' → Searched eh is s → Reachable eh is v →
    (∀ g ∈ s.greyVertices, TransGen (CanGo is) g v) → Explored eh is s s' ∧ s'.Settled v

section Transfer

variable {walk : ℕ → ℕ → DfsState → Except CfgError DfsState}

theorem dealWithJump_explored (hwalk : Explores eh is walk) {b t : ℕ} {s s' : DfsState}
    (hrun : m.dealWithJump walk b s t = .ok s') (hs : Searched eh is s) (ht : Reachable eh is t)
    (hgrey : ∀ g ∈ s.greyVertices, TransGen (CanGo is) g t) :
    Explored eh is s s' ∧ s'.Settled t := by
  unfold Method.dealWithJump at hrun
  obtain ⟨⟨c, s₁⟩, hmake, hrun⟩ := exists_of_bind_eq_ok hrun
  obtain ⟨s₂, hadd, hrun⟩ := exists_of_bind_eq_ok hrun
  have hsame : SameVisits s s₂ :=
    (makeNewBasicBlock_sameVisits hmake).trans (addEdge_sameVisits hadd)
  have hexplored : Explored eh is s s₂ := hsame.explored hs
  obtain ⟨hwalked, hsettled⟩ := hwalk c t s₂ s' hrun hexplored.searched ht
    (by rwa [hsame.greyVertices])
  exact ⟨hexplored.trans hwalked, hsettled⟩

/-- Jumps to several targets, one behind the other. -/
theorem jumps_explored (hwalk : Explores eh is walk) {b : ℕ} {targets : List ℕ} {s s' : DfsState}
    (hrun : targets.foldlM (m.dealWithJump walk b) s = .ok s') (hs : Searched eh is s)
    (htargets : ∀ t ∈ targets, Reachable eh is t
      ∧ ∀ g ∈ s.greyVertices, TransGen (CanGo is) g t) :
    Explored eh is s s' ∧ ∀ t ∈ targets, s'.Settled t := by
  refine foldlM_invariant (fun done s₁ => Explored eh is s s₁ ∧ ∀ t ∈ done, s₁.Settled t) ?_
    ⟨(SameVisits.refl s).explored hs, fun t ht => absurd ht List.not_mem_nil⟩ hrun
  intro pre t post s₁ s₂ hsplit hI hstep
  obtain ⟨hexplored, hdone⟩ := hI
  have hmem : t ∈ targets := by
    rw [hsplit]
    exact List.mem_append_right _ List.mem_cons_self
  obtain ⟨hwalked, hsettled⟩ := dealWithJump_explored hwalk hstep hexplored.searched
    (htargets t hmem).1 (by rw [hexplored.greyVertices]; exact (htargets t hmem).2)
  refine ⟨hexplored.trans hwalked, fun u hu => ?_⟩
  rcases List.mem_append.mp hu with hu | hu
  · exact hwalked.settled (hdone u hu)
  · rw [List.mem_singleton.mp hu]
    exact hsettled

/-- **The transition out of a vertex** settles all that lies behind it. -/
theorem transfer_explored (hm : FollowsControl m is) (hwalk : Explores eh is walk) {b v : ℕ}
    {s s' : DfsState} (hrun : m.transfer walk b v s = .ok s') (hs : Searched eh is s)
    (hv : Reachable eh is v) (hgrey : ∀ g ∈ s.greyVertices, ReflTransGen (CanGo is) g v) :
    Explored eh is s s' ∧ ∀ t, CanGo is v t → s'.Settled t := by
  unfold Method.transfer at hrun
  split at hrun
  · cases hrun
  rename_i j hlookup
  obtain ⟨i, hi, hoffset, tr, htransition, hof, hcan⟩ := hm v j hlookup
  have hreach : ∀ t, CanGo is v t → Reachable eh is t
      ∧ ∀ g ∈ s.greyVertices, TransGen (CanGo is) g t :=
    fun t ht => ⟨hv.step ht, fun g hg => TransGen.tail' (hgrey g hg) ht⟩
  have hfinal : ∀ u, Explored eh is s (s.setFinalOffset b u) :=
    fun u => (sameVisits_setFinalOffset s b u).explored hs
  -- jumps to what lies behind the vertex, from a block whose end is now known
  have hjumps : ∀ u (targets : List ℕ), (∀ t, CanGo is v t ↔ t ∈ targets) →
      targets.foldlM (m.dealWithJump walk b) (s.setFinalOffset b u) = .ok s' →
        Explored eh is s s' ∧ ∀ t, CanGo is v t → s'.Settled t := by
    intro u targets htargets hfold
    obtain ⟨hexplored, hsettled⟩ := jumps_explored hwalk hfold (hfinal u).searched
      fun t ht => hreach t ((htargets t).mpr ht)
    exact ⟨(hfinal u).trans hexplored, fun t ht => hsettled t ((htargets t).mp ht)⟩
  dsimp only at hrun
  rw [htransition] at hrun
  cases hof with
  | fallThrough _ hsucc =>
      have hnext : ∀ t, CanGo is v t ↔ t ∈ [i.next] := fun t => by rw [hcan, hsucc]
      change (if isDemandingCallOpCode j.opcode = true then _ else _) = Except.ok s' at hrun
      split at hrun
      · obtain ⟨opCode', -, hrun⟩ := exists_of_bind_eq_ok hrun
        split at hrun
        · cases hrun
        · exact hjumps v [i.next] hnext (by simpa using hrun)
      · obtain ⟨hreachable, hbehind⟩ := hreach i.next ((hnext _).mpr (List.mem_singleton_self _))
        obtain ⟨hexplored, hsettled⟩ :=
          hwalk b i.next _ s' hrun (hfinal i.next).searched hreachable hbehind
        refine ⟨(hfinal i.next).trans hexplored, fun t ht => ?_⟩
        rw [List.mem_singleton.mp ((hnext t).mp ht)]
        exact hsettled
  | ret _ hsucc =>
      cases hrun
      refine ⟨SameVisits.explored ⟨rfl, rfl, rfl⟩ hs, fun t ht => ?_⟩
      rw [hcan, hsucc] at ht
      exact absurd ht List.not_mem_nil
  | exceptionMechanism _ hsucc =>
      cases hrun
      refine ⟨hfinal v, fun t ht => ?_⟩
      rw [hcan, hsucc] at ht
      exact absurd ht List.not_mem_nil
  | @unconditionalBranch target _ hsucc =>
      change m.dealWithJump walk b (s.setFinalOffset b v) target = Except.ok s' at hrun
      exact hjumps v [target] (fun t => by rw [hcan, hsucc]) (by simpa using hrun)
  | @conditionalBranch target _ hsucc =>
      refine hjumps v _ (fun t => ?_) hrun
      rw [hcan, hsucc]
      exact HashSet.mem_ofList.symm

end Transfer

/-- **The walk** searches on from a vertex. -/
theorem dfs'_explored (hm : FollowsControl m is) (fuel : ℕ) : Explores eh is (m.dfs' fuel) := by
  induction fuel with
  | zero =>
      intro b v s s' hrun
      cases hrun
  | succ fuel ih =>
      intro b v s s' hrun hs hv hgrey
      rw [Method.dfs'] at hrun
      split at hrun
      · rename_i hused
        exact revisit_explored hrun hs hused hgrey
      · obtain ⟨s₁, henter, hrun⟩ := exists_of_bind_eq_ok hrun
        obtain ⟨s₂, htransfer, hleave⟩ := exists_of_bind_eq_ok hrun
        obtain ⟨hs₁, hnot, hgrey₁, hused₁, hentries₁⟩ := enter_searched henter hs hv
        -- the walk stands behind what was grey, and at the vertex itself
        have hbehind : ∀ g ∈ s₁.greyVertices, ReflTransGen (CanGo is) g v := by
          intro g hg
          rw [hgrey₁] at hg
          rcases HashSet.mem_insert.mp hg with hgv | hg
          · rw [hgv]
          · exact (hgrey g hg).to_reflTransGen
        obtain ⟨hexplored, hsettled⟩ := transfer_explored hm ih htransfer hs₁ hv hbehind
        obtain ⟨hs', hgrey', hused', hentries'⟩ := leave_searched hleave hexplored.searched hsettled
        have hback : s'.greyVertices = s.greyVertices := by
          rw [hgrey', hexplored.greyVertices, hgrey₁, HashSet.remove_insert hnot]
        refine ⟨⟨hs', hback, fun u hu => ?_, fun u hu => ?_⟩, ?_, fun h => absurd h ?_⟩
        · rw [hused']
          exact hexplored.used u (by rw [hused₁]; exact HashSet.mem_insert.mpr (Or.inr hu))
        · rw [hentries']
          exact hexplored.loopEntries u (by rwa [hentries₁])
        · rw [hused']
          exact hexplored.used v (by rw [hused₁]; exact HashSet.mem_insert.mpr (Or.inl rfl))
        · rwa [hback]

/-- The walks from several entries. -/
theorem walks_explored (hm : FollowsControl m is) {fuel : ℕ} {vs : List ℕ} {s : DfsState}
    (hrun : vs.foldlM (m.walkFrom fuel) .init = .ok s) (hvs : ∀ v ∈ vs, Reachable eh is v) :
    Searched eh is s ∧ (∀ v, v ∉ s.greyVertices) ∧ ∀ v ∈ vs, v ∈ s.used := by
  have hend : Explored eh is .init s ∧ ∀ v ∈ vs, v ∈ s.used := by
    refine foldlM_invariant (fun done s₁ => Explored eh is .init s₁ ∧ ∀ v ∈ done, v ∈ s₁.used) ?_
      ⟨(SameVisits.refl _).explored Searched.init, fun v hv => absurd hv List.not_mem_nil⟩ hrun
    intro pre v post s₁ s₂ hsplit hI hstep
    obtain ⟨hexplored, hdone⟩ := hI
    have hv : v ∈ vs := by
      rw [hsplit]
      exact List.mem_append_right _ List.mem_cons_self
    unfold Method.walkFrom at hstep
    obtain ⟨⟨b, s₁'⟩, hmake, hwalk⟩ := exists_of_bind_eq_ok hstep
    have hmade : Explored eh is .init s₁' :=
      hexplored.trans ((makeNewBasicBlock_sameVisits hmake).explored hexplored.searched)
    obtain ⟨hwalked, hsettled⟩ := dfs'_explored hm fuel b v s₁' s₂ hwalk hmade.searched (hvs v hv)
      fun g hg => by
        rw [hmade.greyVertices] at hg
        exact absurd hg HashSet.notMem_empty
    refine ⟨hmade.trans hwalked, fun u hu => ?_⟩
    rcases List.mem_append.mp hu with hu | hu
    · have hsame := (makeNewBasicBlock_sameVisits hmake).used
      exact hwalked.used u (by rw [hsame]; exact hdone u hu)
    · rw [List.mem_singleton.mp hu]
      exact hsettled.1
  refine ⟨hend.1.searched, fun v => ?_, hend.2⟩
  rw [hend.1.greyVertices]
  exact HashSet.notMem_empty

/-! ### Cycles -/

/-- The loop entries of a graph cut the cycles of the control flow, and lie on them. -/
structure CutsLoops (eh : List EhInfo) (is : List RawInstr) (cfg : CfgInfo) : Prop where
  cut : ∀ c : Cycle ℕ, c ≠ Cycle.nil → c.Chain (CanGo is) → (∀ v ∈ c, Reachable eh is v) →
    ∃ e ∈ c, cfg.IsLoopEntry e
  cycle : ∀ e, cfg.IsLoopEntry e → ∃ c : Cycle ℕ, c.Nodup ∧ c.Chain (CanGo is) ∧ e ∈ c
    ∧ ∀ v ∈ c, Reachable eh is v

/-- Behind the walks from all entries the search is over. -/
theorem Searched.cutsLoops {s : DfsState} (hs : Searched eh is s) (hgrey : ∀ v, v ∉ s.greyVertices)
    (hentries : ∀ v ∈ entryOffsets eh, v ∈ s.used) {cfg : CfgInfo}
    (hcfg : cfg.loopEntries = s.loopEntries) : CutsLoops eh is cfg := by
  have hsearch : Search (CanGo is) {v | v ∈ s.used} ∅ {v | v ∈ cfg.loopEntries} := by
    have hempty : {v | v ∈ s.greyVertices} = ∅ := Set.eq_empty_of_forall_notMem hgrey
    rw [hcfg, ← hempty]
    exact hs.search
  constructor
  · intro c hne hchain hreach
    refine hsearch.cut hne hchain fun v hv => ?_
    obtain ⟨r, hr, hpath⟩ := hreach v hv
    exact hsearch.reaches (hentries r hr) hpath
  · intro e he
    obtain ⟨c, hnodup, hchain, hmem, hused⟩ := hsearch.cycle he
    exact ⟨c, hnodup, hchain, hmem, fun v hv => hs.reachable v (hused v hv)⟩

section Body

variable {body : MethodBody} {resolves : ℕ → Bool}

theorem followsControl (hvalid : ValidBody body is) (hm : Method.ofBody body resolves = .ok m)
    (hstarts : SameStarts m is) (hplain : ∀ i ∈ is, i.opcode ≠ ceeTailcall ∧ i.opcode ≠ ceeJmp) :
    FollowsControl m is := by
  intro v j hlookup
  have hkey : v ∈ m.offsetToInstr.keys := Dictionary.mem_keys_iff.mpr ⟨j, hlookup⟩
  obtain ⟨i, hi, hoffset⟩ := (mem_keys_offsetToInstr hm hstarts).mp hkey
  obtain ⟨j', hj⟩ := exists_managedAt hvalid hm hstarts hi
  have hjj : j' = j := by
    have := hj.lookup
    rw [hoffset, hlookup] at this
    exact (Option.some.inj this).symm
  rw [hjj] at hj
  obtain ⟨tr, htransition, hof⟩ := transition_at hvalid hm hi (hplain i hi).2 hj
  rw [hoffset] at htransition
  refine ⟨i, hi, hoffset, tr, htransition, hof, fun t => ⟨?_, fun ht => ⟨i, hi, hoffset, ht⟩⟩⟩
  intro hcan
  obtain ⟨k, hk, hkoffset, ht⟩ := hcan
  rwa [hvalid.consecutive.eq_of_offset hk hi (hkoffset.trans hoffset.symm)] at ht

/-- **Loop entries cut every loop.**  On a valid body without `tail.` and `jmp`, whose managed
instructions start where the decoded ones do, every cycle of reachable offsets contains a loop
entry, and every loop entry lies on such a cycle; and if the call tokens can be resolved, then there
is a graph. -/
theorem loopEntries_cut (hvalid : ValidBody body is) (hm : Method.ofBody body resolves = .ok m)
    (hstarts : SameStarts m is) (hplain : ∀ i ∈ is, i.opcode ≠ ceeTailcall ∧ i.opcode ≠ ceeJmp) :
    (∀ fuel cfg, m.cfgInfo fuel = .ok cfg → CutsLoops body.eh is cfg)
      ∧ ((∀ i ∈ is, i.IsDemandingCall → resolves i.operand = true) →
        ∃ cfg, ∀ fuel, is.length < fuel → m.cfgInfo fuel = .ok cfg) := by
  constructor
  · intro fuel cfg hcfg
    unfold Method.cfgInfo at hcfg
    obtain ⟨s, hwalks, hcfg⟩ := exists_of_bind_eq_ok hcfg
    obtain ⟨sizes, -, hcfg⟩ := exists_of_bind_eq_ok hcfg
    rw [Method.startVertices_eq hvalid hm] at hwalks
    obtain ⟨hs, hgrey, hentries⟩ := walks_explored (followsControl hvalid hm hstarts hplain) hwalks
      fun v hv => Reachable.entry hv
    refine hs.cutsLoops hgrey hentries ?_
    rw [← Except.ok.inj hcfg]
  · intro hresolves
    have hwalkable := Method.walkable hvalid hm hstarts hplain hresolves
    obtain ⟨s, hrun, hdiscovered⟩ := walks_discover hwalkable (Nat.lt_succ_self is.length)
    rw [← Method.startVertices_eq hvalid hm] at hrun
    obtain ⟨cfg, hcfg, -⟩ := cfgInfo_of_discovered hwalkable hstarts hrun hdiscovered
    exact ⟨cfg, fun fuel hfuel => cfgInfo_mono hfuel hcfg⟩

/-- The loop entry of a small loop. -/
theorem loopEntries_cut_loop : ∃ m cfg, Method.ofBody loopBody (fun _ => true) = .ok m
    ∧ (∀ fuel, 4 < fuel → m.cfgInfo fuel = .ok cfg) ∧ CutsLoops [] loopInstrs cfg := by
  obtain ⟨m, hm, hstarts⟩ := loopBody_sameStarts
  obtain ⟨hcuts, hgraph⟩ := loopEntries_cut loopBody_valid hm hstarts (by decide)
  obtain ⟨cfg, hcfg⟩ := hgraph (by decide)
  exact ⟨m, cfg, hm, hcfg, hcuts 5 cfg (hcfg 5 (by decide))⟩

end Body

end TestExecutor
