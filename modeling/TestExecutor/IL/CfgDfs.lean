import TestExecutor.IL.CfgWalk
import TestExecutor.Library.Forall2

/-!
# The walk from a vertex

The recursive function of `CFG.fs`: from a vertex that it enters by a jump, or by falling through
from the last instruction of the block that it is in, it visits all that was not visited yet, and
ends.

* `Standing` — the walk stands at the last instruction of its block;
* `WalkSpec` — the specification of `dfs'`;
* `dealWithJump_spec`, `jumps_spec`, `transfer_spec` — the ways out of an instruction;
* `dfs'_spec` — by induction on the depth of the recursion;
* `dfs'_mono` — more fuel changes nothing.
-/

namespace TestExecutor

open TestExecutor.Library

variable {m : Method} {eh : List EhInfo} {is : List RawInstr}

/-- The walk stands at the last instruction of a block that has no edges yet. -/
structure Standing (s : DfsState) (b : ℕ) (i : RawInstr) : Prop where
  lt : b < s.basicBlocksCount
  start_le : s.start b ≤ i.offset
  final_eq : s.final b = i.offset
  noEdge : ∀ t, ¬s.GoesTo b t

/-- What the walk does at a vertex that it enters by a jump, or by falling through. -/
structure WalkSpec (eh : List EhInfo) (is : List RawInstr)
    (walk : ℕ → ℕ → DfsState → Except CfgError DfsState) (bound : ℕ) : Prop where
  jump : ∀ s b v fresh, Inv eh is s fresh → Entered s b v fresh → Reachable eh is v →
    unvisited is s < bound → ∃ s', walk b v s = .ok s'
      ∧ Walked eh is (fun c => c = b ∧ v ∉ s.used) s s' ∧ v ∈ s'.used
  fall : ∀ s b, ∀ w ∈ is, Inv eh is s none → ¬w.EndsBlock → Standing s b w →
    Reachable eh is w.next → unvisited is s < bound →
      ∃ s', walk b w.next (s.setFinalOffset b w.next) = .ok s'
        ∧ Walked eh is (fun c => c = b) s s' ∧ s'.Linked w.offset w.next

section Transfer

variable {walk : ℕ → ℕ → DfsState → Except CfgError DfsState} {bound : ℕ}

/-- A jump makes the block at its target, an edge to it, and walks from there. -/
theorem dealWithJump_spec (hm : Walkable m eh is) (hwalk : WalkSpec eh is walk bound)
    {s : DfsState} {b t : ℕ} {i : RawInstr} (hinv : Inv eh is s none)
    (hb : b < s.basicBlocksCount) (hi : i ∈ is) (hfinal : s.final b = i.offset)
    (hends : i.EndsBlock) (hreach : Reachable eh is i.offset) (ht : t ∈ i.successors)
    (hnot : ¬s.GoesTo b t) (hbound : unvisited is s < bound) :
    ∃ s', m.dealWithJump walk b s t = .ok s' ∧ Walked eh is (fun c => c = b) s s'
      ∧ s'.final b = i.offset ∧ ∀ u, s'.GoesTo b u ↔ s.GoesTo b u ∨ u = t := by
  have htarget : Reachable eh is t := hreach.step ⟨i, hi, rfl, ht⟩
  obtain ⟨c, s₁, fresh, hrun₁, hinv₁, hkeeps₁, hentered, hused₁, hgrey₁, hnew⟩ :=
    makeNewBasicBlock_spec hm hinv (hm.starts t htarget) (Or.inr ⟨i, hi, hreach, hends, ht⟩)
  have hb₁ : b < s₁.basicBlocksCount := lt_of_lt_of_le hb hkeeps₁.count
  obtain ⟨hfinal₁, hgoes₁⟩ := hkeeps₁.frame b hb not_false
  have hedge : ¬s₁.HasEdge b c := fun h => hnot ((hgoes₁ t).mp ⟨c, h, hentered.start⟩)
  obtain ⟨s₂, hrun₂, hadded⟩ :=
    addEdge_spec (mt (hinv₁.inverse b hb₁ c hentered.lt).mp hedge) hedge
  have hinv₂ : Inv eh is s₂ fresh := hinv₁.addEdge hb₁ hentered.lt hi (by rw [hfinal₁, hfinal])
    (by rwa [hentered.start]) hadded
  have hused₂ : s₂.used = s.used := hadded.used.trans hused₁
  -- a block that is walked into is another one
  have hne : t ∉ s.used → c ≠ b := fun h => by
    have := hnew h
    omega
  have hentered₂ : Entered s₂ c t fresh := by
    refine ⟨by rw [hadded.count]; exact hentered.lt, by rw [hadded.slots]; exact hentered.slot,
      by rw [hadded.start]; exact hentered.start, ?_⟩
    rcases hentered.new with ⟨hused, hfresh⟩ | ⟨hunused, hfresh, hfin, hgo⟩
    · exact Or.inl ⟨by rwa [hadded.used], hfresh⟩
    · refine Or.inr ⟨by rwa [hadded.used], hfresh, by rwa [hadded.final], fun u hu => ?_⟩
      rcases (hadded.goesTo c u).mp hu with hu | ⟨hcb, -⟩
      · exact hgo u hu
      · exact hne (by rwa [← hused₁]) hcb
  have hkeeps₂ : Extends (fun d => d = b) is s s₂ :=
    hkeeps₁.trans hadded.keeps fun d _ h => h.resolve_left not_false
  obtain ⟨s₃, hrun₃, hwalked, -⟩ := hwalk.jump s₂ c t fresh hinv₂ hentered₂ htarget
    (lt_of_le_of_lt hkeeps₂.unvisited_le hbound)
  have hb₂ : b < s₂.basicBlocksCount := lt_of_lt_of_le hb hkeeps₂.count
  obtain ⟨hfinal₃, hgoes₃⟩ := hwalked.keeps.frame b hb₂ fun h =>
    hne (by rw [← hused₂]; exact h.2) h.1.symm
  refine ⟨s₃, ?_, ⟨hwalked.inv, hkeeps₂.trans hwalked.keeps ?_, ?_, ?_⟩, ?_, fun u => ?_⟩
  · rw [Method.dealWithJump, hrun₁]
    show (addEdge s₁ b c >>= _) = _
    rw [hrun₂]
    exact hrun₃
  · -- the block that is walked into did not exist in front
    rintro d hd (rfl | ⟨rfl, hunused⟩)
    · rfl
    · have := hnew (by rwa [← hused₂])
      omega
  · rw [hwalked.grey, hadded.grey, hgrey₁]
  · intro j hj hused hunused
    exact hwalked.done j hj hused (by rwa [hused₂])
  · rw [hfinal₃, hadded.final, hfinal₁, hfinal]
  · rw [hgoes₃, hadded.goesTo, hgoes₁, hentered.start]
    simp only [true_and]

/-- Jumps to several targets. -/
theorem jumps_spec (hm : Walkable m eh is) (hwalk : WalkSpec eh is walk bound) {b : ℕ}
    {i : RawInstr} (hi : i ∈ is) (hends : i.EndsBlock) (hreach : Reachable eh is i.offset)
    (targets : List ℕ) : ∀ s : DfsState, targets.Nodup → (∀ t ∈ targets, t ∈ i.successors) →
      Inv eh is s none → b < s.basicBlocksCount → s.final b = i.offset →
      (∀ t ∈ targets, ¬s.GoesTo b t) → unvisited is s < bound →
      ∃ s', targets.foldlM (m.dealWithJump walk b) s = .ok s'
        ∧ Walked eh is (fun c => c = b) s s' ∧ s'.final b = i.offset
        ∧ ∀ u, s'.GoesTo b u ↔ s.GoesTo b u ∨ u ∈ targets := by
  induction targets with
  | nil =>
      intro s _ _ hinv _ hfinal _ _
      exact ⟨s, rfl, Walked.of_used hinv (Extends.refl _ is s) rfl rfl, hfinal, by simp⟩
  | cons t targets ih =>
      intro s hnodup hsucc hinv hb hfinal hnot hbound
      obtain ⟨hhead, hnodup⟩ := List.nodup_cons.mp hnodup
      obtain ⟨s₁, hrun₁, hwalked₁, hfinal₁, hgoes₁⟩ := dealWithJump_spec hm hwalk hinv hb hi hfinal
        hends hreach (hsucc t List.mem_cons_self) (hnot t List.mem_cons_self) hbound
      obtain ⟨s₂, hrun₂, hwalked₂, hfinal₂, hgoes₂⟩ := ih s₁ hnodup
        (fun u hu => hsucc u (List.mem_cons_of_mem t hu)) hwalked₁.inv
        (lt_of_lt_of_le hb hwalked₁.keeps.count) hfinal₁
        (fun u hu h => by
          rcases (hgoes₁ u).mp h with h | rfl
          · exact hnot u (List.mem_cons_of_mem t hu) h
          · exact hhead hu)
        (lt_of_le_of_lt hwalked₁.keeps.unvisited_le hbound)
      refine ⟨s₂, ?_, hwalked₁.trans hwalked₂ fun d _ h => h.elim id id, hfinal₂, fun u => ?_⟩
      · rw [List.foldlM_cons, hrun₁]
        exact hrun₂
      · rw [hgoes₂, hgoes₁, List.mem_cons, or_assoc]

/-- The ways out of an instruction that ends its block. -/
theorem jumps_linked (hm : Walkable m eh is) (hwalk : WalkSpec eh is walk bound) {s : DfsState}
    {b : ℕ} {i : RawInstr} (hi : i ∈ is) (hends : i.EndsBlock) (hinv : Inv eh is s none)
    (hstand : Standing s b i) (hreach : Reachable eh is i.offset) (hbound : unvisited is s < bound)
    {targets : List ℕ} (hnodup : targets.Nodup) (htargets : ∀ t, t ∈ targets ↔ t ∈ i.successors) :
    ∃ s', targets.foldlM (m.dealWithJump walk b) s = .ok s'
      ∧ Walked eh is (fun c => c = b) s s' ∧ ∀ t ∈ i.successors, s'.Linked i.offset t := by
  obtain ⟨s', hrun, hwalked, hfinal, hgoes⟩ := jumps_spec hm hwalk hi hends hreach targets s hnodup
    (fun t => (htargets t).mp) hinv hstand.lt hstand.final_eq (fun t _ => hstand.noEdge t) hbound
  refine ⟨s', hrun, hwalked, fun t ht => Or.inr ⟨b, ?_, hfinal, ?_⟩⟩
  · exact lt_of_lt_of_le hstand.lt hwalked.keeps.count
  · exact (hgoes t).mpr (Or.inr ((htargets t).mpr ht))

/-- **The transition out of an instruction** links it to where control goes. -/
theorem transfer_spec (hm : Walkable m eh is) (hwalk : WalkSpec eh is walk bound) {s : DfsState}
    {b : ℕ} {i : RawInstr} (hi : i ∈ is) (hinv : Inv eh is s none) (hstand : Standing s b i)
    (hreach : Reachable eh is i.offset) (hbound : unvisited is s < bound) :
    ∃ s', m.transfer walk b i.offset s = .ok s' ∧ Walked eh is (fun c => c = b) s s'
      ∧ ∀ t ∈ i.successors, s'.Linked i.offset t := by
  obtain ⟨j, tr, hlookup, htransition, hof, hcall, hparse⟩ := hm.instr i hi
  have hself : s.setFinalOffset b i.offset = s := s.setFinalOffset_self b _ hstand.final_eq
  rw [Method.transfer, hlookup]
  dsimp only
  rw [htransition]
  cases hof with
  | fallThrough hterm hsucc =>
      show ∃ s', (if isDemandingCallOpCode j.opcode = true then _ else _) = _ ∧ _
      by_cases hdemanding : i.IsDemandingCall
      · obtain ⟨s', hrun, hrest⟩ := jumps_linked hm hwalk hi (Or.inr hdemanding) hinv hstand hreach
          hbound (List.nodup_singleton i.next) (fun t => by rw [hsucc])
        refine ⟨s', ?_, hrest⟩
        rw [if_pos (hcall.mpr hdemanding), hparse hdemanding, hself]
        show (if j.opcode ≠ j.opcode then _ else _) = _
        rw [if_neg (not_not.mpr rfl)]
        simpa using hrun
      · have hnext : Reachable eh is i.next :=
          hreach.step ⟨i, hi, rfl, by rw [hsucc]; exact List.mem_singleton_self _⟩
        obtain ⟨s', hrun, hwalked, hlinked⟩ := hwalk.fall s b i hi hinv
          (fun h => h.elim hterm hdemanding) hstand hnext hbound
        refine ⟨s', ?_, hwalked, fun t ht => ?_⟩
        · rw [if_neg (mt hcall.mp hdemanding), hrun]
        · rw [hsucc, List.mem_singleton] at ht
          rwa [ht]
  | ret hterm hsucc =>
      have hsame : SameGraph s { s with sinks := s.sinks ++ [b] } := ⟨rfl, rfl, rfl, rfl⟩
      refine ⟨{ s with sinks := s.sinks ++ [b] }, ?_,
        Walked.of_used (hsame.inv hinv hinv.grey) (hsame.keeps _) rfl rfl, by simp [hsucc]⟩
      exact congrArg Except.ok (DfsState.setFinalOffset_self _ b _ hstand.final_eq)
  | exceptionMechanism hterm hsucc =>
      refine ⟨s, ?_, Walked.of_used hinv (Extends.refl _ is s) rfl rfl, by simp [hsucc]⟩
      exact congrArg Except.ok hself
  | @unconditionalBranch t hterm hsucc =>
      obtain ⟨s', hrun, hrest⟩ := jumps_linked hm hwalk hi (Or.inl hterm) hinv hstand hreach
        hbound (List.nodup_singleton t) (fun u => by rw [hsucc])
      refine ⟨s', ?_, hrest⟩
      show m.dealWithJump walk b (s.setFinalOffset b i.offset) t = _
      rw [hself]
      simpa using hrun
  | @conditionalBranch t hterm hsucc =>
      obtain ⟨s', hrun, hrest⟩ := jumps_linked hm hwalk hi (Or.inl hterm) hinv hstand hreach
        hbound (HashSet.ofList [i.next, t]).nodup
        (fun u => by rw [hsucc]; exact HashSet.mem_ofList)
      refine ⟨s', ?_, hrest⟩
      show (HashSet.ofList [i.next, t]).elems.foldlM (m.dealWithJump walk b)
        (s.setFinalOffset b i.offset) = _
      rw [hself, hrun]

/-- Entering a vertex, walking on from it, and leaving it. -/
theorem visit_spec (hm : Walkable m eh is) (hwalk : WalkSpec eh is walk bound) {s : DfsState}
    {b : ℕ} {i : RawInstr} (hi : i ∈ is) (hinv : Inv eh is s (some i.offset))
    (hstand : Standing s b i) (hunused : i.offset ∉ s.used) (hreach : Reachable eh is i.offset)
    (hbound : unvisited is s < bound + 1) :
    ∃ s', (m.transfer walk b i.offset (s.visit i.offset) >>= fun s => s.leave i.offset) = .ok s'
      ∧ Walked eh is (fun c => c = b) s s' ∧ i.offset ∈ s'.used := by
  have hkeeps : Extends (fun _ => False) is s (s.visit i.offset) := keeps_visit s i.offset
  have hmem : i.offset ∈ (s.visit i.offset).used := HashSet.mem_insert.mpr (Or.inl rfl)
  have hless : unvisited is (s.visit i.offset) < unvisited is s :=
    unvisited_lt hi hunused hmem hkeeps.used
  obtain ⟨s₁, hrun, hwalked, hlinked⟩ := transfer_spec hm hwalk hi (hinv.visit hreach)
    ⟨hstand.lt, hstand.start_le, hstand.final_eq, hstand.noEdge⟩ hreach (by omega)
  have hgrey : s₁.greyVertices = s.greyVertices.insert i.offset := hwalked.grey
  have hsame : SameGraph s₁ { s₁ with greyVertices := s₁.greyVertices.remove i.offset } :=
    ⟨rfl, rfl, rfl, rfl⟩
  have hinv₁ := hsame.inv hwalked.inv fun v hv =>
    hwalked.inv.grey v (HashSet.mem_remove.mp hv).2
  have hkeeps₁ : Extends (fun c => c = b) is s s₁ :=
    hkeeps.trans hwalked.keeps fun c _ h => h.resolve_left not_false
  refine ⟨_, ?_, ⟨hinv₁, hkeeps₁.trans (hsame.keeps fun c => c = b) fun c _ h => h.elim id id,
    ?_, ?_⟩, hwalked.keeps.used _ hmem⟩
  · rw [hrun]
    show s₁.leave i.offset = _
    rw [DfsState.leave, if_pos (by rw [hgrey]; exact HashSet.mem_insert.mpr (Or.inl rfl))]
  · show s₁.greyVertices.remove i.offset = s.greyVertices
    rw [hgrey]
    exact HashSet.remove_insert fun h => hunused (hinv.grey _ h)
  · intro k hk hused hnot t ht
    refine hsame.linked.mpr ?_
    by_cases hki : k = i
    · subst hki
      exact hlinked t ht
    · refine hwalked.done k hk hused (fun h => ?_) t ht
      rcases HashSet.mem_insert.mp h with h | h
      · exact hki (hm.consecutive.eq_of_offset hk hi h)
      · exact hnot h

end Transfer

/-! ### The recursion -/

theorem Walkable.offset_le (hm : Walkable m eh is) {i : RawInstr} (hi : i ∈ is) :
    i.offset ≤ m.bytecode.size :=
  (le_of_lt i.offset_lt_next).trans (hm.consecutive.bounds hi).2

/-- A vertex that was visited: an edge to its block, unless the walk comes from there. -/
theorem revisit_eq {s t : DfsState} {b v c : ℕ} (hslot : s.vertexToBasicBlock v = some c)
    (hrun : (if b ≠ c then (do
        let finalOffset ← m.findFinalVertex s v b
        addEdge (s.setFinalOffset b finalOffset) b c) else pure s) = .ok t) :
    ∃ s', m.revisit s b v = .ok s' ∧ SameGraph t s' ∧ s'.greyVertices = t.greyVertices := by
  refine ⟨if v ∈ t.greyVertices then { t with loopEntries := t.loopEntries.insert v } else t,
    ?_, ?_, ?_⟩
  · rw [Method.revisit, hslot]
    dsimp only
    by_cases hbc : b ≠ c
    · rw [if_pos hbc] at hrun ⊢
      cases hfind : m.findFinalVertex s v b with
      | error e =>
          rw [hfind] at hrun
          cases hrun
      | ok finalOffset =>
          rw [hfind] at hrun
          change addEdge (s.setFinalOffset b finalOffset) b c = .ok t at hrun
          show (addEdge (s.setFinalOffset b finalOffset) b c >>= _) = _
          rw [hrun]
          show (if v ∈ t.greyVertices then _ else _) = _
          split <;> rfl
    · rw [if_neg hbc] at hrun ⊢
      obtain rfl := Except.ok.inj hrun
      show (if v ∈ s.greyVertices then _ else _) = _
      split <;> rfl
  · split <;> exact ⟨rfl, rfl, rfl, rfl⟩
  · split <;> rfl

/-- **The walk** visits everything that it can reach, and ends. -/
theorem dfs'_spec (hm : Walkable m eh is) (fuel : ℕ) : WalkSpec eh is (m.dfs' fuel) fuel := by
  induction fuel with
  | zero => exact ⟨fun _ _ _ _ _ _ _ h => absurd h (Nat.not_lt_zero _),
      fun _ _ _ _ _ _ _ _ h => absurd h (Nat.not_lt_zero _)⟩
  | succ fuel ih =>
      refine ⟨?jump, ?fall⟩
      case jump =>
        intro s b v fresh hinv hentered hreach hbound
        rw [Method.dfs']
        rcases hentered.new with ⟨hused, rfl⟩ | ⟨hunused, rfl, hfinal, hgoes⟩
        · rw [if_pos hused]
          obtain ⟨s', hrun, hsame, hgrey⟩ := revisit_eq (m := m) (t := s) (b := b) hentered.slot
            (if_neg (not_not.mpr rfl))
          have hinv' := hsame.inv hinv fun u hu => by
            rw [hsame.used]
            exact hinv.grey u (hgrey ▸ hu)
          exact ⟨s', hrun, Walked.of_used hinv' (hsame.keeps _) hsame.used hgrey, by rwa [hsame.used]⟩
        · obtain ⟨i, hi, rfl⟩ := hm.starts v hreach
          rw [if_neg hunused, enter_eq (hm.offset_le hi) (fun h => hunused (hinv.grey _ h)) hunused]
          have hslot : Function.update s.vertexToBasicBlock i.offset (some b)
              = s.vertexToBasicBlock := by
            rw [← hentered.slot]
            exact Function.update_eq_self _ _
          rw [hslot]
          obtain ⟨s', hrun, hwalked, hmem⟩ := visit_spec hm ih hi hinv
            ⟨hentered.lt, le_of_eq hentered.start, hfinal, hgoes⟩ hunused hreach hbound
          refine ⟨s', hrun, ⟨hwalked.inv, ?_, hwalked.grey, hwalked.done⟩, hmem⟩
          exact (Extends.refl (fun _ => False) is s).trans hwalked.keeps fun c _ h =>
            ⟨h.resolve_left not_false, hunused⟩
      case fall =>
        intro s b w hw hinv hends hstand hreach hbound
        have hwlt := w.offset_lt_next
        obtain ⟨i, hi, hoffset⟩ := hm.starts _ hreach
        rw [Method.dfs']
        by_cases hused : w.next ∈ s.used
        · -- visited before: the block at the vertex is another one, which starts there
          obtain ⟨c, hslot⟩ := (hinv.assigned i hi).mpr (Or.inl (hoffset ▸ hused))
          obtain ⟨hc, hle₁, hle₂⟩ := (hinv.slot i hi c).mp hslot
          have hfinal := hstand.final_eq
          have hne : b ≠ c := by
            rintro rfl
            omega
          have hstart : s.start c = w.next := by
            by_contra hnot
            have hwle : s.start c ≤ w.offset := by
              obtain ⟨k, hk, hkoffset⟩ := hinv.start_isStart c hc
              rw [← hkoffset]
              exact (hm.consecutive.lt_next_iff hk hw).mp (by omega)
            exact hne (hinv.block_unique hw hstand.lt hc ⟨hstand.start_le, by omega⟩
              ⟨hwle, by omega⟩)
          have hedge : ¬s.HasEdge b c := fun h => hstand.noEdge _ ⟨c, h, rfl⟩
          obtain ⟨s₁, hadd, hadded⟩ :=
            addEdge_spec (mt (hinv.inverse b hstand.lt c hc).mp hedge) hedge
          have hfind : m.findFinalVertex (s.setFinalOffset b w.next) w.next b = .ok w.offset :=
            findFinalVertex_eq hm hw ((hinv.slot w hw b).mpr ⟨hstand.lt, hstand.start_le, by omega⟩)
          obtain ⟨s', hrun, hsame, hgrey⟩ := revisit_eq (m := m) (s := s.setFinalOffset b w.next)
            (t := s₁) (b := b) (v := w.next) (c := c) (by rw [← hoffset]; exact hslot) (by
              rw [if_pos hne, hfind]
              show addEdge ((s.setFinalOffset b w.next).setFinalOffset b w.offset) b c = _
              rw [DfsState.setFinalOffset_setFinalOffset, DfsState.setFinalOffset_self _ _ _ hfinal,
                hadd])
          have hinv₁ : Inv eh is s₁ none := hinv.addEdge hstand.lt hc hw hfinal.symm (by
            rw [hstart, RawInstr.successors_of_not_endsBlock hends]
            exact List.mem_singleton_self _) hadded
          have hinv' := hsame.inv hinv₁ fun u hu => by
            rw [hsame.used]
            exact hinv₁.grey u (hgrey ▸ hu)
          refine ⟨s', ?_, Walked.of_used hinv' (hadded.keeps.trans (hsame.keeps fun d => d = b)
            fun d _ h => h.elim id id) (hsame.used.trans hadded.used) (hgrey.trans hadded.grey), ?_⟩
          · exact (if_pos hused).trans hrun
          · refine hsame.linked.mpr (Or.inr ⟨b, ?_, ?_, ?_⟩)
            · rw [hadded.count]
              exact hstand.lt
            · rw [hadded.final, hfinal]
            · exact (hadded.goesTo b _).mpr (Or.inr ⟨rfl, hstart.symm⟩)
        · have hinv₁ : Inv eh is (s.grow b w.next) (some w.next) :=
            hinv.grow hm.consecutive hw hends hstand.lt hstand.start_le hstand.final_eq
              hstand.noEdge ⟨i, hi, hoffset⟩ hused
          have hkeeps : Extends (fun c => c = b) is s (s.grow b w.next) :=
            keeps_grow (by rw [hstand.final_eq]; omega) hstand.noEdge
          have hstand₁ : Standing (s.grow b w.next) b i := by
            refine ⟨hstand.lt, ?_, ?_, fun t => ?_⟩
            · rw [DfsState.start_grow, hoffset]
              exact hstand.start_le.trans (le_of_lt hwlt)
            · rw [DfsState.final_grow, if_pos rfl, hoffset]
            · rw [DfsState.goesTo_grow]
              exact hstand.noEdge t
          rw [← hoffset] at hinv₁ hreach hused hkeeps hstand₁ ⊢
          obtain ⟨s', hrun, hwalked, -⟩ := visit_spec hm ih hi hinv₁ hstand₁ hused hreach
            (lt_of_le_of_lt hkeeps.unvisited_le hbound)
          refine ⟨s', ?_, ⟨hwalked.inv, hkeeps.trans hwalked.keeps fun c _ h => h.elim id id,
            hwalked.grey, hwalked.done⟩, ?_⟩
          · refine (if_neg hused).trans ?_
            rw [enter_eq (s := s.setFinalOffset b i.offset) (hm.offset_le hi)
              (fun h => hused (hinv.grey _ h)) hused]
            exact hrun
          · have hlink : (s.grow b i.offset).Linked w.offset i.offset :=
              Or.inl ⟨b, hstand.lt, by rw [DfsState.start_grow]; exact hstand.start_le, by
                rw [DfsState.final_grow, if_pos rfl]
                omega⟩
            have hwused : w.offset ∈ s.used := by
              rcases (hinv.assigned w hw).mp ⟨b, (hinv.slot w hw b).mpr
                ⟨hstand.lt, hstand.start_le, le_of_eq hstand.final_eq.symm⟩⟩ with h | h
              · exact h
              · cases h
            refine hwalked.keeps.linked w hw hwused i.offset ?_ hlink
            rw [RawInstr.successors_of_not_endsBlock hends, hoffset]
            exact List.mem_singleton_self _

/-! ### More fuel -/

section Mono

variable {walk walk' : ℕ → ℕ → DfsState → Except CfgError DfsState}

theorem dealWithJump_mono (h : ∀ b v s s', walk b v s = .ok s' → walk' b v s = .ok s')
    {b t : ℕ} {s s' : DfsState} (hrun : m.dealWithJump walk b s t = .ok s') :
    m.dealWithJump walk' b s t = .ok s' := by
  refine bind_eq_ok_mono (fun p hp => ?_) hrun
  exact bind_eq_ok_mono (fun s₁ hs₁ => h _ _ _ _ hs₁) hp

theorem transfer_mono (h : ∀ b v s s', walk b v s = .ok s' → walk' b v s = .ok s')
    {b v : ℕ} {s s' : DfsState} (hrun : m.transfer walk b v s = .ok s') :
    m.transfer walk' b v s = .ok s' := by
  rw [Method.transfer] at hrun ⊢
  cases hlookup : m.offsetToInstr.lookup v with
  | none =>
      rw [hlookup] at hrun
      cases hrun
  | some instr =>
      rw [hlookup] at hrun
      refine bind_eq_ok_mono (fun tr htr => ?_) hrun
      cases tr with
      | fallThrough offset =>
          dsimp only at htr ⊢
          by_cases hcall : isDemandingCallOpCode instr.opcode = true
          · rw [if_pos hcall] at htr ⊢
            refine bind_eq_ok_mono (fun opCode' hop => ?_) htr
            split at hop
            · cases hop
            · rename_i heq
              rw [if_neg heq]
              exact dealWithJump_mono h hop
          · rw [if_neg hcall] at htr ⊢
            exact h _ _ _ _ htr
      | ret => exact htr
      | exceptionMechanism => exact htr
      | unconditionalBranch target => exact dealWithJump_mono h htr
      | conditionalBranch next offsets =>
          exact foldlM_eq_ok_mono (fun _ _ _ => dealWithJump_mono h) _ _ htr

theorem dfs'_succ (fuel : ℕ) : ∀ b v (s s' : DfsState), m.dfs' fuel b v s = .ok s' →
    m.dfs' (fuel + 1) b v s = .ok s' := by
  induction fuel with
  | zero => intro b v s s' hrun; cases hrun
  | succ fuel ih =>
      intro b v s s' hrun
      rw [Method.dfs'] at hrun ⊢
      split at hrun
      · rename_i hused
        rwa [if_pos hused]
      · rename_i hunused
        rw [if_neg hunused]
        refine bind_eq_ok_mono (fun s₁ hs₁ => ?_) hrun
        cases htransfer : m.transfer (m.dfs' fuel) b v s₁ with
        | error e =>
            rw [htransfer] at hs₁
            cases hs₁
        | ok s₂ =>
            rw [htransfer] at hs₁
            rw [transfer_mono ih htransfer]
            exact hs₁

/-- More fuel changes nothing. -/
theorem dfs'_mono {fuel fuel' : ℕ} (hle : fuel ≤ fuel') {b v : ℕ} {s s' : DfsState}
    (hrun : m.dfs' fuel b v s = .ok s') : m.dfs' fuel' b v s = .ok s' := by
  induction hle with
  | refl => exact hrun
  | step _ ih => exact dfs'_succ _ b v s s' ih

end Mono

end TestExecutor
