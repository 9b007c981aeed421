import TestExecutor.IL.CallSites
import TestExecutor.Rewriter.Simulation

/-!
# What the rewriting preserves

The rewritten list against the original list, instruction by instruction.

* `ProbedBefore`, `annotate_before_iff` — where a probe stands behind a prefix;
* `LeadsTo` — an address of the list that stands for a byte offset of the code;
* `GroupsPreserved` — each instruction once, among padding, with its operand and its successors;
* `ProgramPreserved` — moreover, nothing between a prefix and its instruction;
* `Simulates` — the list and the code have the same runs;
* `program_preserved_iff` — which valid bodies are preserved.
-/

namespace TestExecutor

open TestExecutor.Library ILRewriter

/-! ### Behind a prefix -/

/-- The instructions that get a probe in front of them. -/
def ProbedBefore (opcode : ℕ) : Prop :=
  opcodeIsBranch opcode = true ∨ opcode = ceeRet ∨ opcode = ceeEndfinally ∨ opcode = ceeEndfilter
    ∨ opcode = ceeThrow ∨ opcode = ceeRethrow ∨ opcode = ceeTailcall

instance (opcode : ℕ) : Decidable (ProbedBefore opcode) := by unfold ProbedBefore; infer_instance

section Annotations

variable {leaveMethod : Probe} {body : MethodBody} {is : List RawInstr} {i p : RawInstr} {k : ℕ}

theorem annotationAt_eq (hi : is[k]? = some i) : annotationAt leaveMethod body is k
    = annotate leaveMethod body.eh (branchTargets is) (is.take k) i (is.drop (k + 1)) := by
  rw [annotationAt, hi]

theorem take_succ_of_getElem? (hp : is[k]? = some p) : is.take (k + 1) = is.take k ++ [p] := by
  rw [List.take_add_one, hp]
  rfl

theorem head?_drop {α : Type*} (as : List α) (k : ℕ) : (as.drop k).head? = as[k]? := by
  rw [List.head?_eq_getElem?, List.getElem?_drop, Nat.add_zero]

theorem handlerProbes_eq_nil_iff {eh : List EhInfo} {o : ℕ} :
    handlerProbes eh o = [] ↔ ∀ c ∈ eh, c.handlerOffset ≠ o := by
  rw [handlerProbes, List.replicate_eq_nil_iff, List.countP_eq_zero]
  simp only [decide_eq_true_eq, ne_eq]

theorem ValidBody.next_notMem (h : ValidBody body is) (hp : p ∈ is) (hpref : IsPrefix p.opcode) :
    p.next ∉ branchTargets is := by
  intro hmem
  obtain ⟨i, hi, htarget⟩ := List.mem_flatMap.mp hmem
  exact h.prefixes p hp hpref i hi htarget

/-- The only probe of a prefix is that of a `stsfld`. -/
theorem ownProbes_of_isPrefix (hpref : IsPrefix p.opcode) (pre post : List RawInstr) :
    ∀ q ∈ ownProbes leaveMethod pre p post, q.2 = true := by
  intro q hq
  rw [ownProbes, nodeProbes] at hq
  split at hq
  · split at hq
    · exact absurd hq List.not_mem_nil
    · rw [List.mem_singleton.mp hq]
  · split at hq
    · rw [List.mem_singleton.mp hq]
    · split at hq
      · exact absurd hq List.not_mem_nil
      · rw [ownProbe_of_isPrefix hpref] at hq
        exact absurd hq List.not_mem_nil

/-- No probe stands behind a prefix for the prefix itself. -/
theorem annotate_prefix (hpref : IsPrefix p.opcode) {targets : List ℕ} (hnext : p.next ∉ targets)
    (eh : List EhInfo) (pre post : List RawInstr) :
    (annotate leaveMethod eh targets pre p post).after = none := by
  unfold annotate
  split
  · split <;> rfl
  · dsimp only
    split
    · rw [Option.map_eq_none_iff, instrPlacement]
      dsimp only
      split
      · exact if_neg fun hboth => hnext hboth.2.1
      · rw [Option.map_eq_none_iff, List.find?_eq_none]
        intro q hq
        rw [ownProbes_of_isPrefix hpref pre post q hq]
        exact Bool.false_ne_true
    · rfl

/-- Its own probe stands in front of an instruction, unless it is a call. -/
theorem ownProbe_before_iff {opcode : ℕ} (htail : opcode ≠ ceeTailcall) :
    (ownProbe leaveMethod opcode).toList.filter Prod.snd = [] ↔ ¬ProbedBefore opcode := by
  unfold ownProbe ProbedBefore
  split
  · rename_i hbranch
    simp [hbranch]
  · rename_i hbranch
    split
    · rename_i hcall
      have hplain : ¬ProbedBefore opcode := by
        rcases hcall with rfl | rfl | rfl | rfl <;> decide
      exact iff_of_true rfl hplain
    · split
      · rename_i hret
        simp [hret]
      · rename_i hret
        split
        · rename_i hend
          rcases hend with hend | hend <;> simp [hend]
        · rename_i hend
          split
          · rename_i hthrow
            rcases hthrow with hthrow | hthrow <;> simp [hthrow]
          · rename_i hthrow
            rw [not_or] at hend hthrow
            simp [hbranch, hret, hend, hthrow, htail]

/-- Behind a prefix the flag is set at the call of a tail call only. -/
theorem ValidBody.tail_call_behind_prefix (h : ValidBody body is) (hpref : IsPrefix p.opcode)
    {pre post : List RawInstr} (his : is = (pre ++ [p]) ++ i :: post)
    (hflag : tailFlag false ((pre ++ [p]).map RawInstr.opcode) = true) : ¬ProbedBefore i.opcode := by
  obtain ⟨front, t, ht, heq | ⟨c, heq⟩⟩ := (h.tailFlag_iff his).mp hflag
  · have his' : is = front ++ t :: i :: post := by rw [his, heq]; simp
    obtain ⟨c, r, rest, hpost, hcall, -⟩ := h.tail_split his' ht
    obtain ⟨rfl, -⟩ := List.cons.inj hpost
    rcases hcall with hcall | hcall | hcall <;> rw [hcall] <;> decide
  · have heq' : pre ++ [p] = (front ++ [t]) ++ [c] := by rw [heq]; simp
    obtain ⟨rfl, hpc⟩ := List.append_inj' heq' rfl
    obtain rfl := List.singleton_inj.mp hpc
    have his' : is = front ++ t :: p :: i :: post := by rw [his]; simp
    obtain ⟨c, r, rest, hpost, hcall, -⟩ := h.tail_split his' ht
    obtain ⟨rfl, -⟩ := List.cons.inj hpost
    have hno : ¬IsPrefix p.opcode := by
      rcases hcall with hcall | hcall | hcall <;> rw [hcall] <;> decide
    exact absurd hpref hno

/-- **Between a prefix and what stands behind it.** -/
theorem ValidBody.annotate_before_iff (h : ValidBody body is) (hpref : IsPrefix p.opcode)
    {pre post : List RawInstr} (his : is = (pre ++ [p]) ++ i :: post) :
    (annotate leaveMethod body.eh (branchTargets is) (pre ++ [p]) i post).before = []
      ↔ ¬ProbedBefore i.opcode
        ∧ ¬(IsPrefix i.opcode ∧ post.head?.map RawInstr.opcode = some ceeStsfld)
        ∧ ∀ c ∈ body.eh, c.handlerOffset ≠ i.offset := by
  by_cases htail : i.opcode = ceeTailcall
  · obtain ⟨c, r, rest, rfl, -, -⟩ := h.tail_split his htail
    have hprobed : ProbedBefore i.opcode := by
      rw [htail]
      decide
    rw [annotate, if_pos htail]
    exact iff_of_false (List.append_ne_nil_of_right_ne_nil _ (List.cons_ne_nil _ _))
      fun hboth => hboth.1 hprobed
  · have hown : (ownProbes leaveMethod (pre ++ [p]) i post).filter Prod.snd = [] ↔ ¬ProbedBefore i.opcode
        ∧ ¬(IsPrefix i.opcode ∧ post.head?.map RawInstr.opcode = some ceeStsfld) := by
      rw [ownProbes, nodeProbes, List.map_append, List.map_singleton, lastOpcode_concat]
      by_cases hstsfld : i.opcode = ceeStsfld
      · rw [if_pos hstsfld, if_pos (by simpa using hpref), hstsfld]
        exact iff_of_true rfl ⟨by decide, fun hboth => absurd hboth.1 (by decide)⟩
      · rw [if_neg hstsfld]
        by_cases hboth : IsPrefix i.opcode ∧ post.head?.map RawInstr.opcode = some ceeStsfld
        · rw [if_pos hboth]
          exact iff_of_false (List.cons_ne_nil _ _) fun hnone => hnone.2 hboth
        · rw [if_neg hboth]
          by_cases hcall : tailFlag false (pre.map RawInstr.opcode ++ [p.opcode]) = true
              ∧ (IsCallOpcode i.opcode ∨ i.opcode = ceeRet)
          · obtain ⟨hflag, hop⟩ := hcall
            rw [← List.map_singleton, ← List.map_append] at hflag
            rw [if_pos ⟨by simpa using hflag, hop⟩]
            exact iff_of_true rfl ⟨h.tail_call_behind_prefix hpref his hflag, hboth⟩
          · rw [if_neg hcall, ownProbe_before_iff htail]
            exact ⟨fun hplain => ⟨hplain, hboth⟩, fun hnone => hnone.1⟩
    unfold annotate
    rw [if_neg htail, ← handlerProbes_eq_nil_iff, ← and_assoc, ← hown]
    dsimp only [instrPlacement]
    rw [List.map_eq_nil_iff, List.append_eq_nil_iff, List.map_eq_nil_iff]
    exact and_comm

/-- **Inside a tail call** only the start of a handler is probed. -/
theorem annotate_tail_call (hop : IsCallOpcode i.opcode ∨ i.opcode = ceeRet)
    {pre : List RawInstr} (hflag : tailFlag false (pre.map RawInstr.opcode) = true) {eh : List EhInfo}
    (hslots : i.slots = []) (targets : List ℕ) (post : List RawInstr) :
    ((annotate leaveMethod eh targets pre i post).before = []
        ↔ ∀ c ∈ eh, c.handlerOffset ≠ i.offset)
      ∧ (annotate leaveMethod eh targets pre i post).after = none := by
  have hkind : i.opcode ≠ ceeTailcall ∧ i.opcode ≠ ceeStsfld ∧ ¬IsPrefix i.opcode := by
    rcases hop with (hop | hop | hop | hop) | hop <;> rw [hop] <;> decide
  have hown : ownProbes leaveMethod pre i post = [] := by
    rw [ownProbes, nodeProbes, if_neg hkind.2.1, if_neg fun hboth => hkind.2.2 hboth.1,
      if_pos ⟨hflag, hop⟩]
  unfold annotate
  rw [← handlerProbes_eq_nil_iff, if_neg hkind.1]
  dsimp only [instrPlacement]
  rw [hown, hflag, if_pos hslots]
  refine ⟨by simp, ?_⟩
  split
  · simp
  · rfl

end Annotations

/-! ### The list against the original list -/

/-- The byte offset of an instruction and the first node of its group, or both ends. -/
def LeadsTo (body : MethodBody) (is : List RawInstr) (gs : List Group) (p o : ℕ) : Prop :=
  ∃ k ≤ is.length, boundaryAt is body.code.size k = o
    ∧ p = headAddr ILInstr.addr pIL (groupsFrom gs k)

/-- Each instruction once, in its group, among padding, with its successors. -/
structure GroupsPreserved (covProb : Probe → ProbeCall) (methodId : Int32) (isMain : Bool)
    (body : MethodBody) (is : List RawInstr) (s' : ILRewriter) (enter : List ILInstr)
    (gs : List Group) : Prop where
  list_eq : s'.m_IL = enter ++ gs.flatMap Group.nodes
  nodup : (s'.m_IL.map ILInstr.addr).Nodup
  length_eq : gs.length = is.length
  entry : ∃ o, enter.map ILInstr.content = enterContents covProb methodId (enterMethod isMain) o
    ∧ ∀ depth, callDepth (enterMethod isMain).parameters
      (enterContents covProb methodId (enterMethod isMain) o) depth = some depth
  padding : ∀ g ∈ gs, Padding covProb methodId g.lead ∧ Padding covProb methodId g.trail
  operation : ∀ (k : ℕ) (i : RawInstr) (g : Group), is[k]? = some i → gs[k]? = some g →
    g.instr.m_opcode = i.opcode ∧ (¬HasTarget i.opcode → g.instr.m_Arg64 = i.operand)
  -- control falls out of a group into the next one
  falls : ∀ (k : ℕ) (g : Group), gs[k]? = some g →
    s'.m_pNext (lastAddr ILInstr.addr pIL g.nodes) = headAddr ILInstr.addr pIL (groupsFrom gs (k + 1))
  branches : ∀ (k : ℕ) (i : RawInstr) (g : Group), is[k]? = some i → gs[k]? = some g →
    HasTarget i.opcode → LeadsTo body is gs g.instr.m_pTarget i.argWord
  switches : ∀ (k : ℕ) (i : RawInstr) (g : Group), is[k]? = some i → gs[k]? = some g →
    List.Forall₂ (fun n o => n.m_opcode = ceeSwitchArg ∧ LeadsTo body is gs n.m_pTarget o) g.slots
      i.slotTargets

/-- Moreover, prefixes and tail calls are kept together. -/
structure ProgramPreserved (covProb : Probe → ProbeCall) (methodId : Int32) (isMain : Bool)
    (body : MethodBody) (is : List RawInstr) (s' : ILRewriter) (enter : List ILInstr)
    (gs : List Group) : Prop extends
    GroupsPreserved covProb methodId isMain body is s' enter gs where
  -- nothing between a prefix and its instruction
  prefixes : ∀ (k : ℕ) (p : RawInstr) (g g' : Group), is[k]? = some p → gs[k]? = some g →
    gs[k + 1]? = some g' → IsPrefix p.opcode → g.trail = [] ∧ g'.lead = []
  -- nor between the call of a tail call and its `ret`
  tailCalls : ∀ (k : ℕ) (p : RawInstr) (g g' : Group), is[k]? = some p → p.opcode = ceeTailcall →
    gs[k + 1]? = some g → gs[k + 2]? = some g' → g.trail = [] ∧ g'.lead = []

/-- Every run of the list is one of the code, and every run of the code is one of the list. -/
structure Simulates (isMain : Bool) (body : MethodBody) (is : List RawInstr) (o : ℕ)
    (s' : ILRewriter) (enter : List ILInstr) (gs : List Group) : Prop where
  toCode : ∀ (vs : List (MarkedInstr × Passage)) (c : MarkedInstr) (rest : List MarkedInstr) (k : ℕ),
    ListRun (markedList isMain body is o enter gs) s'.m_pEH vs (c :: rest) →
    c.mark = some (.instr k) → CodeRun body is (visitedInstrs vs) k
  toList : ∀ (ds : List (ℕ × Passage)) (k : ℕ) (g : Group), CodeRun body is ds k →
    gs[k]? = some g → ∃ vs rest, ListRun (markedList isMain body is o enter gs) s'.m_pEH vs
      (⟨g.instr, some (.instr k)⟩ :: rest) ∧ visitedInstrs vs = ds

/-- Nothing behind a prefix, nor at the end of a tail call, asks for a probe in front of it. -/
structure ProbesApart (body : MethodBody) (is : List RawInstr) : Prop where
  prefixes : ∀ (k : ℕ) (p i : RawInstr), is[k]? = some p → is[k + 1]? = some i → IsPrefix p.opcode →
    ¬ProbedBefore i.opcode
      ∧ ¬(IsPrefix i.opcode ∧ is[k + 2]?.map RawInstr.opcode = some ceeStsfld)
      ∧ ∀ c ∈ body.eh, c.handlerOffset ≠ i.offset
  tailCalls : ∀ (k : ℕ) (p r : RawInstr), is[k]? = some p → p.opcode = ceeTailcall →
    is[k + 2]? = some r → ∀ c ∈ body.eh, c.handlerOffset ≠ r.offset

theorem Group.nodes_ne_nil (g : Group) : g.nodes ≠ [] := List.ne_nil_of_mem g.instr_mem

/-- The last node of a list is that of its back. -/
theorem lastAddr_append_ne_nil {front back : List ILInstr} {last : ℕ} (h : back ≠ []) :
    lastAddr ILInstr.addr last (front ++ back) = lastAddr ILInstr.addr last back := by
  obtain ⟨init, w, rfl⟩ := (List.eq_nil_or_concat' back).resolve_left h
  rw [← List.append_assoc, lastAddr_concat, lastAddr_concat]

theorem PaddedWith.eq_nil_iff {covProb : Probe → ProbeCall} {methodId : Int32}
    {probes : List (Probe × ℕ)} {nodes : List ILInstr} (h : PaddedWith covProb methodId probes nodes) :
    nodes = [] ↔ probes = [] := by
  constructor
  · rintro rfl
    exact List.map_eq_nil_iff.mp h.marks.symm
  · exact h.eq_nil

theorem PaddedWith.padding {covProb : Probe → ProbeCall} {methodId : Int32}
    {probes : List (Probe × ℕ)} {nodes : List ILInstr} (h : PaddedWith covProb methodId probes nodes) :
    Padding covProb methodId nodes := by
  obtain ⟨items, hitems, -, -, hnodes⟩ := h
  exact ⟨items, hitems, hnodes⟩

namespace RewrittenBody

variable {covProb : Probe → ProbeCall} {methodId : Int32} {isMain : Bool} {body : MethodBody}
  {is : List RawInstr} {s' : ILRewriter} {enter : List ILInstr} {gs : List Group}
  (hr : RewrittenBody covProb methodId isMain body is s' enter gs) (h : ValidBody body is)

include hr

theorem leadsTo {o : ℕ} (ho : IsStart is o ∨ o = body.code.size) :
    LeadsTo body is gs (targetOf is body.code.size o) o := by
  obtain ⟨k, hk, rfl⟩ := exists_boundaryAt ho
  exact ⟨k, hk, rfl, hr.targetOf_boundary hk⟩

include h

/-- Between a prefix and what stands behind it. -/
theorem prefix_clean_iff {k : ℕ} {p i : RawInstr} {g g' : Group} (hp : is[k]? = some p)
    (hi : is[k + 1]? = some i) (hg : gs[k]? = some g) (hg' : gs[k + 1]? = some g')
    (hpref : IsPrefix p.opcode) : g.trail = [] ∧ g'.lead = []
      ↔ ¬ProbedBefore i.opcode
        ∧ ¬(IsPrefix i.opcode ∧ is[k + 2]?.map RawInstr.opcode = some ceeStsfld)
        ∧ ∀ c ∈ body.eh, c.handlerOffset ≠ i.offset := by
  have hmem := List.mem_of_getElem? hp
  have htrail : g.trail = [] := by
    refine (hr.groupAt hp hg).trail.eq_nil ?_
    rw [annotationAt_eq hp, annotate_prefix hpref (h.next_notMem hmem hpref)]
    rfl
  have his : is = (is.take k ++ [p]) ++ i :: is.drop (k + 2) := by
    rw [← take_succ_of_getElem? hp, ← drop_of_getElem? hi, List.take_append_drop]
  have hbefore := @ValidBody.annotate_before_iff (leaveMethod isMain) _ _ _ _ h hpref _ _ his
  rw [← take_succ_of_getElem? hp, head?_drop, ← annotationAt_eq hi] at hbefore
  rw [and_iff_right htrail, (hr.groupAt hi hg').lead.eq_nil_iff, hbefore]

/-- Between the call of a tail call and its `ret`. -/
theorem tail_call_clean_iff {k : ℕ} {p r : RawInstr} {g g' : Group} (hp : is[k]? = some p)
    (htail : p.opcode = ceeTailcall) (hr₂ : is[k + 2]? = some r) (hg : gs[k + 1]? = some g)
    (hg' : gs[k + 2]? = some g') :
    g.trail = [] ∧ g'.lead = [] ↔ ∀ c ∈ body.eh, c.handlerOffset ≠ r.offset := by
  obtain ⟨c, hc⟩ := hr.getElem?_instr hg
  have his : is = is.take k ++ p :: is.drop (k + 1) := by
    rw [← drop_of_getElem? hp, List.take_append_drop]
  obtain ⟨c', r', rest, hrest, hcall, hret⟩ := h.tail_split his htail
  rw [drop_of_getElem? hc, drop_of_getElem? hr₂] at hrest
  obtain ⟨rfl, hbehind⟩ := List.cons.inj hrest
  obtain ⟨rfl, -⟩ := List.cons.inj hbehind
  -- the flag at both
  have hflag : ∀ {j : ℕ} {post : List RawInstr}, is = is.take j ++ post → InTailCall (is.take j) →
      tailFlag false ((is.take j).map RawInstr.opcode) = true := fun hj hin => (h.tailFlag_iff hj).mpr hin
  have hflag₁ := hflag (List.take_append_drop (k + 1) is).symm
    ⟨is.take k, p, htail, Or.inl (take_succ_of_getElem? hp)⟩
  have hflag₂ := hflag (List.take_append_drop (k + 2) is).symm ⟨is.take k, p, htail, Or.inr ⟨c, by
    rw [take_succ_of_getElem? hc, take_succ_of_getElem? hp, List.append_assoc]; rfl⟩⟩
  have hslots : ∀ i ∈ is, i.opcode ≠ ceeSwitch → i.slots = [] := by
    intro i hi hne
    by_contra hslots
    exact hne (h.decoded.slots_switch hi hslots)
  have hcallOp : IsCallOpcode c.opcode ∧ c.opcode ≠ ceeSwitch := by
    rcases hcall with hcall | hcall | hcall <;> rw [hcall] <;> decide
  have hretOp : r.opcode ≠ ceeSwitch := by
    rw [hret]
    decide
  have hcMem := List.mem_of_getElem? hc
  have hrMem := List.mem_of_getElem? hr₂
  have htrail : g.trail = [] := by
    refine (hr.groupAt hc hg).trail.eq_nil ?_
    rw [annotationAt_eq hc, (annotate_tail_call (Or.inl hcallOp.1) hflag₁
      (hslots c hcMem hcallOp.2) _ _).2]
    rfl
  rw [and_iff_right htrail, (hr.groupAt hr₂ hg').lead.eq_nil_iff, annotationAt_eq hr₂,
    (annotate_tail_call (Or.inr hret) hflag₂ (hslots r hrMem hretOp) _ _).1]

/-- **Each instruction** is in its group. -/
theorem groupsPreserved : GroupsPreserved covProb methodId isMain body is s' enter gs := by
  have hgroup : ∀ {k : ℕ} {g : Group}, gs[k]? = some g → ∃ i, is[k]? = some i
      ∧ GroupOf covProb methodId (targetOf is body.code.size)
        (annotationAt (leaveMethod isMain) body is k) i g := by
    intro k g hg
    obtain ⟨i, hi⟩ := hr.getElem?_instr hg
    exact ⟨i, hi, hr.groupAt hi hg⟩
  refine ⟨hr.list_eq, hr.linked.nodup, hr.length_eq, ?_, ?_, ?_, ?_, ?_, ?_⟩
  · obtain ⟨o, ho⟩ := hr.enter_eq
    refine ⟨o, ho, fun depth => enterContents_depth ?_ o depth⟩
    cases isMain <;> rfl
  · intro g hg
    obtain ⟨k, hk⟩ := List.getElem?_of_mem hg
    obtain ⟨i, -, hgroup⟩ := hgroup hk
    exact ⟨hgroup.lead.padding, hgroup.trail.padding⟩
  · intro k i g hi hg
    have hop := (hr.groupAt hi hg).operation
    exact ⟨hop.opcode, hop.operand⟩
  · intro k g hg
    have hlist := hr.list_split (k + 1)
    rw [frontNodes_succ enter hg] at hlist
    rw [← @lastAddr_append_ne_nil (frontNodes enter gs k) _ _ g.nodes_ne_nil]
    exact hr.linked.next_last hlist
  · intro k i g hi hg hhas
    rw [(hr.groupAt hi hg).operation.target hhas]
    refine hr.leadsTo (h.targets i (List.mem_of_getElem? hi) _ ?_)
    rw [hasTarget_targets (h.decoded.opcode_lt (List.mem_of_getElem? hi)) hhas]
    exact List.mem_cons_self
  · intro k i g hi hg
    refine forall₂_of_map_eq (hr.groupAt hi hg).operation.slots fun n o ho hcontent => ?_
    obtain ⟨hop, htarget⟩ := Prod.mk.inj hcontent
    have hleads : LeadsTo body is gs n.m_Arg64 o := by
      rw [htarget]
      refine hr.leadsTo (h.targets i (List.mem_of_getElem? hi) o ?_)
      have hslots : i.slots ≠ [] := by
        rintro hnil
        rw [RawInstr.slotTargets, hnil] at ho
        exact absurd ho List.not_mem_nil
      rw [RawInstr.targets, h.decoded.slots_switch (List.mem_of_getElem? hi) hslots]
      exact ho
    exact ⟨hop, hleads⟩

/-- **What the rewriting preserves**, and when. -/
theorem programPreserved_iff : ProgramPreserved covProb methodId isMain body is s' enter gs
    ↔ ProbesApart body is := by
  constructor
  · intro hpreserved
    constructor
    · intro k p i hp hi hpref
      obtain ⟨g, hg, -⟩ := hr.getElem?_group hp
      obtain ⟨g', hg', -⟩ := hr.getElem?_group hi
      exact (hr.prefix_clean_iff h hp hi hg hg' hpref).mp
        (hpreserved.prefixes k p g g' hp hg hg' hpref)
    · intro k p r hp htail hr₂
      have hlt : k + 1 < is.length := by
        have hlast := (List.getElem?_eq_some_iff.mp hr₂).1
        omega
      obtain ⟨g, hg, -⟩ := hr.getElem?_group (List.getElem?_eq_getElem hlt)
      obtain ⟨g', hg', -⟩ := hr.getElem?_group hr₂
      exact (hr.tail_call_clean_iff h hp htail hr₂ hg hg').mp
        (hpreserved.tailCalls k p g g' hp htail hg hg')
  · intro hapart
    refine ⟨hr.groupsPreserved h, ?_, ?_⟩
    · intro k p g g' hp hg hg' hpref
      obtain ⟨i, hi⟩ := hr.getElem?_instr hg'
      exact (hr.prefix_clean_iff h hp hi hg hg' hpref).mpr (hapart.prefixes k p i hp hi hpref)
    · intro k p g g' hp htail hg hg'
      obtain ⟨r, hr₂⟩ := hr.getElem?_instr hg'
      exact (hr.tail_call_clean_iff h hp htail hr₂ hg hg').mpr (hapart.tailCalls k p r hp htail hr₂)

/-- **The runs** of the list are those of the code. -/
theorem simulates {o : ℕ} (ho : enter.map ILInstr.content
    = enterContents covProb methodId (enterMethod isMain) o) :
    Simulates isMain body is o s' enter gs := by
  constructor
  · intro vs c rest k hrun hc
    exact (hr.codeRun_of_listRun h ho hrun hc).1
  · intro ds k g hrun hg
    obtain ⟨i, hi⟩ := hr.getElem?_instr hg
    obtain ⟨vs, hlist, hvisited, -⟩ := hr.listRun_of_codeRun h ho hrun
    obtain ⟨vs', hlist', hvisited', -⟩ := hr.listRun_instr h hi hg hlist
    exact ⟨vs', _, hlist', hvisited'.trans hvisited⟩

end RewrittenBody

/-- A prefix and what stands behind it, in the list. -/
theorem ProgramPreserved.prefix_infix {covProb : Probe → ProbeCall} {methodId : Int32} {isMain : Bool}
    {body : MethodBody} {is : List RawInstr} {s' : ILRewriter} {enter : List ILInstr}
    {gs : List Group} (h : ProgramPreserved covProb methodId isMain body is s' enter gs) {k : ℕ}
    {p i : RawInstr} (hp : is[k]? = some p) (hi : is[k + 1]? = some i) (hpref : IsPrefix p.opcode)
    (hslots : p.slots = []) : [p.opcode, i.opcode] <:+: s'.m_IL.map ILInstr.m_opcode := by
  have hlt := (List.getElem?_eq_some_iff.mp hp).1
  have hlt' := (List.getElem?_eq_some_iff.mp hi).1
  rw [← h.length_eq] at hlt hlt'
  have hg := List.getElem?_eq_getElem hlt
  have hg' := List.getElem?_eq_getElem hlt'
  obtain ⟨htrail, hlead⟩ := h.prefixes k p _ _ hp hg hg' hpref
  have hnone : gs[k].slots = [] := by
    have htable := h.switches k p _ hp hg
    rw [RawInstr.slotTargets, hslots, List.map_nil] at htable
    exact List.forall₂_nil_right_iff.mp htable
  have hop := (h.operation k p _ hp hg).1
  have hop' := (h.operation (k + 1) i _ hi hg').1
  rw [h.list_eq, frontNodes_split enter hg, drop_of_getElem? hg', List.flatMap_cons, Group.nodes,
    Group.nodes, htrail, hlead, hnone]
  refine ⟨(frontNodes enter gs k ++ gs[k].lead).map ILInstr.m_opcode,
    (gs[k + 1].slots ++ gs[k + 1].trail
      ++ (gs.drop (k + 1 + 1)).flatMap Group.nodes).map ILInstr.m_opcode, ?_⟩
  simp [hop, hop']

/-- **Instrumentation preserves the program.**  The rewritten list of a valid body has the runs of the
code.  It has each instruction once, among padding, and with its successors; nothing is inserted
behind prefixes and in tail calls exactly if nothing there asks for a probe. -/
theorem program_preserved_iff {body : MethodBody} {is : List RawInstr} (h : ValidBody body is)
    (covProb : Probe → ProbeCall) (methodId : Int32) (isMain : Bool) :
    ∃ s s', importBody body = .ok s ∧ s.rewriteIL covProb methodId isMain = .ok s'
      ∧ (∃ enter gs, RewrittenBody covProb methodId isMain body is s' enter gs)
      ∧ ∀ enter gs, RewrittenBody covProb methodId isMain body is s' enter gs →
        (∃ o, Simulates isMain body is o s' enter gs)
        ∧ GroupsPreserved covProb methodId isMain body is s' enter gs
        ∧ (ProgramPreserved covProb methodId isMain body is s' enter gs ↔ ProbesApart body is) := by
  obtain ⟨s, s', enter, gs, hs, hrewrite, hr, -, -⟩ := h.exists_rewritten covProb methodId isMain
  refine ⟨s, s', hs, hrewrite, ⟨enter, gs, hr⟩, fun enter gs hr => ?_⟩
  obtain ⟨o, ho⟩ := hr.enter_eq
  exact ⟨⟨o, hr.simulates h ho⟩, hr.groupsPreserved h, hr.programPreserved_iff h⟩

theorem program_preserved_iff_call_ret : ∃ s s', importBody callRetBody = .ok s
    ∧ s.rewriteIL (fun _ => ⟨0, 0⟩) 0 true = .ok s'
    ∧ (∃ enter gs, RewrittenBody (fun _ => ⟨0, 0⟩) 0 true callRetBody callRetInstrs s' enter gs)
    ∧ ∀ enter gs, RewrittenBody (fun _ => ⟨0, 0⟩) 0 true callRetBody callRetInstrs s' enter gs →
      (∃ o, Simulates true callRetBody callRetInstrs o s' enter gs)
      ∧ GroupsPreserved (fun _ => ⟨0, 0⟩) 0 true callRetBody callRetInstrs s' enter gs
      ∧ (ProgramPreserved (fun _ => ⟨0, 0⟩) 0 true callRetBody callRetInstrs s' enter gs
        ↔ ProbesApart callRetBody callRetInstrs) := by
  refine program_preserved_iff ⟨by decide +kernel, by decide, by decide +kernel, by decide,
    by decide +kernel, by decide +kernel, by simp [callRetBody], ?_⟩ (fun _ => ⟨0, 0⟩) 0 true
  exact not_reachable_of_closed [0, 5] (by decide) (by decide +kernel) (by decide)

/-- `ldarg.0; constrained.; tail.; callvirt; ret`. -/
def constrainedTailBody : MethodBody where
  flags := 0
  maxStack := 8
  localVarSigTok := 0
  code := ⟨[0x02, 0xFE, 0x16, 2, 0, 0, 0x1B, 0xFE, 0x14, 0x6F, 1, 0, 0, 0x0A, 0x2A], by decide⟩
  eh := []

def constrainedTailInstrs : List RawInstr :=
  [⟨0, 0x02, 0, []⟩, ⟨1, ceeConstrained, 0x1B000002, []⟩, ⟨7, ceeTailcall, 0, []⟩,
    ⟨9, ceeCallvirt, 0x0A000001, []⟩, ⟨14, ceeRet, 0, []⟩]

theorem constrainedTailBody_valid : ValidBody constrainedTailBody constrainedTailInstrs := by
  refine ⟨by decide +kernel, by decide, by decide +kernel, by decide, by decide +kernel,
    by decide +kernel, by simp [constrainedTailBody], ?_⟩
  exact not_reachable_of_closed [0, 1, 7, 9, 14] (by decide) (by decide +kernel) (by decide)

/-- The probes of the tail call stand between `constrained.` and its call. -/
theorem constrainedTail_not_preserved : ValidBody constrainedTailBody constrainedTailInstrs
    ∧ ∃ s s', importBody constrainedTailBody = .ok s
      ∧ s.rewriteIL (fun _ => ⟨0, 0⟩) 0 true = .ok s'
      ∧ ∀ enter gs, ¬ProgramPreserved (fun _ => ⟨0, 0⟩) 0 true constrainedTailBody
        constrainedTailInstrs s' enter gs := by
  obtain ⟨s, s', -, -, hs, hrewrite, -, -, -⟩ :=
    constrainedTailBody_valid.exists_rewritten (fun _ => ⟨0, 0⟩) 0 true
  have hopcodes : ((importBody constrainedTailBody).toOption.bind fun s =>
      (s.rewriteIL (fun _ => ⟨0, 0⟩) 0 true).toOption.map fun s' =>
        decide ([ceeConstrained, ceeTailcall] <:+: s'.m_IL.map ILInstr.m_opcode)) = some false := by
    decide +kernel
  rw [hs] at hopcodes
  have hopcodes' : (s.rewriteIL (fun _ => ⟨0, 0⟩) 0 true).toOption.map (fun s' =>
      decide ([ceeConstrained, ceeTailcall] <:+: s'.m_IL.map ILInstr.m_opcode)) = some false := hopcodes
  rw [hrewrite] at hopcodes'
  refine ⟨constrainedTailBody_valid, s, s', hs, hrewrite, fun enter gs hpreserved => ?_⟩
  exact of_decide_eq_false (Option.some.inj hopcodes')
    (hpreserved.prefix_infix (k := 1) rfl rfl (by decide) rfl)

end TestExecutor
