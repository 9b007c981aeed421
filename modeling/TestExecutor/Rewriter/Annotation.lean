import TestExecutor.Rewriter.Imported

/-!
# Which probes stand around an instruction

The placements of the rewritten list in terms of the decoded instructions of a valid body.

* `ownProbes`, `handlerProbes`, `branchTargets` — what decides about the probes of an instruction;
* `tailFlag_iff` — the flag of the scan is set at the call and at the `ret` of a tail call;
* `mem_predecessors_iff` — the nodes in front of branch targets;
* `covered_iff_of_instr`, `not_covered_slot` — the covered offsets;
* `placement_instr`, `placement_slot`, `placement_oldTail`, `placement_newTail` — the placements.
-/

namespace TestExecutor

open TestExecutor.Library

/-- The probes of an instruction other than a `tail.` and their sides, by what stands around it. -/
def ownProbes (leaveMethod : Probe) (pre : List RawInstr) (i : RawInstr) (post : List RawInstr) :
    List (Probe × Bool) :=
  nodeProbes leaveMethod (lastOpcode none (pre.map RawInstr.opcode))
    (tailFlag false (pre.map RawInstr.opcode)) i.opcode (post.head?.map RawInstr.opcode)

theorem ownProbes_switch {leaveMethod : Probe} {pre post : List RawInstr} {i : RawInstr}
    (hswitch : i.opcode = ceeSwitch) : ownProbes leaveMethod pre i post = [(.branch, true)] := by
  have hcall : ¬ (IsCallOpcode ceeSwitch ∨ ceeSwitch = ceeRet) := by decide
  rw [ownProbes, nodeProbes, hswitch, if_neg (by decide),
    if_neg (fun hboth => absurd hboth.1 (by decide)), if_neg (fun hboth => hcall hboth.2)]
  rfl

/-- The probes at a start of handlers. -/
def handlerProbes (eh : List EhInfo) (o : ℕ) : List Probe :=
  List.replicate (eh.countP fun c => decide (c.handlerOffset = o)) .throw

/-- The placement of an instruction other than a `tail.`. -/
def instrPlacement (leaveMethod : Probe) (eh : List EhInfo) (targets : List ℕ)
    (pre : List RawInstr) (i : RawInstr) (post : List RawInstr) : Placement where
  before := handlerProbes eh i.offset
    ++ ((ownProbes leaveMethod pre i post).filter Prod.snd).map Prod.fst
  after :=
    if ownProbes leaveMethod pre i post = [] ∧ handlerProbes eh i.offset = [] then
      if i.slots = [] ∧ i.next ∈ targets ∧ tailFlag false (pre.map RawInstr.opcode) = false then
        some .coverage
      else none
    else ((ownProbes leaveMethod pre i post).find? fun p => !p.2).map Prod.fst

def branchTargets (is : List RawInstr) : List ℕ := is.flatMap RawInstr.targets

/-- The placement of a node with at most one probe of its own, where `n` handlers start. -/
theorem placed_own (p : ℕ) {own : List (Probe × Bool)} (hlength : own.length ≤ 1) (n : ℕ) :
    placed ((own.map fun x => ⟨p, nullPtr, x.1, x.2⟩)
        ++ (List.replicate n Probe.throw).map fun x => ⟨p, nullPtr, x, true⟩)
      = ⟨List.replicate n .throw ++ (own.filter Prod.snd).map Prod.fst,
        (own.find? fun x => !x.2).map Prod.fst⟩ := by
  have hfilter : (List.replicate n (⟨p, nullPtr, .throw, true⟩ : ProbeInsertion)).filter
      ProbeInsertion.isBeforeInstr = List.replicate n ⟨p, nullPtr, .throw, true⟩ :=
    List.filter_eq_self.mpr fun x hx => by rw [List.eq_of_mem_replicate hx]
  have hfind : (List.replicate n (⟨p, nullPtr, .throw, true⟩ : ProbeInsertion)).find?
      (fun x => !x.isBeforeInstr) = none := by
    refine List.find?_eq_none.mpr fun x hx => ?_
    rw [List.eq_of_mem_replicate hx]
    exact Bool.false_ne_true
  rw [List.map_replicate]
  match own with
  | [] =>
      rw [placed, List.map_nil, List.nil_append, hfilter, hfind, List.map_replicate,
        List.reverse_replicate]
      simp
  | [⟨q, true⟩] =>
      rw [placed, List.map_singleton, List.singleton_append, List.filter_cons_of_pos rfl, hfilter,
        List.find?_cons_of_neg (by simp), hfind, List.map_cons, List.map_replicate,
        List.reverse_cons, List.reverse_replicate]
      rfl
  | [⟨q, false⟩] =>
      rw [placed, List.map_singleton, List.singleton_append, List.filter_cons_of_neg (by simp),
        hfilter, List.find?_cons_of_pos (by simp), List.map_replicate, List.reverse_replicate]
      simp
  | x :: y :: rest =>
      rw [List.length_cons, List.length_cons] at hlength
      omega

/-! ### The flag of the scan -/

/-- The call of a tail call, or its `ret`. -/
def InTailCall (pre : List RawInstr) : Prop :=
  ∃ front p, p.opcode = ceeTailcall ∧ (pre = front ++ [p] ∨ ∃ c, pre = front ++ [p, c])

theorem tailFlag_nodes {t : ℕ → ℕ} {is : List RawInstr} (a : ℕ) (isTailCall : Bool) :
    tailFlag isTailCall ((importedNodes t a is).map ILInstr.m_opcode)
      = tailFlag isTailCall (is.map RawInstr.opcode) := by
  induction is generalizing a isTailCall with
  | nil => rfl
  | cons i is ih =>
      have hslots : ∀ (isTailCall : Bool) (targets : List ℕ) (a o : ℕ),
          tailFlag isTailCall ((tableNodes t a o targets).map ILInstr.m_opcode) = isTailCall := by
        intro isTailCall targets
        induction targets generalizing isTailCall with
        | nil => exact fun a o => rfl
        | cons target targets ih =>
            intro a o
            have hno : (if ceeSwitchArg = ceeTailcall then true
                else isTailCall && !decide (ceeSwitchArg = ceeRet)) = isTailCall := by
              rw [if_neg (by decide), decide_eq_false (by decide)]
              exact Bool.and_true isTailCall
            rw [tableNodes, List.map_cons, tailFlag, hno]
            exact ih isTailCall _ _
      rw [importedNodes, List.map_cons, List.map_append, tailFlag, tailFlag_append,
        RawInstr.tableNodes, hslots, ih, instrNode_opcode]
      rfl

theorem lastOpcode_nodes (t : ℕ → ℕ) {is : List RawInstr} (a : ℕ)
    (hslots : ∀ i ∈ is, i.slots ≠ [] → i.opcode = ceeSwitch) :
    ((lastOpcode none ((importedNodes t a is).map ILInstr.m_opcode)).any
        fun o => decide (IsPrefix o))
      = (lastOpcode none (is.map RawInstr.opcode)).any fun o => decide (IsPrefix o) := by
  rcases List.eq_nil_or_concat is with rfl | ⟨front, i, rfl⟩
  · rfl
  · rw [List.concat_eq_append] at hslots ⊢
    rw [importedNodes_append, List.map_append, List.map_append, List.map_singleton,
      lastOpcode_concat, importedNodes, importedNodes, List.append_nil]
    rcases List.eq_nil_or_concat (i.tableNodes t (addrBehindAll a front)) with hnil | ⟨js, j, hjs⟩
    · rw [hnil, List.map_singleton, lastOpcode_concat, instrNode_opcode]
    · rw [List.concat_eq_append] at hjs
      have hmem : j ∈ i.tableNodes t (addrBehindAll a front) := by rw [hjs]; simp
      have hj : j.m_opcode = ceeSwitchArg := tableNodes_opcode hmem
      have hne : i.slots ≠ [] := by
        intro hnil
        rw [RawInstr.tableNodes, RawInstr.slotTargets, hnil] at hjs
        exact absurd hjs (by simp [tableNodes])
      rw [hjs, List.map_cons, List.map_append, List.map_singleton, ← List.cons_append,
        ← List.append_assoc, lastOpcode_concat, hj, hslots i (by simp) hne]
      rfl

namespace ValidBody

variable {body : MethodBody} {is : List RawInstr} (h : ValidBody body is)

include h

/-- **The flag** is set in tail calls only, whose `ret` resets it. -/
theorem tailFlag_iff {pre post : List RawInstr} (his : is = pre ++ post) :
    tailFlag false (pre.map RawInstr.opcode) = true ↔ InTailCall pre := by
  induction pre using List.reverseRecOn generalizing post with
  | nil =>
      constructor
      · exact fun hflag => absurd hflag Bool.false_ne_true
      · rintro ⟨front, p, -, hpre | ⟨c, hpre⟩⟩ <;> simp at hpre
  | append_singleton front x ih =>
      rw [List.append_assoc, List.singleton_append] at his
      have hih := ih his
      rw [List.map_append, tailFlag_append]
      show (if x.opcode = ceeTailcall then true
        else tailFlag false (front.map RawInstr.opcode) && !decide (x.opcode = ceeRet)) = true ↔ _
      constructor
      · intro hflag
        by_cases htail : x.opcode = ceeTailcall
        · exact ⟨front, x, htail, Or.inl rfl⟩
        · rw [if_neg htail, Bool.and_eq_true, Bool.not_eq_true', decide_eq_false_iff_not] at hflag
          obtain ⟨front', p, hp, rfl | ⟨c, rfl⟩⟩ := hih.mp hflag.1
          · exact ⟨front', p, hp, Or.inr ⟨x, by simp⟩⟩
          · have his' : is = front' ++ p :: (c :: x :: post) := by rw [his]; simp
            obtain ⟨c', r, rest, hpost, -, hret⟩ := h.tail_split his' hp
            obtain ⟨-, hx⟩ := List.cons.inj hpost
            obtain ⟨rfl, -⟩ := List.cons.inj hx
            exact absurd hret hflag.2
      · rintro ⟨front', p, hp, hpre | ⟨c, hpre⟩⟩
        · obtain rfl := List.singleton_inj.mp (List.append_inj' hpre rfl).2
          rw [if_pos hp]
        · have hpre' : front ++ [x] = (front' ++ [p]) ++ [c] := by rw [hpre]; simp
          obtain ⟨hfront, hx⟩ := List.append_inj' hpre' rfl
          obtain rfl := List.singleton_inj.mp hx
          have his' : is = front' ++ p :: x :: post := by rw [his, hfront]; simp
          obtain ⟨c', r, rest, hpost, hcall, -⟩ := h.tail_split his' hp
          obtain ⟨rfl, -⟩ := List.cons.inj hpost
          have hret : x.opcode ≠ ceeRet := by rcases hcall with hc | hc | hc <;> rw [hc] <;> decide
          rw [if_neg (ne_tail_of_call hcall), hih.mpr ⟨front', p, hp, Or.inl hfront⟩,
            decide_eq_false hret]
          rfl

end ValidBody

/-! ### The nodes in front of branch targets -/

section Ring

variable {s : ILRewriter} {front back : List ILInstr} {w : ILInstr}

/-- Behind the last node of the front of a list stands the first one of the rest. -/
theorem ILRewriter.Linked.next_last (h : s.Linked) {pre post : List ILInstr}
    (hIL : s.m_IL = pre ++ post) :
    s.m_pNext (lastAddr ILInstr.addr pIL pre) = headAddr ILInstr.addr pIL post := by
  rcases List.eq_nil_or_concat pre with rfl | ⟨front, v, rfl⟩
  · show (if pIL = pIL then s.first else _) = _
    rw [if_pos rfl, ILRewriter.first, hIL]
    rfl
  · rw [List.concat_eq_append] at hIL ⊢
    rw [lastAddr_concat]
    rw [List.append_assoc, List.singleton_append] at hIL
    exact h.next_eq hIL

/-- Links go back and forth. -/
theorem ILRewriter.Linked.next_prev (h : s.Linked) {p : ℕ}
    (hp : p = pIL ∨ p ∈ s.m_IL.map ILInstr.addr) : s.m_pNext (s.m_pPrev p) = p := by
  rcases hp with rfl | hp
  · rw [ILRewriter.m_pPrev, prevAddr_of_notMem h.pIL_notMem]
    exact h.next_last (List.append_nil _).symm
  · obtain ⟨w, hw, rfl⟩ := List.mem_map.mp hp
    obtain ⟨pre, post, hIL⟩ := List.append_of_mem hw
    rw [h.prev_eq hIL]
    exact h.next_last hIL

theorem ILRewriter.Linked.prev_next (h : s.Linked) (hIL : s.m_IL = front ++ w :: back) :
    s.m_pPrev (headAddr ILInstr.addr pIL back) = w.addr := by
  cases back with
  | nil =>
      rw [headAddr, ILRewriter.m_pPrev, prevAddr_of_notMem h.pIL_notMem, hIL, lastAddr_concat]
  | cons v back =>
      rw [List.append_cons] at hIL
      rw [headAddr, h.prev_eq hIL, lastAddr_concat]

/-- A node stands in front of a branch target if the node behind it is one. -/
theorem ILRewriter.Linked.mem_predecessors_iff (h : s.Linked) (hIL : s.m_IL = front ++ w :: back)
    (htargets : ∀ v ∈ s.m_IL, HasTarget v.m_opcode →
      v.m_pTarget = pIL ∨ v.m_pTarget ∈ s.m_IL.map ILInstr.addr) :
    w.addr ∈ predecessors s.m_pPrev s.m_IL
      ↔ ∃ v ∈ s.m_IL, HasTarget v.m_opcode
        ∧ v.m_pTarget = headAddr ILInstr.addr pIL back := by
  have hmem : ∀ p, p ∈ predecessors s.m_pPrev s.m_IL
      ↔ ∃ v ∈ s.m_IL, HasTarget v.m_opcode ∧ s.m_pPrev v.m_pTarget = p := by
    intro p
    simp [predecessors, and_assoc]
  rw [hmem]
  constructor
  · rintro ⟨v, hv, hhas, hprev⟩
    refine ⟨v, hv, hhas, ?_⟩
    rw [← h.next_eq hIL, ← hprev, h.next_prev (htargets v hv hhas)]
  · rintro ⟨v, hv, hhas, htarget⟩
    exact ⟨v, hv, hhas, by rw [htarget, h.prev_next hIL]⟩

end Ring

namespace ValidBody

variable {body : MethodBody} {is : List RawInstr} (h : ValidBody body is)

include h

theorem next_startOrEnd {i : RawInstr} (hi : i ∈ is) :
    IsStart is i.next ∨ i.next = body.code.size := h.consecutive.next_isStart hi

theorem branchTarget_startOrEnd {o : ℕ} (ho : o ∈ branchTargets is) :
    IsStart is o ∨ o = body.code.size := by
  obtain ⟨i, hi, ho⟩ := List.mem_flatMap.mp ho
  exact h.targets i hi o ho

variable {s : ILRewriter} (hs : ImportedFrom body is s)

include hs

theorem exists_target_iff {p : ℕ} :
    (∃ v ∈ s.m_IL, HasTarget v.m_opcode ∧ v.m_pTarget = p)
      ↔ ∃ o ∈ branchTargets is, targetOf is body.code.size o = p := by
  rw [hs.list_eq]
  constructor
  · rintro ⟨v, hv, hhas, rfl⟩
    obtain ⟨i, hi, o, ho, htarget⟩ := h.decoded.node_target hv hhas
    exact ⟨o, List.mem_flatMap.mpr ⟨i, hi, ho⟩, htarget.symm⟩
  · rintro ⟨o, ho, rfl⟩
    obtain ⟨i, hi, ho⟩ := List.mem_flatMap.mp ho
    exact h.decoded.target_node hi ho

end ValidBody

section Placements

variable {body : MethodBody} {is pre post : List RawInstr} {s : ILRewriter} {i : RawInstr}
  {leaveMethod : Probe}

/-- The nodes of an instruction in the list. -/
theorem ImportedFrom.list_split (hs : ImportedFrom body is s) (his : is = pre ++ i :: post) :
    s.m_IL = importedNodes (targetOf is body.code.size) (pIL + 1) pre
      ++ (instrNode (targetOf is body.code.size) (addrBehindAll (pIL + 1) pre) i
        :: (i.tableNodes (targetOf is body.code.size) (addrBehindAll (pIL + 1) pre)
          ++ importedNodes (targetOf is body.code.size)
            (addrBehind (addrBehindAll (pIL + 1) pre) i) post)) := by
  rw [hs.list_eq]
  conv_lhs => rw [his, importedNodes_append, importedNodes]
  rw [his]

namespace ValidBody

variable (h : ValidBody body is) (hs : ImportedFrom body is s)

include h

theorem targetOf_inj {o o' : ℕ} (ho : IsStart is o ∨ o = body.code.size)
    (ho' : IsStart is o' ∨ o' = body.code.size) :
    targetOf is body.code.size o = targetOf is body.code.size o' ↔ o = o' := by
  constructor
  · intro heq
    rcases ho' with ho' | rfl
    · exact h.decoded.targetOf_injective ho ho' heq
    · rcases ho with ho | rfl
      · exact (h.decoded.targetOf_injective (Or.inr rfl) ho heq.symm).symm
      · rfl
  · rintro rfl
    rfl

/-- An instruction stands at one place only. -/
theorem split_unique {pre' post' : List RawInstr} {k : RawInstr} (his : is = pre ++ i :: post)
    (his' : is = pre' ++ k :: post') (hoffset : i.offset = k.offset) :
    pre = pre' ∧ i = k ∧ post = post' := by
  have hnodup : ((pre ++ i :: post).map RawInstr.offset).Nodup := by
    rw [← his]
    exact h.consecutive.offsets_pairwise.imp fun hlt => ne_of_lt hlt
  exact Library.split_unique hnodup (his.symm.trans his') hoffset

include hs

/-- The last node of an instruction stands in front of a branch target if the instruction
does. -/
theorem mem_predecessors_iff {front : List ILInstr} {w : ILInstr} (his : is = pre ++ i :: post)
    (hlast : s.m_IL = front ++ w :: importedNodes (targetOf is body.code.size)
      (addrBehind (addrBehindAll (pIL + 1) pre) i) post) :
    w.addr ∈ predecessors s.m_pPrev s.m_IL ↔ i.next ∈ branchTargets is := by
  have hi : i ∈ is := by rw [his]; simp
  have hrewritable := h.rewritable hs
  rw [hs.linked.mem_predecessors_iff hlast fun v hv hhas => (hrewritable.targets v hv hhas).1,
    h.exists_target_iff hs, h.decoded.headAddr_nodes his]
  constructor
  · rintro ⟨o, ho, heq⟩
    rwa [← (h.targetOf_inj (h.branchTarget_startOrEnd ho) (h.next_startOrEnd hi)).mp heq]
  · exact fun hnext => ⟨i.next, hnext, rfl⟩

/-- A slot of a switch is not the start of an instruction. -/
theorem targetOf_ne_slot {j : ILInstr} (hj : j ∈ s.m_IL) (hslot : j.m_opcode = ceeSwitchArg) {o : ℕ}
    (ho : IsStart is o ∨ o = body.code.size) : targetOf is body.code.size o ≠ j.addr := by
  intro heq
  rcases ho with ⟨k, hk, rfl⟩ | rfl
  · obtain ⟨pre, post, his⟩ := List.append_of_mem hk
    rw [h.decoded.targetOf_split his] at heq
    have hkIL : instrNode (targetOf is body.code.size) (addrBehindAll (pIL + 1) pre) k ∈ s.m_IL := by
      rw [hs.list_split his]
      simp
    have hsame := List.inj_on_of_nodup_map hs.linked.nodup hkIL hj
      ((instrNode_addr _ _ _).trans heq)
    have hop : k.opcode = ceeSwitchArg := by rw [← hslot, ← hsame, instrNode_opcode]
    exact (h.decoded.importable hk).ne_switchArg hop
  · rw [targetOf, if_pos rfl] at heq
    exact absurd heq (ne_of_lt (hs.linked.allocated j hj).1)

/-- No branch leads to a slot of a switch, so the node in front of one is in front of no target. -/
theorem not_mem_predecessors {front back : List ILInstr} {w j : ILInstr}
    (hIL : s.m_IL = front ++ w :: j :: back) (hj : j.m_opcode = ceeSwitchArg) :
    w.addr ∉ predecessors s.m_pPrev s.m_IL := by
  have hrewritable := h.rewritable hs
  rw [hs.linked.mem_predecessors_iff hIL fun v hv hhas => (hrewritable.targets v hv hhas).1,
    h.exists_target_iff hs]
  rintro ⟨o, ho, heq⟩
  exact h.targetOf_ne_slot hs (by rw [hIL]; simp) hj (h.branchTarget_startOrEnd ho) heq

omit hs in
/-- The offsets of the two nodes behind a `tail.`. -/
theorem tail_offsets {p c r : RawInstr} {rest : List RawInstr} {t : ℕ → ℕ} {a : ℕ}
    (his : is = pre ++ p :: c :: r :: rest) (hp : p.opcode = ceeTailcall) :
    offsetOf (p.tableNodes t a ++ importedNodes t (addrBehind a p) (c :: r :: rest)) 0 = c.offset
      ∧ offsetOf (p.tableNodes t a ++ importedNodes t (addrBehind a p) (c :: r :: rest)) 1
        = r.offset := by
  obtain ⟨c', r', rest', hpost, hcall, -⟩ := h.tail_split his hp
  obtain ⟨rfl, -⟩ := List.cons.inj hpost
  have hne : c.opcode ≠ ceeSwitch := by rcases hcall with hc | hc | hc <;> rw [hc] <;> decide
  rw [h.decoded.tableNodes_eq_nil (by rw [his]; simp) (by rw [hp]; decide), List.nil_append,
    importedNodes, h.decoded.tableNodes_eq_nil (by rw [his]; simp) hne, List.nil_append,
    importedNodes]
  exact ⟨instrNode_offset _ _ _, instrNode_offset _ _ _⟩

/-- The instructions and slots whose offsets are covered: those with probes of their own, and the
two behind every `tail.`. -/
theorem covered_iff (o : ℕ) : Covered (allPriorities leaveMethod s) s.anchors o
    ↔ (∃ v ∈ s.m_IL, v.m_opcode ≠ ceeTailcall ∧ v.m_offset = o
        ∧ insertionsAt (allPriorities leaveMethod s) v.addr ≠ [])
      ∨ ∃ pre p c r rest, is = pre ++ p :: c :: r :: rest ∧ p.opcode = ceeTailcall
        ∧ (o = c.offset ∨ o = r.offset) := by
  have hrewritable := h.rewritable hs
  constructor
  · rintro ⟨v, hv, rfl, hsome⟩
    obtain ⟨pre, w, post, hIL, ⟨hplain, rfl⟩ | ⟨htail, hcases⟩⟩ := mem_scanned hv
    · exact Or.inl ⟨v, by rw [hIL]; simp, hplain, rfl, hsome⟩
    · rw [hs.list_eq] at hIL
      obtain ⟨is₁, p, is₂, his, -, rfl, rfl⟩ := importedNodes_split hIL (by rw [htail]; decide)
      rw [instrNode_opcode] at htail
      obtain ⟨c, r, rest, rfl, -, -⟩ := h.tail_split his htail
      obtain ⟨hoff₀, hoff₁⟩ := h.tail_offsets his htail
      refine Or.inr ⟨is₁, p, c, r, rest, his, htail, ?_⟩
      rcases hcases with rfl | rfl
      · exact Or.inr hoff₁
      · exact Or.inl hoff₀
  · rintro (⟨v, hv, hplain, rfl, hsome⟩ | ⟨pre, p, c, r, rest, his, htail, ho⟩)
    · obtain ⟨pre, post, hIL⟩ := List.append_of_mem hv
      refine ⟨v, ?_, rfl, hsome⟩
      rw [ILRewriter.anchors, hIL]
      exact scanned_mem hplain
    · have hIL := hs.list_split his
      have hop : (instrNode (targetOf is body.code.size) (addrBehindAll (pIL + 1) pre) p).m_opcode
          = ceeTailcall := (instrNode_opcode _ _ _).trans htail
      obtain ⟨hoff₀, hoff₁⟩ := h.tail_offsets his htail
      have hmem := scanned_mem_tail s.fresh
        (importedNodes (targetOf is body.code.size) (pIL + 1) pre)
        (p.tableNodes (targetOf is body.code.size) (addrBehindAll (pIL + 1) pre)
          ++ importedNodes (targetOf is body.code.size)
            (addrBehind (addrBehindAll (pIL + 1) pre) p) (c :: r :: rest)) hop
      rw [← hIL] at hmem
      rcases ho with rfl | rfl
      · rw [← hoff₀]
        exact hrewritable.covered_tail hIL hop hmem.2 (Or.inr rfl)
      · rw [← hoff₁]
        exact hrewritable.covered_tail hIL hop hmem.1 (Or.inl rfl)

/-- The handlers that start at an instruction. -/
theorem handlerInsertions_instr (his : is = pre ++ i :: post) :
    insertionsAt (handlerInsertions s.m_pEH) (addrBehindAll (pIL + 1) pre)
      = (handlerProbes body.eh i.offset).map fun p =>
        ⟨addrBehindAll (pIL + 1) pre, nullPtr, p, true⟩ := by
  have hi : i ∈ is := by rw [his]; simp
  have hall : ∀ eh : List EhInfo, (∀ c ∈ eh, c ∈ body.eh) →
      insertionsAt (handlerInsertions (eh.map (clauseOf (targetOf is body.code.size) s.m_pPrev)))
          (addrBehindAll (pIL + 1) pre)
        = (handlerProbes eh i.offset).map fun p =>
          ⟨addrBehindAll (pIL + 1) pre, nullPtr, p, true⟩ := by
    intro eh
    induction eh with
    | nil => exact fun _ => rfl
    | cons c eh ih =>
        intro heh
        have hc := h.handler_isStart (heh c List.mem_cons_self)
        have hiff : targetOf is body.code.size c.handlerOffset = addrBehindAll (pIL + 1) pre
            ↔ c.handlerOffset = i.offset := by
          rw [← h.decoded.targetOf_split his]
          exact h.targetOf_inj (Or.inl hc) (Or.inl ⟨i, hi, rfl⟩)
        have hrest := ih fun d hd => heh d (List.mem_cons_of_mem c hd)
        by_cases hoffset : c.handlerOffset = i.offset
        · have htarget := hiff.mpr hoffset
          rw [handlerProbes, List.countP_cons_of_pos (by simpa using hoffset), List.replicate_succ,
            ← handlerProbes, List.map_cons, List.map_cons, ← hrest]
          rw [← htarget]
          exact insertionsAt_cons_self
        · have htarget : targetOf is body.code.size c.handlerOffset
              ≠ addrBehindAll (pIL + 1) pre := fun heq => hoffset (hiff.mp heq)
          rw [handlerProbes, List.countP_cons_of_neg (by simpa using hoffset), ← handlerProbes,
            ← hrest]
          exact insertionsAt_cons_ne htarget
  rw [hs.clauses_eq]
  exact hall body.eh fun _ hc => hc

theorem handlerInsertions_slot {j : ILInstr} (hj : j ∈ s.m_IL)
    (hslot : j.m_opcode = ceeSwitchArg) :
    insertionsAt (handlerInsertions s.m_pEH) j.addr = [] := by
  refine insertionsAt_eq_nil fun x hx => ?_
  rw [hs.clauses_eq] at hx
  obtain ⟨clause, hclause, rfl⟩ := List.mem_map.mp hx
  obtain ⟨c, hc, rfl⟩ := List.mem_map.mp hclause
  exact h.targetOf_ne_slot hs hj hslot (Or.inl (h.handler_isStart hc))

/-- The insertions at an instruction other than a `tail.`. -/
theorem insertionsAt_instr (leaveMethod : Probe) (his : is = pre ++ i :: post)
    (htail : i.opcode ≠ ceeTailcall) :
    insertionsAt (allPriorities leaveMethod s) (addrBehindAll (pIL + 1) pre)
      = ((ownProbes leaveMethod pre i post).map fun p =>
          ⟨addrBehindAll (pIL + 1) pre, nullPtr, p.1, p.2⟩)
        ++ (handlerProbes body.eh i.offset).map fun p =>
          ⟨addrBehindAll (pIL + 1) pre, nullPtr, p, true⟩ := by
  have hi : i ∈ is := by rw [his]; simp
  have hop := instrNode_opcode (targetOf is body.code.size) (addrBehindAll (pIL + 1) pre) i
  have hplain := (h.rewritable hs).insertionsAt_plain leaveMethod
    (hs.list_split his) (by rw [hop]; exact htail)
  rw [instrNode_addr, h.handlerInsertions_instr hs his, hop, tailFlag_nodes] at hplain
  have hprev := lastOpcode_nodes (targetOf is body.code.size) (pIL + 1)
    fun k (hk : k ∈ pre) => h.decoded.slots_switch (by rw [his]; simp [hk])
  have hnext : ∀ nodes, nodes = i.tableNodes (targetOf is body.code.size)
      (addrBehindAll (pIL + 1) pre) → (nodes ++ importedNodes (targetOf is body.code.size)
        (addrBehind (addrBehindAll (pIL + 1) pre) i) post).head?.map ILInstr.m_opcode
          = post.head?.map RawInstr.opcode ∨ ¬ IsPrefix i.opcode := by
    intro nodes hnodes
    by_cases hswitch : i.opcode = ceeSwitch
    · right
      rw [hswitch]
      decide
    · left
      rw [hnodes, h.decoded.tableNodes_eq_nil hi hswitch, List.nil_append, importedNodes_head]
  rw [hplain, ownProbes, nodeProbes, nodeProbes, hprev]
  rcases hnext _ rfl with hnext | hpre
  · rw [hnext]
  · simp only [hpre, false_and, if_false]

theorem insertionsAt_slot (leaveMethod : Probe) {front back : List ILInstr} {j : ILInstr}
    (hIL : s.m_IL = front ++ j :: back) (hslot : j.m_opcode = ceeSwitchArg) :
    insertionsAt (allPriorities leaveMethod s) j.addr = [] := by
  have hj : j ∈ s.m_IL := by rw [hIL]; simp
  rw [(h.rewritable hs).insertionsAt_plain leaveMethod hIL (by rw [hslot]; decide),
    h.handlerInsertions_slot hs hj hslot, hslot]
  have hcall : ¬ (tailFlag false (front.map ILInstr.m_opcode) = true
      ∧ (IsCallOpcode ceeSwitchArg ∨ ceeSwitchArg = ceeRet)) := fun hboth => by
    revert hboth
    simp [IsCallOpcode, ceeSwitchArg, ceeCall, ceeCalli, ceeCallvirt, ceeNewobj, ceeRet]
  rw [nodeProbes, if_neg (by decide), if_neg (fun hboth => absurd hboth.1 (by decide)),
    if_neg hcall]
  rfl

/-- Where an instruction without insertions is covered: in a tail call. -/
theorem covered_instr (his : is = pre ++ i :: post)
    (hnone : insertionsAt (allPriorities leaveMethod s) (addrBehindAll (pIL + 1) pre) = []) :
    Covered (allPriorities leaveMethod s) s.anchors i.offset ↔ InTailCall pre := by
  have hi : i ∈ is := by rw [his]; simp
  have hIL := hs.list_split his
  rw [h.covered_iff hs]
  constructor
  · rintro (⟨v, hv, -, hoffset, hsome⟩ | ⟨pre', p, c, r, rest, his', hp, ho⟩)
    · have hsame : v = instrNode (targetOf is body.code.size) (addrBehindAll (pIL + 1) pre) i :=
        List.inj_on_of_nodup_map (h.rewritable hs).offsets hv (by rw [hIL]; simp)
          (hoffset.trans (instrNode_offset _ _ _).symm)
      rw [hsame, instrNode_addr] at hsome
      exact absurd hnone hsome
    · rcases ho with ho | ho
      · have his'' : is = (pre' ++ [p]) ++ c :: r :: rest := by rw [his']; simp
        obtain ⟨hpre, -, -⟩ := h.split_unique his his'' ho
        exact ⟨pre', p, hp, Or.inl hpre⟩
      · have his'' : is = (pre' ++ [p, c]) ++ r :: rest := by rw [his']; simp
        obtain ⟨hpre, -, -⟩ := h.split_unique his his'' ho
        exact ⟨pre', p, hp, Or.inr ⟨c, hpre⟩⟩
  · rintro ⟨front, p, hp, rfl | ⟨c, rfl⟩⟩
    · have his' : is = front ++ p :: (i :: post) := by rw [his]; simp
      obtain ⟨c', r, rest, hpost, -, -⟩ := h.tail_split his' hp
      obtain ⟨rfl, rfl⟩ := List.cons.inj hpost
      exact Or.inr ⟨front, p, i, r, rest, his', hp, Or.inl rfl⟩
    · have his' : is = front ++ p :: (c :: i :: post) := by rw [his]; simp
      exact Or.inr ⟨front, p, c, i, post, his', hp, Or.inr rfl⟩

theorem not_covered_slot (leaveMethod : Probe) {front back : List ILInstr} {j : ILInstr}
    (hIL : s.m_IL = front ++ j :: back) (hslot : j.m_opcode = ceeSwitchArg) :
    ¬ Covered (allPriorities leaveMethod s) s.anchors j.m_offset := by
  have hj : j ∈ s.m_IL := by rw [hIL]; simp
  have hinj := List.inj_on_of_nodup_map (h.rewritable hs).offsets
  have hinstr : ∀ k ∈ is, j.m_offset ≠ k.offset := by
    intro k hk heq
    obtain ⟨pre, post, his⟩ := List.append_of_mem hk
    have hkIL : instrNode (targetOf is body.code.size) (addrBehindAll (pIL + 1) pre) k ∈ s.m_IL := by
      rw [hs.list_split his]
      simp
    have hsame := hinj hj hkIL (heq.trans (instrNode_offset _ _ _).symm)
    have hop : k.opcode = ceeSwitchArg := by rw [← hslot, hsame, instrNode_opcode]
    exact (h.decoded.importable hk).ne_switchArg hop
  rw [h.covered_iff hs]
  rintro (⟨v, hv, -, hoffset, hsome⟩ | ⟨pre', p, c, r, rest, his', hp, ho⟩)
  · obtain rfl := hinj hv hj hoffset
    exact hsome (h.insertionsAt_slot hs leaveMethod hIL hslot)
  · rcases ho with ho | ho
    · exact hinstr c (by rw [his']; simp) ho
    · exact hinstr r (by rw [his']; simp) ho

/-- **The probes around an instruction** other than a `tail.`. -/
theorem placement_instr (his : is = pre ++ i :: post) (htail : i.opcode ≠ ceeTailcall) :
    s.placement leaveMethod
        (instrNode (targetOf is body.code.size) (addrBehindAll (pIL + 1) pre) i)
      = instrPlacement leaveMethod body.eh (branchTargets is) pre i post := by
  have hinsertions := h.insertionsAt_instr hs leaveMethod his htail
  have hlength := nodeProbes_length leaveMethod (lastOpcode none (pre.map RawInstr.opcode))
    (tailFlag false (pre.map RawInstr.opcode)) i.opcode (post.head?.map RawInstr.opcode)
  have hplaced := placed_own (addrBehindAll (pIL + 1) pre) hlength
    (body.eh.countP fun c => decide (c.handlerOffset = i.offset))
  change placed ((ownProbes leaveMethod pre i post).map _ ++ (handlerProbes body.eh i.offset).map _)
    = ⟨handlerProbes body.eh i.offset ++ ((ownProbes leaveMethod pre i post).filter _).map _,
      ((ownProbes leaveMethod pre i post).find? _).map _⟩ at hplaced
  rw [ILRewriter.placement, finalPlacement, instrNode_addr, instrNode_offset, instrPlacement]
  by_cases hnone : ownProbes leaveMethod pre i post = [] ∧ handlerProbes body.eh i.offset = []
  · have hempty : insertionsAt (allPriorities leaveMethod s) (addrBehindAll (pIL + 1) pre) = [] := by
      rw [hinsertions, hnone.1, hnone.2]
      rfl
    have hslots : i.slots = [] := by
      by_contra hslots
      have hswitch := h.decoded.slots_switch (by rw [his]; simp) hslots
      rw [ownProbes_switch hswitch] at hnone
      exact List.cons_ne_nil _ _ hnone.1
    have hIL := hs.list_split his
    rw [RawInstr.tableNodes, RawInstr.slotTargets, hslots, List.map_nil] at hIL
    have hpreds := h.mem_predecessors_iff hs his hIL
    rw [instrNode_addr] at hpreds
    have hcovered := h.covered_instr hs his hempty
    rw [← h.tailFlag_iff his] at hcovered
    rw [if_pos hempty, if_pos hnone, hnone.1, hnone.2]
    simp only [hpreds, hcovered, hslots, true_and, Bool.not_eq_true]
    rfl
  · have hsome : insertionsAt (allPriorities leaveMethod s) (addrBehindAll (pIL + 1) pre) ≠ [] := by
      rw [hinsertions]
      intro hnil
      obtain ⟨hown, hhandlers⟩ := List.append_eq_nil_iff.mp hnil
      exact hnone ⟨List.map_eq_nil_iff.mp hown, List.map_eq_nil_iff.mp hhandlers⟩
    rw [if_neg hsome, if_neg hnone, hinsertions]
    exact hplaced

/-- A slot of a switch gets a probe behind it if it is the last one and a branch leads behind the
switch. -/
theorem placement_slot (his : is = pre ++ i :: post) {front back : List ILInstr} {j : ILInstr}
    (htable : i.tableNodes (targetOf is body.code.size) (addrBehindAll (pIL + 1) pre)
      = front ++ j :: back) :
    s.placement leaveMethod j
      = ⟨[], if back = [] ∧ i.next ∈ branchTargets is then some .coverage else none⟩ := by
  have hslot : ∀ k ∈ front ++ j :: back, k.m_opcode = ceeSwitchArg := fun k hk =>
    tableNodes_opcode (htable ▸ hk)
  have hIL : s.m_IL = (importedNodes (targetOf is body.code.size) (pIL + 1) pre
      ++ instrNode (targetOf is body.code.size) (addrBehindAll (pIL + 1) pre) i :: front)
      ++ j :: (back ++ importedNodes (targetOf is body.code.size)
        (addrBehind (addrBehindAll (pIL + 1) pre) i) post) := by
    rw [hs.list_split his, htable]
    simp
  have hj : j.m_opcode = ceeSwitchArg := hslot j (by simp)
  have hempty := h.insertionsAt_slot hs leaveMethod hIL hj
  have hcovered := h.not_covered_slot hs leaveMethod hIL hj
  rw [ILRewriter.placement, finalPlacement, if_pos hempty]
  cases back with
  | nil =>
      have hpreds := h.mem_predecessors_iff hs his hIL
      simp only [hpreds, hcovered, not_false_eq_true, and_true, true_and]
  | cons k back =>
      have hpreds := h.not_mem_predecessors hs hIL (hslot k (by simp))
      simp only [hpreds, false_and, if_false, List.cons_ne_nil]

/-- **The probes of a tail call**: those of its `ret` and of handlers at the old node, that of its
call at the new one. -/
theorem placement_tail (leaveMethod : Probe) (his : is = pre ++ i :: post) (htail : i.opcode = ceeTailcall)
    (nodes : List ILInstr) :
    s.placement leaveMethod (oldTail
        (instrNode (targetOf is body.code.size) (addrBehindAll (pIL + 1) pre) i) nodes)
      = ⟨handlerProbes body.eh i.offset ++ [.coverage], none⟩
    ∧ s.placement leaveMethod (newTail (freshBehind s.fresh
        (importedNodes (targetOf is body.code.size) (pIL + 1) pre)) nodes)
      = ⟨[.tailcall], none⟩ := by
  have hIL := hs.list_split his
  have hop : (instrNode (targetOf is body.code.size) (addrBehindAll (pIL + 1) pre) i).m_opcode
      = ceeTailcall := (instrNode_opcode _ _ _).trans htail
  have hold := (h.rewritable hs).insertionsAt_old leaveMethod hIL hop
  have hnew := (h.rewritable hs).insertionsAt_new leaveMethod hIL hop
  rw [instrNode_addr, h.handlerInsertions_instr hs his] at hold
  constructor
  · have hplaced := placed_own (addrBehindAll (pIL + 1) pre)
      (show [(Probe.coverage, true)].length ≤ 1 from le_refl 1)
      (body.eh.countP fun c => decide (c.handlerOffset = i.offset))
    have haddr : (oldTail (instrNode (targetOf is body.code.size) (addrBehindAll (pIL + 1) pre) i)
        nodes).addr = addrBehindAll (pIL + 1) pre := instrNode_addr _ _ _
    rw [ILRewriter.placement, finalPlacement, haddr, hold, if_neg (List.cons_ne_nil _ _)]
    exact hplaced
  · rw [ILRewriter.placement, finalPlacement]
    show (if insertionsAt (allPriorities leaveMethod s) (freshBehind s.fresh _) = [] then _
      else placed (insertionsAt (allPriorities leaveMethod s) (freshBehind s.fresh _))) = _
    rw [hnew, if_neg (List.cons_ne_nil _ _)]
    rfl

end ValidBody

end Placements

end TestExecutor
