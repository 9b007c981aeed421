import TestExecutor.Rewriter.StackDepth

/-!
# Runs of the rewritten list

Control in the original code and in the rewritten list, exceptions included, and which instructions
and which calls of probes it passes.

* `Passage`, `CodeStep`, `CodeRun` — runs of the original code;
* `MarkedInstr`, `RewrittenBody.marked` — the nodes of the list, marked as instructions and calls;
* `ListStep`, `ListRun` — runs of the list; `passed`, `visitedInstrs` — what they have passed;
* `RewrittenBody.markedAt_boundary` — boundaries lead to groups;
* `RewrittenBody.standsIn_iff` — ranges hold the instructions that they held.
-/

namespace TestExecutor

open TestExecutor.Library ILRewriter

/-! ### The original code -/

/-- How control leaves an instruction: to the one behind it, to another place, or by an exception. -/
inductive Passage where
  | fell | jumped | raised
  deriving DecidableEq, Repr

/-- Control does not come back: a tail call is over where it starts. -/
def LeavesMethod (opcode : ℕ) : Prop := opcode = ceeRet ∨ opcode = ceeTailcall ∨ opcode = ceeJmp

instance (opcode : ℕ) : Decidable (LeavesMethod opcode) := by unfold LeavesMethod; infer_instance

def IsLeave (opcode : ℕ) : Prop := opcode = ceeLeave ∨ opcode = ceeLeaveS

instance (opcode : ℕ) : Decidable (IsLeave opcode) := by unfold IsLeave; infer_instance

/-- Behind this instruction an exception that has been raised before can go on to another clause: a
handler that ran for it, or a filter, ends, or the filter drops an exception of its own. -/
def PassesException (eh : List EhInfo) (i : RawInstr) : Prop :=
  i.opcode = ceeEndfinally ∨ i.opcode = ceeEndfilter ∨ ∃ c ∈ eh, c.Covers .filter i.offset

instance (eh : List EhInfo) (i : RawInstr) : Decidable (PassesException eh i) :=
  inferInstanceAs (Decidable (_ ∨ _ ∨ _))

/-- Where control can go from the instruction at a position, behind a run.  Every instruction can
raise an exception, which goes to a clause around it, and later to others around it; the end of a
`finally` handler leads also where a `leave` of the run wanted to go. -/
inductive CodeStep (body : MethodBody) (is : List RawInstr) (vs : List (ℕ × Passage)) (k : ℕ) :
    Passage → ℕ → Prop
  | fall {i : RawInstr} (hi : is[k]? = some i) (hstays : ¬LeavesMethod i.opcode)
      (hfalls : i.FallsThrough) : CodeStep body is vs k .fell (k + 1)
  | jump {i : RawInstr} {k' : ℕ} (hi : is[k]? = some i) (hk' : k' ≤ is.length)
      (htarget : boundaryAt is body.code.size k' ∈ i.targets) : CodeStep body is vs k .jumped k'
  | raise {i : RawInstr} {c : EhInfo} {k' : ℕ} (hi : is[k]? = some i)
      (hstays : ¬LeavesMethod i.opcode) (hc : c ∈ body.eh) (hcovers : c.Covers .tryBlock i.offset)
      (hk' : k' ≤ is.length) (hentry : boundaryAt is body.code.size k' = c.firstEntry) :
      CodeStep body is vs k .raised k'
  | pass {i l : RawInstr} {j k' : ℕ} {c : EhInfo} (hi : is[k]? = some i)
      (hstays : ¬LeavesMethod i.opcode) (hpasses : PassesException body.eh i)
      (hraised : (j, .raised) ∈ vs) (hl : is[j]? = some l) (hc : c ∈ body.eh)
      (hcovers : c.Covers .tryBlock l.offset) (hk' : k' ≤ is.length)
      (hentry : boundaryAt is body.code.size k' ∈ c.entries) : CodeStep body is vs k .jumped k'
  | resume {i l : RawInstr} {j k' : ℕ} {e : Passage} (hi : is[k]? = some i)
      (hend : i.opcode = ceeEndfinally) (hleft : (j, e) ∈ vs) (hl : is[j]? = some l)
      (hleave : IsLeave l.opcode) (hk' : k' ≤ is.length)
      (htarget : boundaryAt is body.code.size k' = l.argWord) : CodeStep body is vs k .jumped k'

/-- Control has passed some instructions, and stands in front of the one at a position. -/
inductive CodeRun (body : MethodBody) (is : List RawInstr) : List (ℕ × Passage) → ℕ → Prop
  | entry : CodeRun body is [] 0
  | step {vs : List (ℕ × Passage)} {k k' : ℕ} {e : Passage} (h : CodeRun body is vs k)
      (hstep : CodeStep body is vs k e k') : CodeRun body is (vs ++ [(k, e)]) k'

section Code

variable {body : MethodBody} {is : List RawInstr} {vs : List (ℕ × Passage)} {k k' : ℕ} {e : Passage}

theorem IsLeave.targets_eq {l : RawInstr} (h : IsLeave l.opcode) : l.targets = [l.argWord] := by
  have hctrl : opCtrl l.opcode = .ctrlBranch := by
    rcases h with h | h <;> rw [h] <;> rfl
  rw [RawInstr.targets, hctrl]

/-- Control is, and was, only where it can go. -/
theorem CodeRun.reachable (h : ValidBody body is) (hrun : CodeRun body is vs k) :
    Reachable body.eh is (boundaryAt is body.code.size k)
      ∧ ∀ v ∈ vs, Reachable body.eh is (boundaryAt is body.code.size v.1) := by
  induction hrun with
  | entry =>
      refine ⟨Reachable.entry ?_, fun v hv => absurd hv List.not_mem_nil⟩
      obtain ⟨i, is', rfl⟩ := List.exists_cons_of_ne_nil h.nonempty
      rw [boundaryAt_of_getElem? rfl, h.decoded.consecutive.1]
      exact List.mem_cons_self
  | @step vs k k' e hrun hstep ih =>
      obtain ⟨ihk, ihvs⟩ := ih
      refine ⟨?_, fun v hv => ?_⟩
      · cases hstep with
        | @fall i hi hstays hfalls =>
            rw [h.decoded.consecutive.boundaryAt_succ hi]
            rw [boundaryAt_of_getElem? hi] at ihk
            refine ihk.step ⟨i, List.mem_of_getElem? hi, rfl, ?_⟩
            rw [RawInstr.successors, if_pos hfalls]
            exact List.mem_append_left _ (List.mem_singleton_self _)
        | @jump i _ hi hk' htarget =>
            rw [boundaryAt_of_getElem? hi] at ihk
            exact ihk.step ⟨i, List.mem_of_getElem? hi, rfl, List.mem_append_right _ htarget⟩
        | @raise i c _ hi hstays hc hcovers hk' hentry =>
            refine Reachable.entry (List.mem_cons_of_mem _ (List.mem_flatMap.mpr ⟨c, hc, ?_⟩))
            rw [hentry]
            exact c.firstEntry_mem
        | @pass i l j _ c hi hstays hpasses hraised hl hc hcovers hk' hentry =>
            exact Reachable.entry (List.mem_cons_of_mem _ (List.mem_flatMap.mpr ⟨c, hc, hentry⟩))
        | @resume i l j _ e' hi hend hleft hl hleave hk' htarget =>
            have hj := ihvs (j, e') hleft
            rw [boundaryAt_of_getElem? hl] at hj
            refine hj.step ⟨l, List.mem_of_getElem? hl, rfl, List.mem_append_right _ ?_⟩
            rw [hleave.targets_eq, htarget]
            exact List.mem_singleton_self _
      · rcases List.mem_append.mp hv with hv | hv
        · exact ihvs v hv
        · obtain rfl := List.mem_singleton.mp hv
          exact ihk

/-- Control never runs off the end. -/
theorem CodeRun.lt (h : ValidBody body is) (hrun : CodeRun body is vs k) : k < is.length := by
  have hreach := (hrun.reachable h).1
  by_contra hge
  have hend : boundaryAt is body.code.size k = body.code.size := by
    rw [boundaryAt, List.getElem?_eq_none (Nat.le_of_not_lt hge)]
    rfl
  exact h.inside (hend ▸ hreach)

end Code

/-! ### The marked list -/

/-- An instruction of the original code, by its position, or the call of a probe with an offset. -/
inductive Mark where
  | instr (k : ℕ)
  | call (p : Probe) (o : ℕ)
  deriving DecidableEq

/-- A node of the rewritten list.  Constants, `nop`s and slots have no mark. -/
structure MarkedInstr where
  node : ILInstr
  mark : Option Mark

namespace MarkedInstr

def addr (c : MarkedInstr) : ℕ := c.node.addr

def isSlot (c : MarkedInstr) : Bool := c.node.isSlot

end MarkedInstr

/-- Each `calli` among inserted nodes is the end of the call of a probe. -/
def markCalls : List (Probe × ℕ) → List ILInstr → List MarkedInstr
  | _, [] => []
  | probes, n :: ns =>
      if n.m_opcode = ceeCalli then
        ⟨n, probes.head?.map fun p => .call p.1 p.2⟩ :: markCalls probes.tail ns
      else ⟨n, none⟩ :: markCalls probes ns

/-- The annotation of the instruction at a position. -/
def annotationAt (leaveMethod : Probe) (body : MethodBody) (is : List RawInstr) (k : ℕ) :
    Annotations :=
  match is[k]? with
  | none => ⟨[], none⟩
  | some i => annotate leaveMethod body.eh (branchTargets is) (is.take k) i (is.drop (k + 1))

def Group.marked (g : Group) (ann : Annotations) (k : ℕ) : List MarkedInstr :=
  markCalls ann.before g.lead ++ ⟨g.instr, some (.instr k)⟩
    :: (g.slots.map (fun n => ⟨n, none⟩) ++ markCalls ann.after.toList g.trail)

/-- The groups from a position on. -/
def markedFrom (leaveMethod : Probe) (body : MethodBody) (is : List RawInstr) (gs : List Group)
    (k : ℕ) : List MarkedInstr :=
  ((gs.drop k).zipIdx k).flatMap fun g => g.1.marked (annotationAt leaveMethod body is g.2) g.2

/-- The whole list; `enterOffset` is the offset that the probe at the entry gets. -/
def markedList (isMain : Bool) (body : MethodBody) (is : List RawInstr) (enterOffset : ℕ)
    (enter : List ILInstr) (gs : List Group) : List MarkedInstr :=
  markCalls [(enterMethod isMain, enterOffset)] enter ++ markedFrom (leaveMethod isMain) body is gs 0

/-! ### Runs of the list -/

/-- Where a node jumps. -/
def jumpTargets (n : ILInstr) (rest : List ILInstr) : List ℕ :=
  if n.m_opcode = ceeSwitch then (leadingSlots rest).map ILInstr.m_pTarget
  else if HasTarget n.m_opcode then [n.m_pTarget] else []

/-- Where a clause is entered. -/
def EHClause.entryAddrs (c : EHClause) : List ℕ :=
  c.m_pHandlerBegin :: if isFilterFlags c.m_Flags then [c.m_ClassTokenOrFilter] else []

/-- Where an exception enters a clause. -/
def EHClause.firstEntry (c : EHClause) : ℕ :=
  if isFilterFlags c.m_Flags then c.m_ClassTokenOrFilter else c.m_pHandlerBegin

/-- The rest of a marked list from an address on. -/
def MarkedAt (code : List MarkedInstr) (p : ℕ) (rest : List MarkedInstr) : Prop :=
  (∃ front, code = front ++ rest) ∧ headAddr MarkedInstr.addr pIL rest = p

/-- A node stands behind the start of a range, and in front of its end. -/
def StandsIn (code : List MarkedInstr) (p q : ℕ) (c : MarkedInstr) : Prop :=
  ∃ first last rest, MarkedAt code p first ∧ MarkedAt code q last ∧ c :: rest <:+ first
    ∧ last <:+ rest

/-- The node stands in the try range of a clause. -/
def EHClause.Covers (clause : EHClause) (code : List MarkedInstr) (c : MarkedInstr) : Prop :=
  StandsIn code clause.m_pTryBegin clause.m_pTryEnd c

/-- An exception that has been raised before can go on behind the node. -/
def NodePassesException (code : List MarkedInstr) (eh : List EHClause) (c : MarkedInstr) : Prop :=
  c.node.m_opcode = ceeEndfinally ∨ c.node.m_opcode = ceeEndfilter
    ∨ ∃ clause ∈ eh, isFilterFlags clause.m_Flags = true
      ∧ StandsIn code clause.m_ClassTokenOrFilter clause.m_pHandlerBegin c

/-- Where control can go from a node, behind a run.  Inserted nodes raise no exceptions. -/
inductive ListStep (code : List MarkedInstr) (eh : List EHClause)
    (vs : List (MarkedInstr × Passage)) (c : MarkedInstr) (rest : List MarkedInstr) :
    Passage → List MarkedInstr → Prop
  | fall (hstays : ¬LeavesMethod c.node.m_opcode) (hpasses : PassesOn c.node.m_opcode) :
      ListStep code eh vs c rest .fell (rest.dropWhile MarkedInstr.isSlot)
  | jump {p : ℕ} {rest' : List MarkedInstr}
      (hp : p ∈ jumpTargets c.node (rest.map MarkedInstr.node)) (hrest : MarkedAt code p rest') :
      ListStep code eh vs c rest .jumped rest'
  | raise {k : ℕ} {clause : EHClause} {rest' : List MarkedInstr} (hinstr : c.mark = some (.instr k))
      (hstays : ¬LeavesMethod c.node.m_opcode) (hc : clause ∈ eh) (hcovers : clause.Covers code c)
      (hrest : MarkedAt code clause.firstEntry rest') : ListStep code eh vs c rest .raised rest'
  | pass {k j p : ℕ} {l : MarkedInstr} {clause : EHClause} {rest' : List MarkedInstr}
      (hinstr : c.mark = some (.instr k)) (hstays : ¬LeavesMethod c.node.m_opcode)
      (hpasses : NodePassesException code eh c) (hraised : (l, .raised) ∈ vs)
      (hl : l.mark = some (.instr j)) (hc : clause ∈ eh) (hcovers : clause.Covers code l)
      (hp : p ∈ clause.entryAddrs) (hrest : MarkedAt code p rest') :
      ListStep code eh vs c rest .jumped rest'
  | resume {l : MarkedInstr} {e : Passage} {rest' : List MarkedInstr}
      (hend : c.node.m_opcode = ceeEndfinally) (hleft : (l, e) ∈ vs)
      (hleave : IsLeave l.node.m_opcode) (hrest : MarkedAt code l.node.m_pTarget rest') :
      ListStep code eh vs c rest .jumped rest'

/-- Control has passed some nodes, and stands in front of the rest of the list. -/
inductive ListRun (code : List MarkedInstr) (eh : List EHClause) :
    List (MarkedInstr × Passage) → List MarkedInstr → Prop
  | entry : ListRun code eh [] code
  | step {vs : List (MarkedInstr × Passage)} {c : MarkedInstr} {rest rest' : List MarkedInstr}
      {e : Passage} (h : ListRun code eh vs (c :: rest)) (hstep : ListStep code eh vs c rest e rest') :
      ListRun code eh (vs ++ [(c, e)]) rest'

/-- The instructions and the calls of probes that a run has passed, in their order. -/
def passed (vs : List (MarkedInstr × Passage)) : List Mark := vs.filterMap fun v => v.1.mark

/-- The instructions alone, with how they were passed. -/
def visitedInstrs (vs : List (MarkedInstr × Passage)) : List (ℕ × Passage) :=
  vs.filterMap fun v => match v.1.mark with
    | some (.instr k) => some (k, v.2)
    | _ => none

/-- What control passes with an instruction: the probes in front of it, the instruction, and the
probe behind it if control falls on to it. -/
def Annotations.marks (ann : Annotations) (k : ℕ) (e : Passage) : List Mark :=
  (ann.before.map fun p => .call p.1 p.2)
    ++ .instr k :: if e = .fell then (ann.after.map fun p => .call p.1 p.2).toList else []

/-! ### What the marks are -/

section Marks

variable {covProb : Probe → ProbeCall} {methodId : Int32} {probes : List (Probe × ℕ)}
  {nodes : List ILInstr}

theorem markCalls_node (probes : List (Probe × ℕ)) (nodes : List ILInstr) :
    (markCalls probes nodes).map MarkedInstr.node = nodes := by
  induction nodes generalizing probes with
  | nil => rfl
  | cons n ns ih =>
      rw [markCalls]
      split
      · rw [List.map_cons, ih]
      · rw [List.map_cons, ih]

theorem markCalls_ne_instr {c : MarkedInstr} (hc : c ∈ markCalls probes nodes) (k : ℕ) :
    c.mark ≠ some (.instr k) := by
  induction nodes generalizing probes with
  | nil => exact absurd hc List.not_mem_nil
  | cons n ns ih =>
      rw [markCalls] at hc
      split at hc
      · rcases List.mem_cons.mp hc with rfl | hc
        · cases probes with
          | nil => simp
          | cons p probes => simp
        · exact ih hc
      · rcases List.mem_cons.mp hc with rfl | hc
        · simp
        · exact ih hc

/-- Constants and `nop`s have no mark. -/
theorem markCalls_append {front : List ILInstr} (hfront : ∀ n ∈ front, n.m_opcode ≠ ceeCalli)
    (probes : List (Probe × ℕ)) (back : List ILInstr) : markCalls probes (front ++ back)
      = front.map (fun n => ⟨n, none⟩) ++ markCalls probes back := by
  induction front with
  | nil => rfl
  | cons n front ih =>
      rw [List.cons_append, markCalls, if_neg (hfront n List.mem_cons_self),
        ih fun m hm => hfront m (List.mem_cons_of_mem n hm)]
      rfl

theorem filterMap_unmarked (nodes : List ILInstr) :
    (nodes.map fun n => (⟨n, none⟩ : MarkedInstr)).filterMap MarkedInstr.mark = [] := by
  induction nodes with
  | nil => rfl
  | cons n nodes ih => exact ih

/-- A call with its constants has one mark. -/
theorem markCalls_call {cs : List (ℕ × ℕ)} (hcs : ∀ c ∈ cs, c.1 ≠ ceeCalli) {sig : ℕ}
    {calls : List ILInstr} (hcalls : calls.map ILInstr.content = cs ++ [(ceeCalli, sig)])
    (p : Probe × ℕ) (probes : List (Probe × ℕ)) (back : List ILInstr) :
    (markCalls (p :: probes) (calls ++ back)).filterMap MarkedInstr.mark
      = .call p.1 p.2 :: (markCalls probes back).filterMap MarkedInstr.mark := by
  obtain ⟨constants, rest, rfl, hconstants, hrest⟩ := List.map_eq_append_iff.mp hcalls
  obtain ⟨n, rfl, hn⟩ := List.map_eq_singleton_iff.mp hrest
  have hplain : ∀ m ∈ constants, m.m_opcode ≠ ceeCalli := fun m hm =>
    hcs m.content (hconstants ▸ List.mem_map_of_mem hm)
  have hcall : n.m_opcode = ceeCalli := congrArg Prod.fst hn
  rw [List.append_assoc, markCalls_append hplain, List.singleton_append, markCalls, if_pos hcall,
    List.filterMap_append, filterMap_unmarked]
  rfl

/-- **The marks of padding** are its probes. -/
theorem PaddedWith.marks (h : PaddedWith covProb methodId probes nodes) :
    (markCalls probes nodes).filterMap MarkedInstr.mark = probes.map fun p => .call p.1 p.2 := by
  obtain ⟨items, hitems, hprobes, -, hnodes⟩ := h
  induction items generalizing nodes probes with
  | nil =>
      obtain rfl := List.map_eq_nil_iff.mp hnodes
      rw [← hprobes]
      rfl
  | cons item items ih =>
      rw [List.flatMap_cons] at hnodes
      obtain ⟨front, back, rfl, hfront, hback⟩ := List.map_eq_append_iff.mp hnodes
      have hrest := fun item' hitem' => hitems item' (List.mem_cons_of_mem item hitem')
      cases item with
      | instr opcode arg =>
          obtain rfl : opcode = ceeNop := hitems _ List.mem_cons_self
          obtain ⟨n, rfl, hn⟩ := List.map_eq_singleton_iff.mp hfront
          have hnop : n.m_opcode = ceeNop := congrArg Prod.fst hn
          have hplain : n.m_opcode ≠ ceeCalli := by rw [hnop]; decide
          rw [List.singleton_append, markCalls, if_neg hplain]
          exact ih hrest hprobes hback
      | probe p o =>
          rw [← hprobes]
          have hcall := @markCalls_call [(ceeLdcI4, o % 2 ^ 32),
            (ceeLdcI4, methodId.toBitVec.toNat % 2 ^ 32), (ceeLdcI8, (covProb p).addr)]
            (by simp [ceeLdcI4, ceeLdcI8, ceeCalli]) _ _ hfront (p, o) (items.filterMap Item.probe?) back
          refine hcall.trans ?_
          rw [ih hrest rfl hback]
          rfl

theorem enterContents_marks {p : Probe} {o : ℕ} {enter : List ILInstr}
    (h : enter.map ILInstr.content = enterContents covProb methodId p o) :
    (markCalls [(p, o)] enter).filterMap MarkedInstr.mark = [.call p o] := by
  have hcall := @markCalls_call [(ceeLdcI4, o % 2 ^ 32),
    (ceeLdcI4, methodId.toBitVec.toNat % 2 ^ 32), (ceeLdcI40, 0), (ceeLdcI8, (covProb p).addr)]
    (by simp [ceeLdcI4, ceeLdcI40, ceeLdcI8, ceeCalli]) _ _ h (p, o) [] []
  rwa [List.append_nil] at hcall

end Marks

/-! ### The marked list of a rewritten body -/

theorem Group.marked_node (g : Group) (ann : Annotations) (k : ℕ) :
    (g.marked ann k).map MarkedInstr.node = g.nodes := by
  rw [Group.marked, List.map_append, List.map_cons, List.map_append, markCalls_node, markCalls_node,
    List.map_map, Group.nodes]
  exact congrArg _ (congrArg _ (congrArg (· ++ g.trail) (List.map_id _)))

section Marked

variable {leaveMethod : Probe} {body : MethodBody} {is : List RawInstr} {gs : List Group} {g : Group}
  {k : ℕ}

theorem markedFrom_node (k : ℕ) :
    (markedFrom leaveMethod body is gs k).map MarkedInstr.node = groupsFrom gs k := by
  have hfst : ((gs.drop k).zipIdx k).map Prod.fst = gs.drop k := List.zipIdx_map_fst k (gs.drop k)
  rw [markedFrom, List.map_flatMap, groupsFrom, ← hfst, List.flatMap_map, hfst]
  simp only [Group.marked_node]

theorem markedFrom_eq (hg : gs[k]? = some g) : markedFrom leaveMethod body is gs k
    = g.marked (annotationAt leaveMethod body is k) k
      ++ markedFrom leaveMethod body is gs (k + 1) := by
  rw [markedFrom, drop_of_getElem? hg, List.zipIdx_cons, List.flatMap_cons]
  rfl

theorem markedFrom_suffix {k k' : ℕ} (hle : k ≤ k') :
    markedFrom leaveMethod body is gs k' <:+ markedFrom leaveMethod body is gs k := by
  induction hle with
  | refl => exact List.suffix_refl _
  | @step k' _ ih =>
      refine List.IsSuffix.trans ?_ ih
      cases hg : gs[k']? with
      | some g =>
          rw [markedFrom_eq hg]
          exact List.suffix_append _ _
      | none =>
          have hlength := List.getElem?_eq_none_iff.mp hg
          have hnone : markedFrom leaveMethod body is gs (k' + 1) = [] := by
            rw [markedFrom, List.drop_eq_nil_of_le (Nat.le_succ_of_le hlength)]
            rfl
          rw [hnone]
          exact List.nil_suffix

/-- The instructions from a position on. -/
theorem le_of_mem_markedFrom {c : MarkedInstr} {j : ℕ} (hc : c ∈ markedFrom leaveMethod body is gs k)
    (hmark : c.mark = some (.instr j)) : k ≤ j := by
  obtain ⟨⟨g, k'⟩, hgk, hc⟩ := List.mem_flatMap.mp hc
  have hle : k ≤ k' := List.le_snd_of_mem_zipIdx hgk
  rcases List.mem_append.mp hc with hc | hc
  · exact absurd hmark (markCalls_ne_instr hc j)
  · rcases List.mem_cons.mp hc with rfl | hc
    · obtain rfl : k' = j := by simpa using hmark
      exact hle
    · rcases List.mem_append.mp hc with hc | hc
      · obtain ⟨n, -, rfl⟩ := List.mem_map.mp hc
        cases hmark
      · exact absurd hmark (markCalls_ne_instr hc j)

/-- The instruction of a group stands behind its position, and in front of the next one. -/
theorem exists_rest_instr (hg : gs[k]? = some g) :
    ∃ rest, ⟨g.instr, some (.instr k)⟩ :: rest <:+ markedFrom leaveMethod body is gs k
      ∧ markedFrom leaveMethod body is gs (k + 1) <:+ rest := by
  rw [markedFrom_eq hg, Group.marked, List.append_assoc, List.cons_append]
  exact ⟨_, List.suffix_append _ _, List.suffix_append _ _⟩

end Marked

/-- The rest of a list behind an address is determined. -/
theorem MarkedAt.unique {code rest rest' : List MarkedInstr} {p : ℕ} {s : ILRewriter}
    (hlinked : s.Linked) (hcode : code.map MarkedInstr.node = s.m_IL) (h : MarkedAt code p rest)
    (h' : MarkedAt code p rest') : rest = rest' := by
  have nodesAt : ∀ {rest : List MarkedInstr}, MarkedAt code p rest →
      RestAt s p (rest.map MarkedInstr.node) := by
    rintro rest ⟨⟨front, hfront⟩, hhead⟩
    refine ⟨⟨front.map MarkedInstr.node, ?_⟩, ?_⟩
    · rw [← hcode, hfront, List.map_append]
    · rw [← hhead]
      cases rest <;> rfl
  have hlength := congrArg List.length (hlinked.restAt_unique (nodesAt h) (nodesAt h'))
  rw [List.length_map, List.length_map] at hlength
  obtain ⟨⟨front, hfront⟩, -⟩ := h
  obtain ⟨⟨front', hfront'⟩, -⟩ := h'
  exact (List.append_inj' (hfront.symm.trans hfront') hlength).2

namespace RewrittenBody

variable {covProb : Probe → ProbeCall} {methodId : Int32} {isMain : Bool} {body : MethodBody}
  {is : List RawInstr} {s' : ILRewriter} {enter : List ILInstr} {gs : List Group} {g : Group}
  {i : RawInstr} {k o : ℕ}
  (hr : RewrittenBody covProb methodId isMain body is s' enter gs)

include hr

theorem marked_node (o : ℕ) :
    (markedList isMain body is o enter gs).map MarkedInstr.node = s'.m_IL := by
  rw [markedList, List.map_append, markCalls_node, markedFrom_node, hr.list_eq]
  rfl

/-- The group at a position has the annotation at it. -/
theorem groupAt (hi : is[k]? = some i) (hg : gs[k]? = some g) :
    GroupOf covProb methodId (targetOf is body.code.size)
      (annotationAt (leaveMethod isMain) body is k) i g := by
  rw [annotationAt, hi]
  exact (hr.groupOf_getElem? hi hg).2

/-- A boundary is resolved to the group behind it. -/
theorem markedAt_boundary (o : ℕ) (hk : k ≤ is.length) :
    MarkedAt (markedList isMain body is o enter gs)
      (targetOf is body.code.size (boundaryAt is body.code.size k))
      (markedFrom (leaveMethod isMain) body is gs k) := by
  refine ⟨?_, ?_⟩
  · obtain ⟨front, hfront⟩ := @markedFrom_suffix (leaveMethod isMain) body is gs 0 k (Nat.zero_le k)
    exact ⟨_, by rw [markedList, ← hfront, ← List.append_assoc]⟩
  · rw [hr.targetOf_boundary hk]
    change headAddr MarkedInstr.addr pIL _ = headAddr ILInstr.addr pIL (groupsFrom gs k)
    rw [← @markedFrom_node (leaveMethod isMain) body is]
    cases markedFrom (leaveMethod isMain) body is gs k <;> rfl

/-- **The range between two boundaries** holds the same instructions in the list. -/
theorem standsIn_iff (o : ℕ) (hi : is[k]? = some i) (hg : gs[k]? = some g)
    (hcons : Consecutive 0 is body.code.size) {p q : ℕ} (hp : IsStart is p ∨ p = body.code.size)
    (hq : IsStart is q ∨ q = body.code.size) :
    StandsIn (markedList isMain body is o enter gs) (targetOf is body.code.size p)
        (targetOf is body.code.size q) ⟨g.instr, some (.instr k)⟩
      ↔ InRange (p, q) i.offset := by
  obtain ⟨kp, hkp, rfl⟩ := exists_boundaryAt hp
  obtain ⟨kq, hkq, rfl⟩ := exists_boundaryAt hq
  obtain ⟨hlt, -⟩ := List.getElem?_eq_some_iff.mp hi
  have hmono := hcons.boundaryAt_strictMono
  rw [InRange, ← boundaryAt_of_getElem? hi body.code.size, hmono.le_iff_le hkp (le_of_lt hlt),
    hmono.lt_iff_lt (le_of_lt hlt) hkq]
  constructor
  · rintro ⟨first, last, rest, hfirst, hlast, hrest, hback⟩
    obtain rfl := hfirst.unique hr.linked (hr.marked_node o) (hr.markedAt_boundary o hkp)
    obtain rfl := hlast.unique hr.linked (hr.marked_node o) (hr.markedAt_boundary o hkq)
    refine ⟨le_of_mem_markedFrom (hrest.subset List.mem_cons_self) rfl, ?_⟩
    by_contra hge
    -- the node would stand in the list twice
    obtain ⟨rest', hrest', -⟩ := @exists_rest_instr (leaveMethod isMain) body is _ _ _ hg
    have hmem : (⟨g.instr, some (.instr k)⟩ : MarkedInstr) ∈ rest := hback.subset
      ((markedFrom_suffix (Nat.le_of_not_lt hge)).subset (hrest'.subset List.mem_cons_self))
    obtain ⟨⟨front, hfront⟩, -⟩ := hfirst
    have hsuffix : ⟨g.instr, some (.instr k)⟩ :: rest <:+ markedList isMain body is o enter gs :=
      hrest.trans (hfront ▸ List.suffix_append _ _)
    have hnodup : ((markedList isMain body is o enter gs).map MarkedInstr.addr).Nodup := by
      have hnodes := hr.linked.nodup
      rw [← hr.marked_node o, List.map_map] at hnodes
      exact hnodes
    have hcell := (hsuffix.map MarkedInstr.addr).sublist.nodup hnodup
    exact (List.nodup_cons.mp hcell).1 (List.mem_map_of_mem hmem)
  · rintro ⟨hle, hlt'⟩
    obtain ⟨rest, hrest, hnext⟩ := @exists_rest_instr (leaveMethod isMain) body is _ _ _ hg
    exact ⟨_, _, rest, hr.markedAt_boundary o hkp, hr.markedAt_boundary o hkq,
      hrest.trans (markedFrom_suffix hle), (markedFrom_suffix hlt').trans hnext⟩

end RewrittenBody

end TestExecutor
