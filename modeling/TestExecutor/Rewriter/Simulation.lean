import TestExecutor.Rewriter.ListRuns

/-!
# The rewritten list simulates the original code

Every run of the rewritten list is one of the original code, and every run of the original code is
one of the list; the probes that are called are those around the instructions that are passed.

* `runMarks` — what a run of the list passes, by the run of the code;
* `Stop`, `RewrittenBody.stop` — where a run of the list can stand;
* `RewrittenBody.codeRun_of_listRun`, `RewrittenBody.listRun_of_codeRun` — the two directions.
-/

namespace TestExecutor

open TestExecutor.Library ILRewriter

/-! ### What a run passes -/

section Passed

variable {vs : List (MarkedInstr × Passage)} {c : MarkedInstr} {e : Passage}

theorem passed_snoc (vs : List (MarkedInstr × Passage)) (c : MarkedInstr) (e : Passage) :
    passed (vs ++ [(c, e)]) = passed vs ++ c.mark.toList := by
  rw [passed, List.filterMap_append]
  cases h : c.mark with
  | none => simp [passed, h]
  | some m => simp [passed, h]

theorem visitedInstrs_snoc_instr {k : ℕ} (hc : c.mark = some (.instr k)) (e : Passage) :
    visitedInstrs (vs ++ [(c, e)]) = visitedInstrs vs ++ [(k, e)] := by
  rw [visitedInstrs, List.filterMap_append]
  simp [visitedInstrs, hc]

theorem visitedInstrs_snoc_inserted (hc : ∀ k, c.mark ≠ some (.instr k)) (e : Passage) :
    visitedInstrs (vs ++ [(c, e)]) = visitedInstrs vs := by
  rw [visitedInstrs, List.filterMap_append]
  cases h : c.mark with
  | none => simp [visitedInstrs, h]
  | some m =>
      cases m with
      | instr k => exact absurd h (hc k)
      | call p o => simp [visitedInstrs, h]

theorem mem_visitedInstrs {k : ℕ} (hc : c.mark = some (.instr k)) (h : (c, e) ∈ vs) :
    (k, e) ∈ visitedInstrs vs := by
  refine List.mem_filterMap.mpr ⟨(c, e), h, ?_⟩
  simp [hc]

theorem exists_visited {k : ℕ} (h : (k, e) ∈ visitedInstrs vs) :
    ∃ c, c.mark = some (.instr k) ∧ (c, e) ∈ vs := by
  obtain ⟨⟨c, e'⟩, hc, hmark⟩ := List.mem_filterMap.mp h
  cases hcm : c.mark with
  | none => simp [hcm] at hmark
  | some m =>
      cases m with
      | call p o => simp [hcm] at hmark
      | instr k' =>
          obtain ⟨rfl, rfl⟩ : k' = k ∧ e' = e := by simpa [hcm] using hmark
          exact ⟨c, hcm, hc⟩

end Passed

theorem Annotations.marks_of_ne_fell {e : Passage} (he : e ≠ .fell) (ann : Annotations) (k : ℕ) :
    ann.marks k e = ann.marks k .raised := by
  rw [marks, if_neg he]
  rfl

theorem Annotations.marks_fell (ann : Annotations) (k : ℕ) : ann.marks k .fell
    = ann.marks k .raised ++ ann.after.toList.map fun p => .call p.1 p.2 := by
  rw [marks, marks, if_pos rfl, if_neg (by decide), List.append_assoc, List.singleton_append]
  cases ann.after <;> rfl

theorem filterMap_mark_singleton (c : MarkedInstr) :
    [c].filterMap MarkedInstr.mark = c.mark.toList := by
  cases h : c.mark <;> simp [h]

/-- The call of the probe at the entry, and the marks of every instruction that is passed. -/
def runMarks (isMain : Bool) (body : MethodBody) (is : List RawInstr) (enterOffset : ℕ)
    (vs : List (ℕ × Passage)) : List Mark :=
  .call (enterMethod isMain) enterOffset
    :: vs.flatMap fun v => (annotationAt (leaveMethod isMain) body is v.1).marks v.1 v.2

theorem runMarks_snoc (isMain : Bool) (body : MethodBody) (is : List RawInstr) (o : ℕ)
    (vs : List (ℕ × Passage)) (k : ℕ) (e : Passage) : runMarks isMain body is o (vs ++ [(k, e)])
      = runMarks isMain body is o vs
        ++ (annotationAt (leaveMethod isMain) body is k).marks k e := by
  rw [runMarks, runMarks, List.flatMap_append, List.flatMap_singleton, List.cons_append]

/-! ### Where a run stands -/

/-- Inside the call of the probe at the entry, in front of an instruction, or behind one. -/
inductive Stop (isMain : Bool) (body : MethodBody) (is : List RawInstr) (o : ℕ)
    (enter : List ILInstr) (gs : List Group) (vs : List (MarkedInstr × Passage)) :
    List MarkedInstr → Prop
  | enter {front back : List MarkedInstr} {c : MarkedInstr}
      (hsplit : markCalls [(enterMethod isMain, o)] enter = front ++ c :: back)
      (hvisited : visitedInstrs vs = []) (hpassed : passed vs = front.filterMap MarkedInstr.mark) :
      Stop isMain body is o enter gs vs (c :: (back ++ markedFrom (leaveMethod isMain) body is gs 0))
  | lead {k : ℕ} {g : Group} {front back : List MarkedInstr} (hg : gs[k]? = some g)
      (hrun : CodeRun body is (visitedInstrs vs) k)
      (hsplit : markCalls (annotationAt (leaveMethod isMain) body is k).before g.lead = front ++ back)
      (hpassed : passed vs
        = runMarks isMain body is o (visitedInstrs vs) ++ front.filterMap MarkedInstr.mark) :
      Stop isMain body is o enter gs vs (back ++ ⟨g.instr, some (.instr k)⟩
        :: (g.slots.map (fun n => ⟨n, none⟩)
          ++ (markCalls (annotationAt (leaveMethod isMain) body is k).after.toList g.trail
            ++ markedFrom (leaveMethod isMain) body is gs (k + 1))))
  | trail {k : ℕ} {g : Group} {front back : List MarkedInstr} {c : MarkedInstr}
      {ds : List (ℕ × Passage)} (hg : gs[k]? = some g) (hrun : CodeRun body is ds k)
      (hstep : CodeStep body is ds k .fell (k + 1)) (hvisited : visitedInstrs vs = ds ++ [(k, .fell)])
      (hsplit : markCalls (annotationAt (leaveMethod isMain) body is k).after.toList g.trail
        = front ++ c :: back)
      (hpassed : passed vs = runMarks isMain body is o ds
        ++ ((annotationAt (leaveMethod isMain) body is k).marks k .raised
          ++ front.filterMap MarkedInstr.mark)) :
      Stop isMain body is o enter gs vs
        (c :: (back ++ markedFrom (leaveMethod isMain) body is gs (k + 1)))

section Inserted

variable {code : List MarkedInstr} {eh : List EHClause} {vs : List (MarkedInstr × Passage)}
  {c : MarkedInstr} {rest rest' : List MarkedInstr} {e : Passage}

theorem dropWhile_marked (h : (rest.map MarkedInstr.node).dropWhile ILInstr.isSlot
    = rest.map MarkedInstr.node) : rest.dropWhile MarkedInstr.isSlot = rest := by
  cases rest with
  | nil => rfl
  | cons c rest =>
      refine List.dropWhile_cons_of_neg fun hslot => ?_
      have hnode : c.node.isSlot = true := hslot
      rw [List.map_cons, List.dropWhile_cons_of_pos hnode] at h
      have hlength := congrArg List.length h
      have hle := (List.dropWhile_suffix ILInstr.isSlot (l := rest.map MarkedInstr.node)).length_le
      rw [List.length_cons] at hlength
      omega

/-- Behind an inserted node control is in front of the next one. -/
theorem ListStep.of_inserted (hstep : ListStep code eh vs c rest e rest')
    (hinserted : IsInserted c.node.m_opcode) (hmark : ∀ k, c.mark ≠ some (.instr k))
    (hslots : rest.dropWhile MarkedInstr.isSlot = rest) : e = .fell ∧ rest' = rest := by
  cases hstep with
  | fall hstays hpasses => exact ⟨rfl, hslots⟩
  | jump hp hrest =>
      have htarget : ¬HasTarget c.node.m_opcode := by
        rw [HasTarget, hinserted.lt.2]
        exact Bool.false_ne_true
      rw [jumpTargets, if_neg hinserted.passesOn.2.1, if_neg htarget] at hp
      exact absurd hp List.not_mem_nil
  | raise hinstr => exact absurd hinstr (hmark _)
  | pass hinstr => exact absurd hinstr (hmark _)
  | resume hend =>
      rw [hend] at hinserted
      exact absurd hinserted (by unfold IsInserted; decide)

/-- A run goes through nodes of the list. -/
theorem ListRun.mem_code (hrun : ListRun code eh vs rest) :
    (∃ front, code = front ++ rest) ∧ ∀ v ∈ vs, v.1 ∈ code := by
  induction hrun with
  | entry => exact ⟨⟨[], rfl⟩, fun v hv => absurd hv List.not_mem_nil⟩
  | @step vs c rest rest' e _ hstep ih =>
      obtain ⟨⟨front, hfront⟩, hmarked⟩ := ih
      refine ⟨?_, fun v hv => ?_⟩
      · cases hstep with
        | fall =>
            obtain ⟨slots, hslots⟩ := List.dropWhile_suffix MarkedInstr.isSlot (l := rest)
            refine ⟨front ++ c :: slots, ?_⟩
            rw [hfront, List.append_assoc, List.cons_append, hslots]
        | jump _ hrest => exact hrest.1
        | raise _ _ _ _ hrest => exact hrest.1
        | pass _ _ _ _ _ _ _ _ hrest => exact hrest.1
        | resume _ _ _ hrest => exact hrest.1
      · rcases List.mem_append.mp hv with hv | hv
        · exact hmarked v hv
        · obtain rfl := List.mem_singleton.mp hv
          rw [hfront]
          exact List.mem_append_right _ List.mem_cons_self

/-- A run through inserted nodes. -/
theorem ListRun.walk {cells : List MarkedInstr}
    (hcells : ∀ c ∈ cells, IsInserted c.node.m_opcode ∧ ∀ k, c.mark ≠ some (.instr k))
    (hslots : ∀ back, back <:+ cells → (back ++ rest).dropWhile MarkedInstr.isSlot = back ++ rest)
    (hrun : ListRun code eh vs (cells ++ rest)) : ∃ vs', ListRun code eh vs' rest
      ∧ visitedInstrs vs' = visitedInstrs vs
      ∧ passed vs' = passed vs ++ cells.filterMap MarkedInstr.mark := by
  induction cells generalizing vs with
  | nil => exact ⟨vs, hrun, rfl, (List.append_nil _).symm⟩
  | cons c cells ih =>
      obtain ⟨hop, hmark⟩ := hcells c List.mem_cons_self
      have hstays : ¬LeavesMethod c.node.m_opcode := by
        rcases hop with hop | hop | hop | hop | hop <;> rw [hop] <;> decide
      have hstep : ListStep code eh vs c (cells ++ rest) .fell (cells ++ rest) := by
        have hfall := @ListStep.fall code eh vs _ (cells ++ rest) hstays
          hop.passesOn.1
        rwa [hslots cells (List.suffix_cons c cells)] at hfall
      obtain ⟨vs', hrun', hvisited, hpassed⟩ := ih (fun d hd => hcells d (List.mem_cons_of_mem c hd))
        (fun back hback => hslots back (hback.trans (List.suffix_cons c cells))) (hrun.step hstep)
      refine ⟨vs', hrun', hvisited.trans (visitedInstrs_snoc_inserted hmark .fell), ?_⟩
      rw [hpassed, passed_snoc, List.append_assoc, ← filterMap_mark_singleton, ← List.filterMap_append]
      rfl

end Inserted

/-- The jumps of an instruction lead to the nodes of its targets. -/
theorem Stands.jumpTargets_eq {t : ℕ → ℕ} {i : RawInstr} {g : Group} (h : Stands t i g)
    (hlt : i.opcode < ceeCount) {rest : List ILInstr} (hrest : rest.dropWhile ILInstr.isSlot = rest) :
    jumpTargets g.instr (g.slots ++ rest) = i.targets.map t := by
  have hboth := h.successors_eq hlt hrest
  have hslots : (g.slots ++ rest).dropWhile ILInstr.isSlot = rest := by
    have hall : ∀ n ∈ g.slots, n.isSlot = true := fun n hn => decide_eq_true (h.slot_eq hn).1
    rw [List.dropWhile_append_of_pos hall, hrest]
  rw [listSuccessors, hslots, h.operation.opcode] at hboth
  rw [jumpTargets, h.operation.opcode]
  exact List.append_cancel_left hboth

theorem entryAddrs_clauseOf (t prevOf : ℕ → ℕ) (c : EhInfo) (handlerEnd : ℕ) :
    EHClause.entryAddrs { clauseOf t prevOf c with m_pHandlerEnd := handlerEnd }
      = c.entries.map t := by
  rw [EHClause.entryAddrs, EhInfo.entries]
  dsimp only [clauseOf]
  split <;> rfl

theorem firstEntry_clauseOf (t prevOf : ℕ → ℕ) (c : EhInfo) (handlerEnd : ℕ) :
    EHClause.firstEntry { clauseOf t prevOf c with m_pHandlerEnd := handlerEnd }
      = t c.firstEntry := by
  rw [EHClause.firstEntry, EhInfo.firstEntry]
  dsimp only [clauseOf]
  split
  · rfl
  · rfl

/-! ### Every run of the list is one of the code -/

namespace RewrittenBody

variable {covProb : Probe → ProbeCall} {methodId : Int32} {isMain : Bool} {body : MethodBody}
  {is : List RawInstr} {s' : ILRewriter} {enter : List ILInstr} {gs : List Group} {g : Group}
  {i : RawInstr} {k o : ℕ} {probes : List (Probe × ℕ)} {nodes : List ILInstr}
  {vs : List (MarkedInstr × Passage)} {c : MarkedInstr} {rest rest' : List MarkedInstr} {e : Passage}

theorem markCalls_inserted (hnodes : ∀ n ∈ nodes, IsInserted n.m_opcode)
    (hc : c ∈ markCalls probes nodes) :
    IsInserted c.node.m_opcode ∧ ∀ k, c.mark ≠ some (.instr k) := by
  refine ⟨hnodes c.node ?_, markCalls_ne_instr hc⟩
  rw [← markCalls_node probes nodes]
  exact List.mem_map_of_mem hc

variable (hr : RewrittenBody covProb methodId isMain body is s' enter gs) (h : ValidBody body is)

include hr h

/-- No slot stands behind inserted nodes in front of a group. -/
theorem dropWhile_inserted_marked {back : List MarkedInstr}
    (hback : ∀ c ∈ back, IsInserted c.node.m_opcode) (k : ℕ) :
    (back ++ markedFrom (leaveMethod isMain) body is gs k).dropWhile MarkedInstr.isSlot
      = back ++ markedFrom (leaveMethod isMain) body is gs k := by
  refine dropWhile_marked ?_
  rw [List.map_append, markedFrom_node]
  refine dropWhile_inserted (fun n hn => ?_) (hr.groupsFrom_dropWhile h k)
  obtain ⟨c, hc, rfl⟩ := List.mem_map.mp hn
  exact hback c hc

omit hr in
theorem dropWhile_lead (hi : is[k]? = some i) (hstands : Stands (targetOf is body.code.size) i g)
    {back : List MarkedInstr} (hback : ∀ c ∈ back, IsInserted c.node.m_opcode)
    (rest : List MarkedInstr) :
    (back ++ ⟨g.instr, some (.instr k)⟩ :: rest).dropWhile MarkedInstr.isSlot
      = back ++ ⟨g.instr, some (.instr k)⟩ :: rest := by
  refine dropWhile_marked ?_
  rw [List.map_append, List.map_cons]
  refine dropWhile_inserted (fun n hn => ?_) (not_isSlot h hi hstands _)
  obtain ⟨c, hc, rfl⟩ := List.mem_map.mp hn
  exact hback c hc

/-- Control that arrives at a group is in front of its instruction. -/
theorem stop_arrive (hrun : CodeRun body is (visitedInstrs vs) k)
    (hpassed : passed vs = runMarks isMain body is o (visitedInstrs vs)) :
    Stop isMain body is o enter gs vs (markedFrom (leaveMethod isMain) body is gs k) := by
  obtain ⟨g, hg, -⟩ := hr.getElem?_group (List.getElem?_eq_getElem (hrun.lt h))
  rw [markedFrom_eq hg, Group.marked, List.append_assoc, List.cons_append, List.append_assoc]
  exact Stop.lead hg hrun (List.nil_append _).symm (by rw [hpassed]; exact (List.append_nil _).symm)

omit h in
/-- Every node of the list is an inserted one or a slot, or an instruction. -/
theorem marked_cases (hc : c ∈ markedList isMain body is o enter gs) :
    ((IsInserted c.node.m_opcode ∨ c.node.m_opcode = ceeSwitchArg) ∧ ∀ k, c.mark ≠ some (.instr k))
      ∨ ∃ k i g, is[k]? = some i ∧ gs[k]? = some g ∧ c = ⟨g.instr, some (.instr k)⟩ := by
  have inserted : ∀ {probes : List (Probe × ℕ)} {nodes : List ILInstr},
      (∀ n ∈ nodes, IsInserted n.m_opcode) → c ∈ markCalls probes nodes →
      (IsInserted c.node.m_opcode ∨ c.node.m_opcode = ceeSwitchArg)
        ∧ ∀ k, c.mark ≠ some (.instr k) := by
    intro probes nodes hnodes hc
    obtain ⟨hop, hmark⟩ := markCalls_inserted hnodes hc
    exact ⟨Or.inl hop, hmark⟩
  obtain ⟨o', henter⟩ := hr.enter_eq
  rcases List.mem_append.mp hc with hc | hc
  · exact Or.inl (inserted (fun n hn => enter_inserted henter hn) hc)
  · obtain ⟨⟨g, k⟩, hgk, hc⟩ := List.mem_flatMap.mp hc
    rw [List.drop_zero, List.mk_mem_zipIdx_iff_getElem?] at hgk
    obtain ⟨i, hi⟩ := hr.getElem?_instr hgk
    obtain ⟨g', hg', hstands⟩ := hr.getElem?_group hi
    obtain rfl := Option.some.inj (hgk.symm.trans hg')
    rcases List.mem_append.mp hc with hc | hc
    · exact Or.inl (inserted hstands.lead hc)
    · rcases List.mem_cons.mp hc with rfl | hc
      · exact Or.inr ⟨k, i, g, hi, hgk, rfl⟩
      · rcases List.mem_append.mp hc with hc | hc
        · obtain ⟨n, hn, rfl⟩ := List.mem_map.mp hc
          exact Or.inl ⟨Or.inr (hstands.slot_eq hn).1, fun k => by simp⟩
        · exact Or.inl (inserted hstands.trail hc)

omit h in
/-- A node to which a byte offset is resolved stands at the start of a group. -/
theorem markedAt_target {o' : ℕ} (ho : IsStart is o' ∨ o' = body.code.size)
    (hrest : MarkedAt (markedList isMain body is o enter gs) (targetOf is body.code.size o') rest') :
    ∃ k' ≤ is.length, boundaryAt is body.code.size k' = o'
      ∧ rest' = markedFrom (leaveMethod isMain) body is gs k' := by
  obtain ⟨k', hk', rfl⟩ := exists_boundaryAt ho
  exact ⟨k', hk', rfl, hrest.unique hr.linked (hr.marked_node o) (hr.markedAt_boundary o hk')⟩

omit h in
/-- The clauses of the list are those of the body. -/
theorem exists_clause {clause : EHClause} (hc : clause ∈ s'.m_pEH) : ∃ c ∈ body.eh, ∃ handlerEnd,
    clause = { clauseOf (targetOf is body.code.size) id c with m_pHandlerEnd := handlerEnd } := by
  obtain ⟨ends, hclauses, -⟩ := hr.clauses_eq
  rw [hclauses] at hc
  obtain ⟨c, hmem, rfl⟩ := List.mem_map.mp hc
  exact ⟨c, hmem, _, rfl⟩

omit h in
theorem clauseOf_mem {c : EhInfo} (hc : c ∈ body.eh) : ∃ handlerEnd,
    { clauseOf (targetOf is body.code.size) id c with m_pHandlerEnd := handlerEnd } ∈ s'.m_pEH := by
  obtain ⟨ends, hclauses, -⟩ := hr.clauses_eq
  rw [hclauses]
  exact ⟨_, List.mem_map_of_mem hc⟩

/-- The try ranges hold the instructions that they held. -/
theorem covers_iff (hi : is[k]? = some i) (hg : gs[k]? = some g) {c : EhInfo} (hc : c ∈ body.eh)
    (handlerEnd : ℕ) :
    EHClause.Covers
        { clauseOf (targetOf is body.code.size) id c with m_pHandlerEnd := handlerEnd }
        (markedList isMain body is o enter gs) ⟨g.instr, some (.instr k)⟩
      ↔ c.Covers .tryBlock i.offset := by
  obtain ⟨hstart, hend⟩ := h.range_boundary hc (k := .tryBlock) rfl
  refine (hr.standsIn_iff o hi hg h.decoded.consecutive hstart hend).trans ?_
  constructor
  · exact fun hrange => ⟨_, rfl, hrange⟩
  · rintro ⟨r, hr, hrange⟩
    exact Option.some.inj hr ▸ hrange

theorem filterCovers_iff (hi : is[k]? = some i) (hg : gs[k]? = some g) {c : EhInfo}
    (hc : c ∈ body.eh) :
    (isFilterFlags c.flags = true ∧ StandsIn (markedList isMain body is o enter gs)
        (clauseOf (targetOf is body.code.size) id c).m_ClassTokenOrFilter
        (clauseOf (targetOf is body.code.size) id c).m_pHandlerBegin ⟨g.instr, some (.instr k)⟩)
      ↔ c.Covers .filter i.offset := by
  cases hflags : isFilterFlags c.flags with
  | false =>
      refine iff_of_false (fun h => Bool.false_ne_true h.1) ?_
      rintro ⟨r, hr, -⟩
      rw [EhInfo.range, hflags] at hr
      cases hr
  | true =>
      have hrange : c.range .filter = some (c.classTokenOrFilterOffset, c.handlerOffset) := by
        rw [EhInfo.range, hflags]
        rfl
      obtain ⟨hstart, hend⟩ := h.range_boundary hc hrange
      have hiff := hr.standsIn_iff o hi hg h.decoded.consecutive hstart hend
      dsimp only [clauseOf]
      rw [hflags, if_pos rfl, hiff, EhInfo.Covers, hrange]
      constructor
      · exact fun hrange => ⟨_, rfl, hrange.2⟩
      · rintro ⟨r, hr, hrange⟩
        exact ⟨rfl, Option.some.inj hr ▸ hrange⟩

/-- An exception goes on behind the same instructions. -/
theorem nodePassesException_iff (hi : is[k]? = some i) (hg : gs[k]? = some g)
    (hop : g.instr.m_opcode = i.opcode) :
    NodePassesException (markedList isMain body is o enter gs) s'.m_pEH ⟨g.instr, some (.instr k)⟩
      ↔ PassesException body.eh i := by
  rw [NodePassesException, PassesException]
  dsimp only
  rw [hop]
  refine or_congr_right (or_congr_right ?_)
  constructor
  · rintro ⟨clause, hclause, hcovers⟩
    obtain ⟨c, hc, handlerEnd, rfl⟩ := hr.exists_clause hclause
    exact ⟨c, hc, (hr.filterCovers_iff h hi hg hc).mp hcovers⟩
  · rintro ⟨c, hc, hcovers⟩
    obtain ⟨handlerEnd, hclause⟩ := hr.clauseOf_mem hc
    exact ⟨_, hclause, (hr.filterCovers_iff h hi hg hc).mpr hcovers⟩

omit h in
/-- An instruction that a run has passed is that of a group. -/
theorem exists_group_of_mark (hc : c ∈ markedList isMain body is o enter gs)
    (hmark : c.mark = some (.instr k)) :
    ∃ i g, is[k]? = some i ∧ gs[k]? = some g ∧ c = ⟨g.instr, some (.instr k)⟩ := by
  rcases hr.marked_cases hc with ⟨-, hne⟩ | ⟨k', i, g, hi, hg, rfl⟩
  · exact absurd hmark (hne k)
  · obtain rfl : k' = k := by simpa using hmark
    exact ⟨i, g, hi, hg, rfl⟩

/-- Behind the slots of an instruction. -/
theorem dropWhile_slots (hstands : Stands (targetOf is body.code.size) i g) :
    (g.slots.map (fun n => (⟨n, none⟩ : MarkedInstr))
        ++ (markCalls (annotationAt (leaveMethod isMain) body is k).after.toList g.trail
          ++ markedFrom (leaveMethod isMain) body is gs (k + 1))).dropWhile MarkedInstr.isSlot
      = markCalls (annotationAt (leaveMethod isMain) body is k).after.toList g.trail
        ++ markedFrom (leaveMethod isMain) body is gs (k + 1) := by
  rw [List.dropWhile_append_of_pos ?_]
  · exact hr.dropWhile_inserted_marked h (fun c hc => (markCalls_inserted hstands.trail hc).1) (k + 1)
  · intro c hc
    obtain ⟨n, hn, rfl⟩ := List.mem_map.mp hc
    exact decide_eq_true (hstands.slot_eq hn).1

/-- The jumps of an instruction, in the marked list. -/
theorem jumpTargets_marked (hlt : i.opcode < ceeCount)
    (hstands : Stands (targetOf is body.code.size) i g) :
    jumpTargets g.instr ((g.slots.map (fun n => (⟨n, none⟩ : MarkedInstr))
        ++ (markCalls (annotationAt (leaveMethod isMain) body is k).after.toList g.trail
          ++ markedFrom (leaveMethod isMain) body is gs (k + 1))).map MarkedInstr.node)
      = i.targets.map (targetOf is body.code.size) := by
  have hnodes : (g.slots.map (fun n => (⟨n, none⟩ : MarkedInstr))
      ++ (markCalls (annotationAt (leaveMethod isMain) body is k).after.toList g.trail
        ++ markedFrom (leaveMethod isMain) body is gs (k + 1))).map MarkedInstr.node
      = g.slots ++ (g.trail ++ groupsFrom gs (k + 1)) := by
    rw [List.map_append, List.map_append, markCalls_node, markedFrom_node, List.map_map]
    exact congrArg (· ++ _) (List.map_id _)
  rw [hnodes]
  exact hstands.jumpTargets_eq hlt
    (dropWhile_inserted hstands.trail (hr.groupsFrom_dropWhile h (k + 1)))

/-- Where an instruction of a group can go. -/
theorem codeStep_of_listStep (hi : is[k]? = some i) (hg : gs[k]? = some g)
    (hmarked : ∀ v ∈ vs, v.1 ∈ markedList isMain body is o enter gs)
    (hstep : ListStep (markedList isMain body is o enter gs) s'.m_pEH vs ⟨g.instr, some (.instr k)⟩
      (g.slots.map (fun n => ⟨n, none⟩)
        ++ (markCalls (annotationAt (leaveMethod isMain) body is k).after.toList g.trail
          ++ markedFrom (leaveMethod isMain) body is gs (k + 1))) e rest') :
    (e = .fell ∧ CodeStep body is (visitedInstrs vs) k .fell (k + 1)
        ∧ rest' = markCalls (annotationAt (leaveMethod isMain) body is k).after.toList g.trail
          ++ markedFrom (leaveMethod isMain) body is gs (k + 1))
      ∨ (e ≠ .fell ∧ ∃ k', CodeStep body is (visitedInstrs vs) k e k'
        ∧ rest' = markedFrom (leaveMethod isMain) body is gs k') := by
  obtain ⟨g', hg', hstands⟩ := hr.getElem?_group hi
  obtain rfl := Option.some.inj (hg.symm.trans hg')
  have hop := hstands.operation.opcode
  have hmem := List.mem_of_getElem? hi
  have hlt := h.decoded.opcode_lt hmem
  cases hstep with
  | fall hstays hpasses =>
      dsimp only at hstays hpasses
      rw [hop] at hstays hpasses
      exact Or.inl ⟨rfl, CodeStep.fall hi hstays hpasses, hr.dropWhile_slots h hstands⟩
  | @jump p _ hp hrest =>
      refine Or.inr ⟨by decide, ?_⟩
      rw [hr.jumpTargets_marked h hlt hstands] at hp
      obtain ⟨o', ho', rfl⟩ := List.mem_map.mp hp
      obtain ⟨k', hk', rfl, rfl⟩ := hr.markedAt_target (h.targets i hmem o' ho') hrest
      exact ⟨k', CodeStep.jump hi hk' ho', rfl⟩
  | @raise _ clause _ hinstr hstays hclause hcovers hrest =>
      refine Or.inr ⟨by decide, ?_⟩
      dsimp only at hstays
      rw [hop] at hstays
      obtain ⟨c, hc, handlerEnd, rfl⟩ := hr.exists_clause hclause
      rw [firstEntry_clauseOf] at hrest
      obtain ⟨k', hk', hentry, rfl⟩ := hr.markedAt_target
        (h.boundaries c hc _ (List.mem_append_right _ c.firstEntry_mem)) hrest
      exact ⟨k', CodeStep.raise hi hstays hc ((hr.covers_iff h hi hg hc handlerEnd).mp hcovers) hk'
        hentry, rfl⟩
  | @pass _ j p l clause _ hinstr hstays hpasses hraised hl hclause hcovers hp hrest =>
      refine Or.inr ⟨by decide, ?_⟩
      dsimp only at hstays
      rw [hop] at hstays
      obtain ⟨li, gl, hj, hgl, rfl⟩ := hr.exists_group_of_mark (hmarked _ hraised) hl
      obtain ⟨c, hc, handlerEnd, rfl⟩ := hr.exists_clause hclause
      rw [entryAddrs_clauseOf] at hp
      obtain ⟨o', ho', rfl⟩ := List.mem_map.mp hp
      obtain ⟨k', hk', rfl, rfl⟩ := hr.markedAt_target
        (h.boundaries c hc o' (List.mem_append_right _ ho')) hrest
      exact ⟨k', CodeStep.pass hi hstays ((hr.nodePassesException_iff h hi hg hop).mp hpasses)
        (mem_visitedInstrs hl hraised) hj hc ((hr.covers_iff h hj hgl hc handlerEnd).mp hcovers) hk'
        ho', rfl⟩
  | @resume l e' _ hend hleft hleave hrest =>
      refine Or.inr ⟨by decide, ?_⟩
      dsimp only at hend
      rw [hop] at hend
      rcases hr.marked_cases (hmarked _ hleft) with ⟨hl, -⟩ | ⟨j, li, gl, hj, hgl, rfl⟩
      · exact absurd hl (by rcases hleave with hl' | hl' <;> rw [hl'] <;> unfold IsInserted <;> decide)
      · obtain ⟨gl', hgl', hstandsl⟩ := hr.getElem?_group hj
        obtain rfl := Option.some.inj (hgl.symm.trans hgl')
        dsimp only at hleave hrest
        rw [hstandsl.operation.opcode] at hleave
        have hhas : HasTarget li.opcode := by
          rcases hleave with hl | hl <;> rw [hl] <;> decide
        rw [hstandsl.operation.target hhas] at hrest
        have htarget : li.argWord ∈ li.targets := by
          rw [hleave.targets_eq]
          exact List.mem_singleton_self _
        obtain ⟨k', hk', hboundary, rfl⟩ := hr.markedAt_target
          (h.targets li (List.mem_of_getElem? hj) _ htarget) hrest
        exact ⟨k', CodeStep.resume hi hend (mem_visitedInstrs rfl hleft) hj hleave hk' hboundary, rfl⟩

/-- **One step** leads from such a place to another one. -/
theorem stop_step (ho : enter.map ILInstr.content
      = enterContents covProb methodId (enterMethod isMain) o)
    (hmarked : ∀ v ∈ vs, v.1 ∈ markedList isMain body is o enter gs)
    (hstop : Stop isMain body is o enter gs vs (c :: rest))
    (hstep : ListStep (markedList isMain body is o enter gs) s'.m_pEH vs c rest e rest') :
    Stop isMain body is o enter gs (vs ++ [(c, e)]) rest' := by
  generalize hl : c :: rest = l at hstop
  cases hstop with
  | @enter front back x hsplit hvisited hpassed =>
      obtain ⟨rfl, rfl⟩ := List.cons.inj hl
      have hinserted : ∀ m ∈ c :: back, IsInserted m.node.m_opcode ∧ ∀ k, m.mark ≠ some (.instr k) :=
        fun m hm => markCalls_inserted (fun n hn => enter_inserted ho hn)
          (hsplit ▸ List.mem_append_right front hm)
      have hback : ∀ m ∈ back, IsInserted m.node.m_opcode := fun m hm =>
        (hinserted m (List.mem_cons_of_mem c hm)).1
      obtain ⟨hop, hmark⟩ := hinserted c List.mem_cons_self
      obtain ⟨rfl, rfl⟩ := hstep.of_inserted hop hmark (hr.dropWhile_inserted_marked h hback 0)
      have hvisited' := (visitedInstrs_snoc_inserted hmark .fell).trans hvisited
      have hpassed' := passed_snoc vs c .fell
      rw [hpassed] at hpassed'
      cases back with
      | cons x back =>
          refine @Stop.enter _ _ _ _ _ _ _ (front ++ [c]) _ _ ?_ hvisited' ?_
          · rw [hsplit, List.append_assoc, List.singleton_append]
          · rw [hpassed', List.filterMap_append, filterMap_mark_singleton]
      | nil =>
          refine hr.stop_arrive h ?_ ?_
          · rw [hvisited']
            exact CodeRun.entry
          · have hmarks := enterContents_marks ho
            rw [hsplit, List.filterMap_append] at hmarks
            rw [filterMap_mark_singleton] at hmarks
            rw [hpassed', hvisited', hmarks]
            rfl
  | @lead k g front back hg hrun hsplit hpassed =>
      obtain ⟨i, hi⟩ := hr.getElem?_instr hg
      obtain ⟨g', hg', hstands⟩ := hr.getElem?_group hi
      obtain rfl := Option.some.inj (hg.symm.trans hg')
      have hgroup := hr.groupAt hi hg
      have hfront := hgroup.lead.marks
      rw [hsplit, List.filterMap_append] at hfront
      cases back with
      | cons x back =>
          obtain ⟨rfl, rfl⟩ := List.cons.inj hl
          have hinserted : ∀ m ∈ c :: back, IsInserted m.node.m_opcode
              ∧ ∀ k, m.mark ≠ some (.instr k) := fun m hm =>
            markCalls_inserted hstands.lead (hsplit ▸ List.mem_append_right front hm)
          obtain ⟨hop, hmark⟩ := hinserted c List.mem_cons_self
          have hslots := dropWhile_lead h hi hstands (fun m hm =>
            (hinserted m (List.mem_cons_of_mem c hm)).1) (g.slots.map (fun n => ⟨n, none⟩)
              ++ (markCalls (annotationAt (leaveMethod isMain) body is k).after.toList g.trail
                ++ markedFrom (leaveMethod isMain) body is gs (k + 1)))
          obtain ⟨rfl, rfl⟩ := hstep.of_inserted hop hmark hslots
          have hvisited := @visitedInstrs_snoc_inserted vs _ hmark .fell
          refine @Stop.lead _ _ _ _ _ _ _ _ _ (front ++ [c]) _ hg (hvisited ▸ hrun) ?_ ?_
          · rw [hsplit, List.append_assoc, List.singleton_append]
          · rw [passed_snoc, hvisited, hpassed, List.filterMap_append, List.append_assoc,
              filterMap_mark_singleton]
      | nil =>
          obtain ⟨rfl, rfl⟩ := List.cons.inj hl
          rw [List.filterMap_nil, List.append_nil] at hfront
          have hvisited := @visitedInstrs_snoc_instr vs ⟨g.instr, some (.instr k)⟩ _ rfl e
          -- the probes in front of the instruction, and the instruction
          have hmarks : passed (vs ++ [((⟨g.instr, some (.instr k)⟩ : MarkedInstr), e)])
              = runMarks isMain body is o (visitedInstrs vs)
                ++ (annotationAt (leaveMethod isMain) body is k).marks k .raised := by
            rw [passed_snoc, hpassed, hfront, List.append_assoc]
            rfl
          rcases hr.codeStep_of_listStep h hi hg hmarked hstep with ⟨rfl, hcode, rfl⟩
            | ⟨he, k', hcode, rfl⟩
          · have htrail := hgroup.trail.marks
            cases hcells : markCalls (annotationAt (leaveMethod isMain) body is k).after.toList
                g.trail with
            | cons x back =>
                refine @Stop.trail _ _ _ _ _ _ _ _ _ [] _ _ _ hg hrun hcode hvisited hcells ?_
                rw [hmarks, List.filterMap_nil, List.append_nil]
            | nil =>
                rw [hcells] at htrail
                refine hr.stop_arrive h (hvisited ▸ CodeRun.step hrun hcode) ?_
                rw [hmarks, hvisited, runMarks_snoc, Annotations.marks_fell, ← htrail,
                  List.filterMap_nil, List.append_nil]
          · refine hr.stop_arrive h (hvisited ▸ CodeRun.step hrun hcode) ?_
            rw [hmarks, hvisited, runMarks_snoc, Annotations.marks_of_ne_fell he]
  | @trail k g front back x ds hg hrun hfell hvisited hsplit hpassed =>
      obtain ⟨rfl, rfl⟩ := List.cons.inj hl
      obtain ⟨i, hi⟩ := hr.getElem?_instr hg
      obtain ⟨g', hg', hstands⟩ := hr.getElem?_group hi
      obtain rfl := Option.some.inj (hg.symm.trans hg')
      have hmarks := (hr.groupAt hi hg).trail.marks
      rw [hsplit, List.filterMap_append] at hmarks
      have hinserted : ∀ m ∈ c :: back, IsInserted m.node.m_opcode
          ∧ ∀ k, m.mark ≠ some (.instr k) := fun m hm =>
        markCalls_inserted hstands.trail (hsplit ▸ List.mem_append_right front hm)
      obtain ⟨hop, hmark⟩ := hinserted c List.mem_cons_self
      obtain ⟨rfl, rfl⟩ := hstep.of_inserted hop hmark (hr.dropWhile_inserted_marked h
        (fun m hm => (hinserted m (List.mem_cons_of_mem c hm)).1) (k + 1))
      have hvisited' := (@visitedInstrs_snoc_inserted vs _ hmark .fell).trans hvisited
      cases back with
      | cons x back =>
          refine @Stop.trail _ _ _ _ _ _ _ _ _ (front ++ [c]) _ _ _ hg hrun hfell hvisited' ?_ ?_
          · rw [hsplit, List.append_assoc, List.singleton_append]
          · rw [passed_snoc, hpassed, List.filterMap_append, filterMap_mark_singleton]
            simp only [List.append_assoc]
      | nil =>
          rw [filterMap_mark_singleton] at hmarks
          refine hr.stop_arrive h (hvisited' ▸ CodeRun.step hrun hfell) ?_
          rw [passed_snoc, hpassed, hvisited', runMarks_snoc, Annotations.marks_fell, ← hmarks]
          simp only [List.append_assoc]

/-- **Every run of the list** stands at such a place. -/
theorem stop (ho : enter.map ILInstr.content
      = enterContents covProb methodId (enterMethod isMain) o)
    (hrun : ListRun (markedList isMain body is o enter gs) s'.m_pEH vs rest) :
    Stop isMain body is o enter gs vs rest := by
  induction hrun with
  | entry =>
      rw [markedList]
      cases hcells : markCalls [(enterMethod isMain, o)] enter with
      | cons c back => exact @Stop.enter _ _ _ _ _ _ _ [] _ _ hcells rfl rfl
      | nil =>
          have hmarks := enterContents_marks ho
          rw [hcells] at hmarks
          cases hmarks
  | step hrun hstep ih => exact hr.stop_step h ho hrun.mem_code.2 ih hstep

/-- **A run of the list is one of the code.**  It stands in front of the instruction in front of which
the run of the code stands; the probes in front of it have been called. -/
theorem codeRun_of_listRun (ho : enter.map ILInstr.content
      = enterContents covProb methodId (enterMethod isMain) o)
    (hrun : ListRun (markedList isMain body is o enter gs) s'.m_pEH vs (c :: rest))
    (hc : c.mark = some (.instr k)) :
    CodeRun body is (visitedInstrs vs) k
      ∧ (∃ i g, is[k]? = some i ∧ gs[k]? = some g ∧ c.node = g.instr)
      ∧ passed vs = runMarks isMain body is o (visitedInstrs vs)
        ++ (annotationAt (leaveMethod isMain) body is k).before.map fun p => .call p.1 p.2 := by
  have hstop := hr.stop h ho hrun
  generalize hl : c :: rest = l at hstop
  cases hstop with
  | @enter front back x hsplit hvisited hpassed =>
      obtain ⟨rfl, -⟩ := List.cons.inj hl
      exact absurd hc (markCalls_ne_instr (hsplit ▸ List.mem_append_right front List.mem_cons_self) k)
  | @lead k' g front back hg hcode hsplit hpassed =>
      cases back with
      | cons x back =>
          obtain ⟨rfl, -⟩ := List.cons.inj hl
          exact absurd hc (markCalls_ne_instr
            (hsplit ▸ List.mem_append_right front List.mem_cons_self) k)
      | nil =>
          obtain ⟨rfl, -⟩ := List.cons.inj hl
          obtain rfl : k' = k := by simpa using hc
          obtain ⟨i, hi⟩ := hr.getElem?_instr hg
          have hmarks := (hr.groupAt hi hg).lead.marks
          rw [hsplit, List.append_nil] at hmarks
          exact ⟨hcode, ⟨i, g, hi, hg, rfl⟩, by rw [hpassed, hmarks]⟩
  | @trail k' g front back x ds hg hcode hfell hvisited hsplit hpassed =>
      obtain ⟨rfl, -⟩ := List.cons.inj hl
      exact absurd hc (markCalls_ne_instr (hsplit ▸ List.mem_append_right front List.mem_cons_self) k)

/-! ### Every run of the code is one of the list -/

/-- Through the probes in front of an instruction. -/
theorem listRun_instr (hi : is[k]? = some i) (hg : gs[k]? = some g)
    (hrun : ListRun (markedList isMain body is o enter gs) s'.m_pEH vs
      (markedFrom (leaveMethod isMain) body is gs k)) :
    ∃ vs', ListRun (markedList isMain body is o enter gs) s'.m_pEH vs' (⟨g.instr, some (.instr k)⟩
        :: (g.slots.map (fun n => ⟨n, none⟩)
          ++ (markCalls (annotationAt (leaveMethod isMain) body is k).after.toList g.trail
            ++ markedFrom (leaveMethod isMain) body is gs (k + 1))))
      ∧ visitedInstrs vs' = visitedInstrs vs ∧ passed vs' = passed vs
        ++ (annotationAt (leaveMethod isMain) body is k).before.map fun p => .call p.1 p.2 := by
  obtain ⟨g', hg', hstands⟩ := hr.getElem?_group hi
  obtain rfl := Option.some.inj (hg.symm.trans hg')
  rw [markedFrom_eq hg, Group.marked, List.append_assoc, List.cons_append, List.append_assoc] at hrun
  have hinserted : ∀ c ∈ markCalls (annotationAt (leaveMethod isMain) body is k).before g.lead,
      IsInserted c.node.m_opcode ∧ ∀ k, c.mark ≠ some (.instr k) := fun c hc =>
    markCalls_inserted hstands.lead hc
  obtain ⟨vs', hrun', hvisited, hpassed⟩ := hrun.walk hinserted fun back hback =>
    dropWhile_lead h hi hstands (fun c hc => (hinserted c (hback.subset hc)).1) _
  exact ⟨vs', hrun', hvisited, hpassed.trans (congrArg _ (hr.groupAt hi hg).lead.marks)⟩

/-- The step of an instruction in the list. -/
theorem listStep_of_codeStep (hi : is[k]? = some i) (hg : gs[k]? = some g) {k' : ℕ}
    (hmarked : ∀ v ∈ vs, v.1 ∈ markedList isMain body is o enter gs)
    (hstep : CodeStep body is (visitedInstrs vs) k e k') :
    ListStep (markedList isMain body is o enter gs) s'.m_pEH vs ⟨g.instr, some (.instr k)⟩
      (g.slots.map (fun n => ⟨n, none⟩)
        ++ (markCalls (annotationAt (leaveMethod isMain) body is k).after.toList g.trail
          ++ markedFrom (leaveMethod isMain) body is gs (k + 1))) e
      (if e = .fell then markCalls (annotationAt (leaveMethod isMain) body is k).after.toList g.trail
          ++ markedFrom (leaveMethod isMain) body is gs (k + 1)
        else markedFrom (leaveMethod isMain) body is gs k') := by
  obtain ⟨g', hg', hstands⟩ := hr.getElem?_group hi
  obtain rfl := Option.some.inj (hg.symm.trans hg')
  have hop := hstands.operation.opcode
  have hlt := h.decoded.opcode_lt (List.mem_of_getElem? hi)
  cases hstep with
  | @fall i' hi' hstays hfalls =>
      obtain rfl := Option.some.inj (hi.symm.trans hi')
      have hpasses : PassesOn g.instr.m_opcode := by
        rw [hop]
        exact hfalls
      have hfall := @ListStep.fall (markedList isMain body is o enter gs) s'.m_pEH
        vs ⟨g.instr, some (.instr k)⟩ (g.slots.map (fun n => ⟨n, none⟩)
          ++ (markCalls (annotationAt (leaveMethod isMain) body is k).after.toList g.trail
            ++ markedFrom (leaveMethod isMain) body is gs (k + 1))) (by rwa [hop]) hpasses
      rw [hr.dropWhile_slots h hstands] at hfall
      rw [if_pos rfl]
      exact hfall
  | @jump i' _ hi' hk' htarget =>
      obtain rfl := Option.some.inj (hi.symm.trans hi')
      rw [if_neg (by decide)]
      refine ListStep.jump ?_ (hr.markedAt_boundary o hk')
      rw [hr.jumpTargets_marked h hlt hstands]
      exact List.mem_map_of_mem htarget
  | @raise i' c _ hi' hstays hc hcovers hk' hentry =>
      obtain rfl := Option.some.inj (hi.symm.trans hi')
      rw [if_neg (by decide)]
      obtain ⟨handlerEnd, hclause⟩ := hr.clauseOf_mem hc
      refine ListStep.raise rfl (by rwa [hop]) hclause
        ((hr.covers_iff h hi hg hc handlerEnd).mpr hcovers) ?_
      rw [firstEntry_clauseOf, ← hentry]
      exact hr.markedAt_boundary o hk'
  | @pass i' li j _ c hi' hstays hpasses hraised hj hc hcovers hk' hentry =>
      obtain rfl := Option.some.inj (hi.symm.trans hi')
      rw [if_neg (by decide)]
      obtain ⟨l, hlmark, hl⟩ := exists_visited hraised
      obtain ⟨li', gl, hj', hgl, rfl⟩ := hr.exists_group_of_mark (hmarked _ hl) hlmark
      obtain rfl := Option.some.inj (hj.symm.trans hj')
      obtain ⟨handlerEnd, hclause⟩ := hr.clauseOf_mem hc
      refine ListStep.pass rfl (by rwa [hop]) ((hr.nodePassesException_iff h hi hg hop).mpr hpasses)
        hl hlmark hclause ((hr.covers_iff h hj hgl hc handlerEnd).mpr hcovers) ?_
        (hr.markedAt_boundary o hk')
      rw [entryAddrs_clauseOf]
      exact List.mem_map_of_mem hentry
  | @resume i' li j _ e' hi' hend hleft hj hleave hk' htarget =>
      obtain rfl := Option.some.inj (hi.symm.trans hi')
      rw [if_neg (by decide)]
      obtain ⟨l, hlmark, hl⟩ := exists_visited hleft
      obtain ⟨li', gl, hj', hgl, rfl⟩ := hr.exists_group_of_mark (hmarked _ hl) hlmark
      obtain rfl := Option.some.inj (hj.symm.trans hj')
      obtain ⟨gl', hgl', hstandsl⟩ := hr.getElem?_group hj
      obtain rfl := Option.some.inj (hgl.symm.trans hgl')
      have hhas : HasTarget li.opcode := by
        rcases hleave with hl | hl <;> rw [hl] <;> decide
      refine ListStep.resume (by rwa [hop]) hl (by rwa [hstandsl.operation.opcode]) ?_
      rw [hstandsl.operation.target hhas, ← htarget]
      exact hr.markedAt_boundary o hk'

/-- **A run of the code is one of the list**, which calls the probes around the instructions that it
passes. -/
theorem listRun_of_codeRun (ho : enter.map ILInstr.content
      = enterContents covProb methodId (enterMethod isMain) o) {ds : List (ℕ × Passage)}
    (hrun : CodeRun body is ds k) :
    ∃ vs, ListRun (markedList isMain body is o enter gs) s'.m_pEH vs
        (markedFrom (leaveMethod isMain) body is gs k)
      ∧ visitedInstrs vs = ds ∧ passed vs = runMarks isMain body is o ds := by
  induction hrun with
  | entry =>
      have hentry : ListRun (markedList isMain body is o enter gs) s'.m_pEH []
          (markCalls [(enterMethod isMain, o)] enter
            ++ markedFrom (leaveMethod isMain) body is gs 0) := ListRun.entry
      have hinserted : ∀ c ∈ markCalls [(enterMethod isMain, o)] enter,
          IsInserted c.node.m_opcode ∧ ∀ k, c.mark ≠ some (.instr k) := fun c hc =>
        markCalls_inserted (fun n hn => enter_inserted ho hn) hc
      obtain ⟨vs, hrun, hvisited, hpassed⟩ := hentry.walk hinserted fun back hback =>
        hr.dropWhile_inserted_marked h (fun c hc => (hinserted c (hback.subset hc)).1) 0
      exact ⟨vs, hrun, hvisited, hpassed.trans (enterContents_marks ho)⟩
  | @step ds k k' e hcode hstep ih =>
      obtain ⟨vs, hrun, hvisited, hpassed⟩ := ih
      have hi := List.getElem?_eq_getElem (hcode.lt h)
      obtain ⟨g, hg, hstands⟩ := hr.getElem?_group hi
      obtain ⟨vs₁, hrun₁, hvisited₁, hpassed₁⟩ := hr.listRun_instr h hi hg hrun
      rw [hvisited] at hvisited₁
      have hlist := hr.listStep_of_codeStep h hi hg hrun₁.mem_code.2 (hvisited₁ ▸ hstep)
      have hrun₂ := hrun₁.step hlist
      have hvisited₂ := (@visitedInstrs_snoc_instr vs₁ ⟨g.instr, some (.instr k)⟩ _ rfl e).trans
        (congrArg (· ++ [(k, e)]) hvisited₁)
      have hpassed₂ : passed (vs₁ ++ [((⟨g.instr, some (.instr k)⟩ : MarkedInstr), e)])
          = runMarks isMain body is o ds
            ++ (annotationAt (leaveMethod isMain) body is k).marks k .raised := by
        rw [passed_snoc, hpassed₁, hpassed, List.append_assoc]
        rfl
      by_cases he : e = .fell
      · subst he
        obtain rfl : k' = k + 1 := by
          cases hstep
          rfl
        rw [if_pos rfl] at hrun₂
        have hinserted : ∀ c ∈ markCalls (annotationAt (leaveMethod isMain) body is k).after.toList
            g.trail, IsInserted c.node.m_opcode ∧ ∀ k, c.mark ≠ some (.instr k) := fun c hc =>
          markCalls_inserted hstands.trail hc
        obtain ⟨vs₃, hrun₃, hvisited₃, hpassed₃⟩ := hrun₂.walk hinserted fun back hback =>
          hr.dropWhile_inserted_marked h (fun c hc => (hinserted c (hback.subset hc)).1) (k + 1)
        refine ⟨vs₃, hrun₃, hvisited₃.trans hvisited₂, ?_⟩
        rw [hpassed₃, hpassed₂, runMarks_snoc, Annotations.marks_fell, (hr.groupAt hi hg).trail.marks,
          List.append_assoc]
      · rw [if_neg he] at hrun₂
        refine ⟨_, hrun₂, hvisited₂, ?_⟩
        rw [hpassed₂, runMarks_snoc, Annotations.marks_of_ne_fell he]

end RewrittenBody

end TestExecutor
