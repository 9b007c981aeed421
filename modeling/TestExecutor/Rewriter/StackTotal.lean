import TestExecutor.Rewriter.RewrittenBody

/-!
# The stack counter of a rewritten body

The value of `m_maxStack` that `Export` writes, without its truncations.

* `importBody_pushed` — the import counts what every instruction pushes;
* `instrPushes`, `bodyPushes` — what an instruction and its probes add in the end;
* `untruncatedMaxStack`, `exists_counted` — the counter behind the rewriting.
-/

namespace TestExecutor

open TestExecutor.Library ILRewriter

/-! ### The import -/

theorem appendNode_pushed (s : ILRewriter) (opcode arg : ℕ) :
    Pushed (rgnStackPushes opcode) s (s.appendNode opcode arg) :=
  newBefore_pushed s pIL opcode arg

/-- Slots push nothing. -/
theorem appendSlots_pushed (targets : List ℕ) (s : ILRewriter) :
    Pushed 0 s (targets.foldl (fun s target => s.appendNode ceeSwitchArg target) s) := by
  induction targets generalizing s with
  | nil => exact Pushed.refl s
  | cons target targets ih =>
      have hslot := appendNode_pushed s ceeSwitchArg target
      exact hslot.trans (ih _)

theorem importInstr_pushed (s : ILRewriter) (i : RawInstr) :
    Pushed (rgnStackPushes i.opcode) s (s.importInstr i) := by
  have happended := appendNode_pushed s i.opcode i.argWord
  have hentered : Pushed (rgnStackPushes i.opcode) s { s.appendNode i.opcode i.argWord with
      m_pOffsetToInstr := Function.update (s.appendNode i.opcode i.argWord).m_pOffsetToInstr
        i.offset s.fresh } := ⟨happended.header, happended.maxStack, happended.counted⟩
  exact hentered.trans (appendSlots_pushed i.slotTargets _)

/-- What the instructions push, as the table tells. -/
def importPushes (is : List RawInstr) : ℕ := (is.map fun i => rgnStackPushes i.opcode).sum

theorem foldl_importInstr_pushed (is : List RawInstr) (s : ILRewriter) :
    Pushed (importPushes is) s (is.foldl ILRewriter.importInstr s) := by
  induction is generalizing s with
  | nil => exact Pushed.refl s
  | cons i is ih =>
      have hall := (importInstr_pushed s i).trans (ih (s.importInstr i))
      exact hall

theorem importBody_pushed {body : MethodBody} {is : List RawInstr} {s : ILRewriter}
    (hdecode : decodeAll body.code body.code.size 0 = .ok is) (h : importBody body = .ok s) :
    s.m_maxStack % 2 ^ 32 = (body.maxStack + importPushes is) % 2 ^ 32 := by
  have hpushed := (foldl_importInstr_pushed is { ILRewriter.new with
    m_tkLocalVarSig := body.localVarSigTok
    m_maxStack := body.maxStack
    m_flags := initLocalsFlag body.flags
    m_CodeSize := body.code.size
    m_pOffsetToInstr := Function.update (fun _ => nullPtr) body.code.size pIL }).maxStack
  rw [importBody, importIL_eq, hdecode] at h
  revert hpushed
  change ILRewriter.importEH (ILRewriter.resolveTargets (is.foldl ILRewriter.importInstr _))
    body.eh = _ at h
  revert h
  generalize is.foldl ILRewriter.importInstr _ = s₁
  intro h hpushed
  rw [importEH] at h
  cases hclauses : body.eh.mapM s₁.resolveTargets.importClause with
  | error e => rw [hclauses] at h; cases h
  | ok clauses =>
      rw [hclauses] at h
      obtain rfl := (Except.ok.inj h).symm
      exact hpushed

/-! ### The insertions -/

/-- What the placement of a node adds. -/
theorem excess_nodeItems (pl : Placement) (w : ILInstr) : excess w (nodeItems pl w)
    = (if pl.before = [] then 0 else rgnStackPushes w.m_opcode)
      + probePushes * (pl.before.length + pl.after.toList.length) := by
  have hlead : ∀ probes : List Probe, (leadItems probes w).countP Item.isProbe = probes.length := by
    intro probes
    induction probes with
    | nil => rfl
    | cons p probes ih =>
        show (.instr ceeNop w.m_Arg64 :: .probe p w.m_offset :: leadItems probes w).countP _ = _
        rw [List.countP_cons_of_neg Bool.false_ne_true, List.countP_cons_of_pos rfl, ih]
        rfl
  have htrail : (trailItems pl.after w).countP Item.isProbe = pl.after.toList.length := by
    cases pl.after with
    | none => rfl
    | some p => rfl
  have hcount : (nodeItems pl w).countP Item.isProbe
      = pl.before.length + pl.after.toList.length := by
    rw [nodeItems, List.countP_append, hlead, List.countP_cons_of_neg Bool.false_ne_true, htrail]
  obtain ⟨before, after⟩ := pl
  cases before with
  | nil =>
      show probePushes * (nodeItems ⟨[], after⟩ w).countP Item.isProbe
        + (if w.m_opcode = ceeNop then rgnStackPushes w.m_opcode else 0) = _
      rw [hcount, if_pos rfl, Nat.zero_add]
      split
      · rename_i hnop
        rw [hnop, rgnStackPushes_nop]
        rfl
      · rfl
  | cons p before =>
      show probePushes * (nodeItems ⟨p :: before, after⟩ w).countP Item.isProbe
        + rgnStackPushes w.m_opcode = _
      rw [hcount, if_neg (List.cons_ne_nil _ _), Nat.add_comm]

/-- What an instruction adds with its probes: behind a probe in front of it, it is counted again. -/
def instrPushes (ann : Annotations) (i : RawInstr) : ℕ :=
  rgnStackPushes i.opcode + (if ann.before = [] then 0 else rgnStackPushes i.opcode)
    + probePushes * (ann.before.length + ann.after.toList.length)

def bodyPushes (leaveMethod : Probe) (eh : List EhInfo) (targets : List ℕ) :
    List RawInstr → List RawInstr → ℕ
  | _, [] => 0
  | pre, i :: post => instrPushes (annotate leaveMethod eh targets pre i post) i
      + bodyPushes leaveMethod eh targets (pre ++ [i]) post

/-- The stack counter of the rewritten body, as a number. -/
def untruncatedMaxStack (isMain : Bool) (body : MethodBody) (is : List RawInstr) : ℕ :=
  body.maxStack + bodyPushes (ILRewriter.leaveMethod isMain) body.eh (branchTargets is) [] is
    + enterPushes

/-- A sum to which only the last summand adds. -/
theorem sum_last {α : Type*} {f : α → ℕ} {c : ℕ} : ∀ {as : List α},
    (∀ front a back, as = front ++ a :: back → f a = if back = [] then c else 0) →
      (as.map f).sum = if as = [] then 0 else c := by
  intro as
  induction as with
  | nil => exact fun _ => rfl
  | cons a as ih =>
      intro h
      have hhead := h [] a as rfl
      have hrest := ih fun front b back hsplit => h (a :: front) b back (by rw [hsplit]; rfl)
      rw [List.map_cons, List.sum_cons, hhead, hrest]
      cases as with
      | nil => rfl
      | cons b as => exact Nat.zero_add c

section Sums

variable {body : MethodBody} {is pre post : List RawInstr} {i : RawInstr} {s : ILRewriter}
  {leaveMethod : Probe} (h : ValidBody body is) (hs : ImportedFrom body is s)

/-- What is added at a node of the list behind the scan. -/
def nodeExcess (leaveMethod : Probe) (s : ILRewriter) (w : ILInstr) : ℕ :=
  excess w (nodeItems (s.placement leaveMethod w) w)

namespace ValidBody

include h hs

theorem excess_tail (his : is = pre ++ i :: post) (htail : i.opcode = ceeTailcall)
    (nodes : List ILInstr) :
    nodeExcess leaveMethod s (oldTail (instrNode (targetOf is body.code.size)
        (addrBehindAll (pIL + 1) pre) i) nodes)
      + nodeExcess leaveMethod s (newTail (freshBehind s.fresh (importedNodes
        (targetOf is body.code.size) (pIL + 1) pre)) nodes)
      = instrPushes (annotate leaveMethod body.eh (branchTargets is) pre i post) i := by
  obtain ⟨hold, hnew⟩ := h.placement_tail hs leaveMethod his htail nodes
  obtain ⟨c, r, rest, rfl, -, -⟩ := h.tail_split his htail
  have hann : annotate leaveMethod body.eh (branchTargets is) pre i (c :: r :: rest) = _ :=
    if_pos htail
  have hnone : ∀ w : ILInstr, w.m_opcode = ceeNop ∨ w.m_opcode = ceeTailcall →
      rgnStackPushes w.m_opcode = 0 := by
    intro w hw
    rcases hw with hw | hw <;> rw [hw] <;> decide
  have hpush : rgnStackPushes i.opcode = 0 := by rw [htail]; decide
  rw [nodeExcess, nodeExcess, hold, hnew, excess_nodeItems, excess_nodeItems,
    hnone (oldTail _ _) (Or.inl rfl), hnone (newTail _ _) (Or.inr rfl), instrPushes, hann, hpush]
  simp only [ite_self, Nat.zero_add, List.length_append, List.length_map, List.length_cons,
    List.length_nil, Option.toList_none, Nat.add_zero, probePushes_eq]
  omega

theorem excess_plain (his : is = pre ++ i :: post) (htail : i.opcode ≠ ceeTailcall) :
    rgnStackPushes i.opcode
      + nodeExcess leaveMethod s (instrNode (targetOf is body.code.size)
        (addrBehindAll (pIL + 1) pre) i)
      + ((i.tableNodes (targetOf is body.code.size) (addrBehindAll (pIL + 1) pre)).map
        (nodeExcess leaveMethod s)).sum
      = instrPushes (annotate leaveMethod body.eh (branchTargets is) pre i post) i := by
  -- the last slot may have a probe behind it
  have hslots : ((i.tableNodes (targetOf is body.code.size) (addrBehindAll (pIL + 1) pre)).map
      (nodeExcess leaveMethod s)).sum
      = if i.tableNodes (targetOf is body.code.size) (addrBehindAll (pIL + 1) pre) = [] then 0
        else if i.next ∈ branchTargets is then probePushes else 0 :=
    sum_last fun front j back htable => by
      rw [nodeExcess, h.placement_slot hs his htable, excess_nodeItems, if_pos rfl, Nat.zero_add]
      by_cases hback : back = []
      · by_cases hnext : i.next ∈ branchTargets is
        · rw [if_pos ⟨hback, hnext⟩, if_pos hback, if_pos hnext]
          exact Nat.mul_one _
        · rw [if_neg fun hboth => hnext hboth.2, if_pos hback, if_neg hnext]
          rfl
      · rw [if_neg fun hboth => hback hboth.1, if_neg hback]
        rfl
  have htable : i.tableNodes (targetOf is body.code.size) (addrBehindAll (pIL + 1) pre) = []
      ↔ i.slots = [] := by
    rw [← List.length_eq_zero_iff, RawInstr.tableNodes, tableNodes_length, RawInstr.slotTargets,
      List.length_map, List.length_eq_zero_iff]
  have hann : annotate leaveMethod body.eh (branchTargets is) pre i post = _ := if_neg htail
  rw [hslots, nodeExcess, h.placement_instr hs his htail, excess_nodeItems, instrNode_opcode,
    instrPushes, hann]
  simp only [htable, List.map_eq_nil_iff, List.length_map]
  by_cases hnone : i.slots = []
  · rw [if_pos hnone, if_pos hnone]
    cases (instrPlacement leaveMethod body.eh (branchTargets is) pre i post).after with
    | none => exact Nat.add_assoc _ _ _ |>.symm
    | some p => exact Nat.add_assoc _ _ _ |>.symm
  · have hafter : (instrPlacement leaveMethod body.eh (branchTargets is) pre i post).after = none := by
      have hswitch := h.decoded.slots_switch (by rw [his]; simp) hnone
      simp only [instrPlacement]
      rw [ownProbes_switch hswitch, if_neg fun hboth => List.cons_ne_nil _ _ hboth.1]
      rfl
    rw [if_neg hnone, if_neg hnone, hafter]
    by_cases hnext : i.next ∈ branchTargets is
    · simp only [if_pos hnext, Option.toList_none, Option.toList_some, List.length_cons,
        List.length_nil, probePushes_eq]
      omega
    · rw [if_neg hnext, if_neg hnext]
      exact Nat.add_assoc _ _ _ |>.symm

/-- What is added at the nodes of the last instructions. -/
theorem sum_excess_from (leaveMethod : Probe) (post : List RawInstr) : ∀ pre, is = pre ++ post →
    importPushes post + ((scanned (freshBehind s.fresh
          (importedNodes (targetOf is body.code.size) (pIL + 1) pre))
        (importedNodes (targetOf is body.code.size) (addrBehindAll (pIL + 1) pre) post)).map
          (nodeExcess leaveMethod s)).sum
      = bodyPushes leaveMethod body.eh (branchTargets is) pre post := by
  induction post with
  | nil => exact fun _ _ => rfl
  | cons i post ih =>
      intro pre his
      have hrest := ih (pre ++ [i]) (by rw [his]; simp)
      have hi : i ∈ is := by rw [his]; simp
      have hop := instrNode_opcode (targetOf is body.code.size) (addrBehindAll (pIL + 1) pre) i
      have haddr : addrBehindAll (pIL + 1) (pre ++ [i])
          = addrBehind (addrBehindAll (pIL + 1) pre) i := by
        rw [addrBehindAll, List.foldl_append]
        rfl
      have hpushes : importPushes (i :: post) = rgnStackPushes i.opcode + importPushes post := rfl
      rw [importedNodes_append, freshBehind_append, haddr, importedNodes, importedNodes,
        List.append_nil] at hrest
      rw [bodyPushes, hpushes]
      by_cases htail : i.opcode = ceeTailcall
      · have htable : i.tableNodes (targetOf is body.code.size) (addrBehindAll (pIL + 1) pre) = [] :=
          h.decoded.tableNodes_eq_nil hi (by rw [htail]; decide) _ _
        have hpush : rgnStackPushes i.opcode = 0 := by rw [htail]; decide
        rw [htable, freshBehind, if_pos (hop.trans htail), freshBehind] at hrest
        rw [importedNodes, htable, List.nil_append, scanned, if_pos (hop.trans htail), List.map_cons,
          List.map_cons, List.sum_cons, List.sum_cons, ← hrest,
          ← h.excess_tail hs his htail (importedNodes (targetOf is body.code.size)
            (addrBehind (addrBehindAll (pIL + 1) pre) i) post), hpush]
        omega
      · have htable : ∀ j ∈ i.tableNodes (targetOf is body.code.size) (addrBehindAll (pIL + 1) pre),
            j.m_opcode = ceeSwitchArg := fun j hj => tableNodes_opcode hj
        rw [freshBehind, if_neg (by rw [hop]; exact htail), freshBehind_slots htable] at hrest
        rw [importedNodes, scanned, if_neg (by rw [hop]; exact htail), scanned_slots htable,
          List.map_cons, List.map_append, List.sum_cons, List.sum_append, ← hrest,
          ← h.excess_plain hs his htail]
        omega

end ValidBody

end Sums

/-- **The stack counter behind the rewriting.** -/
theorem ValidBody.exists_counted {body : MethodBody} {is : List RawInstr} (h : ValidBody body is)
    (covProb : Probe → ProbeCall) (methodId : Int32) (isMain : Bool) :
    ∃ s s' enter gs ends, importBody body = .ok s ∧ s.rewriteIL covProb methodId isMain = .ok s'
      ∧ RewrittenBody covProb methodId isMain body is s' enter gs ∧ HandlerEnds body is s' gs ends
      ∧ s'.m_maxStack % 2 ^ 32 = untruncatedMaxStack isMain body is % 2 ^ 32 := by
  obtain ⟨s, s', enter, gs, ends, hs, hrewrite, hr, hends, himported, hpushed⟩ :=
    h.exists_rewritten_ends covProb methodId isMain
  refine ⟨s, s', enter, gs, ends, hs, hrewrite, hr, hends, ?_⟩
  have hsum := h.sum_excess_from himported (ILRewriter.leaveMethod isMain) is [] rfl
  have hanchors : s.countOffsets.anchors = scanned s.countOffsets.fresh
      (importedNodes (targetOf is body.code.size) (pIL + 1) is) := by
    rw [ILRewriter.anchors, himported.list_eq]
  have hgrowth : importPushes is + s.countOffsets.stackGrowth (ILRewriter.leaveMethod isMain)
      = bodyPushes (ILRewriter.leaveMethod isMain) body.eh (branchTargets is) [] is + enterPushes := by
    rw [← hsum, stackGrowth, hanchors, ← Nat.add_assoc]
    rfl
  rw [hpushed.maxStack, Nat.add_mod, importBody_pushed h.decodes hs, ← Nat.add_mod, Nat.add_assoc,
    hgrowth, ← Nat.add_assoc]
  rfl

end TestExecutor
