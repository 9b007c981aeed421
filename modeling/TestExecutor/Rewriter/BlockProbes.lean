import TestExecutor.IL.CfgExact
import TestExecutor.Rewriter.CallOffsets

/-!
# Probes at the ends of blocks

The rewriter and the control-flow graph know nothing of each other.  On bodies without `tail.` the
calls that a run has made are compared with the blocks that it has completed.

* `terminator_iff_probedBefore` — what ends a block for the graph has a probe in front of it;
* `annotate_before_ne_nil_iff`, `annotate_after_ne_none` — the probes around one instruction;
* `RewrittenBody.called_behind_iff` — when a call with the offset of an instruction has been made;
* `ValidBody.before_final_iff`, `ValidBody.after_final` — the probes at the end of a block;
* `EndCalled`, `EndCompleted`, `RewrittenBody.called_final_iff` — the calls for the ends of blocks.
-/

namespace TestExecutor

open TestExecutor.Library ILRewriter

/-! ### Around one instruction -/

/-- What ends a block for the graph, calls apart, has its own probe in front of it. -/
theorem terminator_iff_probedBefore {opcode : ℕ} (hlt : opcode < ceeCount)
    (htail : opcode ≠ ceeTailcall) (hjmp : opcode ≠ ceeJmp) :
    (opCtrl opcode = .ctrlBranch ∨ opCtrl opcode = .ctrlCondBranch ∨ opCtrl opcode = .ctrlReturn
      ∨ opCtrl opcode = .ctrlThrow) ↔ ProbedBefore opcode := by
  have hall : ∀ opcode < ceeCount, opcode ≠ ceeTailcall → opcode ≠ ceeJmp →
      ((opCtrl opcode = .ctrlBranch ∨ opCtrl opcode = .ctrlCondBranch
        ∨ opCtrl opcode = .ctrlReturn ∨ opCtrl opcode = .ctrlThrow) ↔ ProbedBefore opcode) := by
    decide +kernel
  exact hall opcode hlt htail hjmp

/-- A store to a static field that stands behind no prefix. -/
def BareStsfld (pre : List RawInstr) (i : RawInstr) : Prop :=
  i.opcode = ceeStsfld ∧ ∀ p, pre.getLast? = some p → ¬IsPrefix p.opcode

theorem lastOpcode_getLast? (pre : List RawInstr) :
    lastOpcode none (pre.map RawInstr.opcode) = pre.getLast?.map RawInstr.opcode := by
  rcases List.eq_nil_or_concat pre with rfl | ⟨front, p, rfl⟩
  · rfl
  · rw [List.concat_eq_append, List.map_append, List.map_singleton, lastOpcode_concat,
      List.getLast?_append_of_ne_nil _ (List.cons_ne_nil _ _)]
    rfl

section Annotations

variable {leaveMethod : Probe} {eh : List EhInfo} {targets : List ℕ} {pre post : List RawInstr}
  {i : RawInstr} {q : Probe × ℕ}

/-- **The own probe in front** of an instruction outside tail calls. -/
theorem ownProbes_before_iff (htail : i.opcode ≠ ceeTailcall)
    (hflag : tailFlag false (pre.map RawInstr.opcode) = false) :
    (ownProbes leaveMethod pre i post).filter Prod.snd ≠ [] ↔ ProbedBefore i.opcode
      ∨ BareStsfld pre i ∨ (IsPrefix i.opcode ∧ post.head?.map RawInstr.opcode = some ceeStsfld) := by
  rw [ownProbes, nodeProbes, hflag, lastOpcode_getLast?]
  by_cases hstsfld : i.opcode = ceeStsfld
  · have hplain : ¬ProbedBefore i.opcode ∧ ¬IsPrefix i.opcode := by rw [hstsfld]; decide
    rw [if_pos hstsfld, or_iff_right hplain.1, or_iff_left fun hboth => hplain.2 hboth.1, BareStsfld,
      and_iff_right hstsfld]
    cases pre.getLast? with
    | none => simp
    | some p => by_cases hp : IsPrefix p.opcode <;> simp [hp]
  · have hbare : ¬BareStsfld pre i := fun hbare => hstsfld hbare.1
    rw [if_neg hstsfld]
    by_cases hboth : IsPrefix i.opcode ∧ post.head?.map RawInstr.opcode = some ceeStsfld
    · rw [if_pos hboth]
      exact iff_of_true (List.cons_ne_nil _ _) (Or.inr (Or.inr hboth))
    · rw [if_neg hboth, if_neg (by simp), Ne, ownProbe_before_iff htail, not_not,
        or_iff_left (not_or.mpr ⟨hbare, hboth⟩)]

/-- **In front of an instruction** there is a probe if it has its own there, or starts a handler. -/
theorem annotate_before_ne_nil_iff (htail : i.opcode ≠ ceeTailcall)
    (hflag : tailFlag false (pre.map RawInstr.opcode) = false) :
    (annotate leaveMethod eh targets pre i post).before ≠ [] ↔ ProbedBefore i.opcode
      ∨ (∃ c ∈ eh, c.handlerOffset = i.offset) ∨ BareStsfld pre i
      ∨ (IsPrefix i.opcode ∧ post.head?.map RawInstr.opcode = some ceeStsfld) := by
  have hhandler : handlerProbes eh i.offset ≠ [] ↔ ∃ c ∈ eh, c.handlerOffset = i.offset := by
    rw [Ne, handlerProbes_eq_nil_iff]
    simp
  unfold annotate
  rw [if_neg htail]
  dsimp only [instrPlacement]
  rw [Ne, List.map_eq_nil_iff, List.append_eq_nil_iff, List.map_eq_nil_iff, not_and_or, ← Ne, ← Ne,
    hhandler, ownProbes_before_iff htail hflag]
  exact or_left_comm

/-- Only calls have their own probe behind them. -/
theorem isCallOpcode_of_ownProbes {x : Probe × Bool} (hx : x ∈ ownProbes leaveMethod pre i post)
    (hside : x.2 = false) : IsCallOpcode i.opcode := by
  have before : ∀ {p : Probe}, x ∈ [(p, true)] → IsCallOpcode i.opcode := by
    intro p hmem
    rw [List.mem_singleton.mp hmem] at hside
    cases hside
  rw [ownProbes, nodeProbes] at hx
  split at hx
  · split at hx
    · exact absurd hx List.not_mem_nil
    · exact before hx
  · split at hx
    · exact before hx
    · split at hx
      · exact absurd hx List.not_mem_nil
      · by_contra hcall
        rw [Option.mem_toList, ownProbe, if_neg hcall] at hx
        split_ifs at hx <;> cases hx <;> cases hside

theorem ownProbes_call (hcall : IsCallOpcode i.opcode)
    (hflag : tailFlag false (pre.map RawInstr.opcode) = false) :
    ownProbes leaveMethod pre i post = [(.call, false)] := by
  have hkind : i.opcode ≠ ceeStsfld ∧ ¬IsPrefix i.opcode ∧ ¬opcodeIsBranch i.opcode = true := by
    rcases hcall with hop | hop | hop | hop <;> rw [hop] <;> decide
  rw [ownProbes, nodeProbes, hflag, if_neg hkind.1, if_neg fun hboth => hkind.2.1 hboth.1,
    if_neg (by simp), ownProbe, if_neg hkind.2.2, if_pos hcall]
  rfl

/-- **Behind the last instruction of a block** without a probe in front of it there is one. -/
theorem annotate_after_ne_none (htail : i.opcode ≠ ceeTailcall)
    (hflag : tailFlag false (pre.map RawInstr.opcode) = false) (hslots : i.slots = [])
    (hbefore : (annotate leaveMethod eh targets pre i post).before = [])
    (hfinal : IsCallOpcode i.opcode ∨ i.next ∈ targets) :
    (annotate leaveMethod eh targets pre i post).after ≠ none := by
  unfold annotate at hbefore ⊢
  rw [if_neg htail] at hbefore ⊢
  dsimp only [instrPlacement] at hbefore ⊢
  rw [List.map_eq_nil_iff, List.append_eq_nil_iff, List.map_eq_nil_iff] at hbefore
  obtain ⟨hhandler, hown⟩ := hbefore
  rw [if_pos hslots]
  by_cases hcall : IsCallOpcode i.opcode
  · have hcalls : ownProbes leaveMethod pre i post = [(.call, false)] :=
      ownProbes_call hcall hflag
    rw [hcalls, if_neg fun hboth => List.cons_ne_nil _ _ hboth.1]
    exact Option.some_ne_none _
  · have hnone : ownProbes leaveMethod pre i post = [] := by
      refine List.eq_nil_iff_forall_not_mem.mpr fun x hx => ?_
      cases hside : x.2 with
      | true =>
          have hmem : x ∈ (ownProbes leaveMethod pre i post).filter Prod.snd :=
            List.mem_filter.mpr ⟨hx, hside⟩
          rw [hown] at hmem
          exact List.not_mem_nil hmem
      | false => exact hcall (isCallOpcode_of_ownProbes hx hside)
    rw [hnone, hhandler, if_pos ⟨rfl, rfl⟩, if_pos ⟨hslots, hfinal.resolve_left hcall, hflag⟩]
    exact Option.some_ne_none _

end Annotations

namespace ValidBody

variable {body : MethodBody} {is : List RawInstr} (h : ValidBody body is)

include h

/-- Outside tail calls the flag of the scan is not set. -/
theorem tailFlag_false (htails : ∀ i ∈ is, i.opcode ≠ ceeTailcall) (j : ℕ) :
    tailFlag false ((is.take j).map RawInstr.opcode) = false := by
  rw [Bool.eq_false_iff, Ne, h.tailFlag_iff (List.take_append_drop j is).symm]
  rintro ⟨front, p, htail, hpre | ⟨c, hpre⟩⟩
  · exact htails p (List.take_subset j is (by rw [hpre]; simp)) htail
  · exact htails p (List.take_subset j is (by rw [hpre]; simp)) htail

end ValidBody

namespace RewrittenBody

variable {covProb : Probe → ProbeCall} {methodId : Int32} {isMain : Bool} {body : MethodBody}
  {is : List RawInstr} {s' : ILRewriter} {enter : List ILInstr} {gs : List Group} {i : RawInstr}
  {j k : ℕ} {vs : List (MarkedInstr × Passage)} {c : MarkedInstr} {rest : List MarkedInstr}
  (hr : RewrittenBody covProb methodId isMain body is s' enter gs) (h : ValidBody body is)
  (htails : ∀ i ∈ is, i.opcode ≠ ceeTailcall)

include hr h htails

/-- **When a probe has been called with the offset of an instruction**, behind the entry: by a probe in
front of it if control has come to it, and by the probe behind it if control has fallen on from it. -/
theorem called_behind_iff (ho : enter.map ILInstr.content
      = enterContents covProb methodId (enterMethod isMain) 0)
    (hrun : ListRun (markedList isMain body is 0 enter gs) s'.m_pEH vs (c :: rest))
    (hc : c.mark = some (.instr k)) (hi : is[j]? = some i) (p : Probe) :
    .call p i.offset ∈ (passed vs).tail
      ↔ MakesCall (leaveMethod isMain) body is (visitedInstrs vs) k j p i.offset := by
  rw [hr.mem_passed_iff h ho hrun hc]
  refine ⟨fun hexists => ?_, fun hcall => ⟨j, hcall⟩⟩
  obtain ⟨j', hcall⟩ := hexists
  obtain ⟨i', hi'⟩ := hcall.exists_instr
  obtain rfl := h.position_of_call hi hi' (htails i' (List.mem_of_getElem? hi')) hcall.around
  exact hcall

end RewrittenBody

/-! ### The ends of blocks -/

/-- The last instruction of a block ends it for the graph, or stands in front of a branch target. -/
theorem CfgExact.final_cases {m : Method} {body : MethodBody} {is : List RawInstr} {cfg : CfgInfo}
    (hcfg : CfgExact m body.eh is cfg) (h : ValidBody body is) {b : ℕ}
    (hb : b ∈ cfg.sortedBasicBlocks) {i : RawInstr} (hi : i ∈ is)
    (hfinal : i.offset = (cfg.basicBlocks b).finalOffset) :
    i.EndsBlock ∨ i.next ∈ branchTargets is := by
  have hle := (hcfg.bounds b hb).2.2
  obtain ⟨hreach, hends⟩ := hcfg.inside b hb i hi (hfinal ▸ hle) (le_of_eq hfinal)
  by_cases hinner : i.EndsBlock
  · exact Or.inl hinner
  refine Or.inr ?_
  have hfalls : i.FallsThrough := Or.inr fun hterm => hinner (Or.inl hterm)
  rcases (hends.mp hfinal).resolve_left hinner with hentry | ⟨i', hi', -, hends', hsucc⟩
  · -- control does not fall into handlers
    rcases List.mem_cons.mp hentry with hzero | hentry
    · have := i.offset_lt_next
      omega
    · obtain ⟨c, hc, hentry⟩ := List.mem_flatMap.mp hentry
      exact absurd hentry (h.handlers i hi hreach hfalls c hc)
  · rcases List.mem_append.mp hsucc with hnext | htarget
    · -- another instruction does not end at the same place
      split at hnext
      · have heq := List.mem_singleton.mp hnext
        have hcons := h.decoded.consecutive
        have hlt := i.offset_lt_next
        have hlt' := i'.offset_lt_next
        obtain rfl : i = i' := by
          rcases Nat.le_total i.offset i'.offset with hle | hle
          · exact hcons.disjoint hi hi' hle (by omega)
          · exact (hcons.disjoint hi' hi hle (by omega)).symm
        exact absurd hends' hinner
      · exact absurd hnext List.not_mem_nil
    · exact List.mem_flatMap.mpr ⟨i', hi', htarget⟩

section Ends

variable {leaveMethod : Probe} {body : MethodBody} {is : List RawInstr} {i : RawInstr} {j : ℕ}
  (h : ValidBody body is) (hplain : ∀ i ∈ is, i.opcode ≠ ceeTailcall ∧ i.opcode ≠ ceeJmp)

include h hplain

/-- **In front of the last instruction of a block** there is a probe unless it is a call, or one of
those that end no block for themselves, apart from stores to static fields and starts of handlers. -/
theorem ValidBody.before_final_iff (hi : is[j]? = some i)
    (hfinal : i.EndsBlock ∨ i.next ∈ branchTargets is) :
    (annotationAt leaveMethod body is j).before ≠ [] ↔ i.IsTerminator
      ∨ (∃ c ∈ body.eh, c.handlerOffset = i.offset) ∨ BareStsfld (is.take j) i := by
  have hmem := List.mem_of_getElem? hi
  obtain ⟨htail, hjmp⟩ := hplain i hmem
  have hterm : i.IsTerminator ↔ ProbedBefore i.opcode := by
    rw [← terminator_iff_probedBefore (h.decoded.opcode_lt hmem) htail hjmp, RawInstr.IsTerminator]
    simp [hjmp]
  have hpref : ¬IsPrefix i.opcode := by
    intro hpref
    rcases hfinal with (hterm' | hcall) | hnext
    · have hno : ¬ProbedBefore i.opcode := by
        rcases hpref with hop | hop | hop | hop | hop
        · rw [hop]; decide
        · rw [hop]; decide
        · exact absurd hop htail
        · rw [hop]; decide
        · rw [hop]; decide
      exact hno (hterm.mp hterm')
    · rcases hcall with hcall | hcall | hcall <;> rw [hcall] at hpref <;>
        exact absurd hpref (by decide)
    · exact h.next_notMem hmem hpref hnext
  rw [annotationAt_eq hi, annotate_before_ne_nil_iff htail
    (h.tailFlag_false (fun i hi => (hplain i hi).1) j), hterm]
  simp [hpref]

/-- Behind such an instruction there is one. -/
theorem ValidBody.after_final (hi : is[j]? = some i)
    (hfinal : i.EndsBlock ∨ i.next ∈ branchTargets is)
    (hbefore : (annotationAt leaveMethod body is j).before = []) :
    ∃ p, (annotationAt leaveMethod body is j).after = some (p, i.offset) := by
  have hmem := List.mem_of_getElem? hi
  obtain ⟨htail, hjmp⟩ := hplain i hmem
  have hterm : ¬i.IsTerminator := fun hterm =>
    (h.before_final_iff hplain hi hfinal).mpr (Or.inl hterm) hbefore
  have hslots : i.slots = [] := by
    by_contra hslots
    have hswitch := h.decoded.slots_switch hmem hslots
    refine hterm (Or.inr (Or.inl ?_))
    rw [hswitch]
    rfl
  have hcall : IsCallOpcode i.opcode ∨ i.next ∈ branchTargets is := by
    rcases hfinal with (hterm' | hcall) | hnext
    · exact absurd hterm' hterm
    · rcases hcall with hcall | hcall | hcall
      · exact Or.inl (Or.inl hcall)
      · exact Or.inl (Or.inr (Or.inr (Or.inl hcall)))
      · exact Or.inl (Or.inr (Or.inr (Or.inr hcall)))
    · exact Or.inr hnext
  rw [annotationAt_eq hi] at hbefore ⊢
  have hsome := annotate_after_ne_none htail (h.tailFlag_false (fun i hi => (hplain i hi).1) j)
    hslots hbefore hcall
  obtain ⟨q, hq⟩ := Option.ne_none_iff_exists'.mp hsome
  rcases annotate_after_offset htail (Option.mem_def.mpr hq) with ⟨-, ho⟩ | ⟨hslots', -⟩
  · exact ⟨q.1, by rw [hq, ← ho]⟩
  · exact absurd hslots hslots'

end Ends

/-- When a probe behind the entry has been called for the block that ends with an instruction: if
control has fallen on from it, or if it has come to it and a probe stands in front of it. -/
def EndPassed (body : MethodBody) (is : List RawInstr) (ds : List (ℕ × Passage)) (k j : ℕ)
    (i : RawInstr) : Prop :=
  (j, .fell) ∈ ds ∨ (Arrived ds k j
    ∧ (i.IsTerminator ∨ (∃ c ∈ body.eh, c.handlerOffset = i.offset) ∨ BareStsfld (is.take j) i))

/-- The call at the entry is one for the first instruction. -/
def EndCalled (body : MethodBody) (is : List RawInstr) (ds : List (ℕ × Passage)) (k j : ℕ)
    (i : RawInstr) : Prop :=
  j = 0 ∨ EndPassed body is ds k j i

/-- The run has completed the block that ends with an instruction: control has come to it, and has
passed it if it is a call. -/
def EndCompleted (ds : List (ℕ × Passage)) (k j : ℕ) (i : RawInstr) : Prop :=
  Arrived ds k j ∧ (i.IsDemandingCall → (j, .fell) ∈ ds)

theorem RawInstr.IsTerminator.not_isDemandingCall {i : RawInstr} (h : i.IsTerminator) :
    ¬i.IsDemandingCall := by
  rintro (hcall | hcall | hcall) <;> rw [RawInstr.IsTerminator, hcall] at h <;>
    exact absurd h (by decide)

section Completed

variable {body : MethodBody} {is : List RawInstr} {ds : List (ℕ × Passage)} {i : RawInstr} {j k : ℕ}

/-- A block that was left by its end has been called for. -/
theorem EndPassed.of_left (harrived : Arrived ds k j) (hleft : ¬i.IsTerminator → (j, .fell) ∈ ds) :
    EndPassed body is ds k j i := by
  by_cases hterm : i.IsTerminator
  · exact Or.inr ⟨harrived, Or.inl hterm⟩
  · exact Or.inl (hleft hterm)

/-- **A block that was called for has been completed**, unless it ends with a call that has raised an
exception, and at which the method or a handler starts. -/
theorem EndCalled.completed_iff (hrun : CodeRun body is ds k) (hcalled : EndCalled body is ds k j i) :
    EndCompleted ds k j i ↔ ¬(i.IsDemandingCall ∧ (j, .fell) ∉ ds
      ∧ (j = 0 ∨ ∃ c ∈ body.eh, c.handlerOffset = i.offset)) := by
  constructor
  · rintro ⟨-, hpassed⟩ ⟨hcall, hnot, -⟩
    exact hnot (hpassed hcall)
  · intro hstart
    rcases hcalled with rfl | hfell | ⟨harrived, hbefore⟩
    · refine ⟨hrun.arrived_zero, fun hcall => ?_⟩
      by_contra hnot
      exact hstart ⟨hcall, hnot, Or.inl rfl⟩
    · exact ⟨Or.inr ⟨_, hfell⟩, fun _ => hfell⟩
    · refine ⟨harrived, fun hcall => ?_⟩
      by_contra hnot
      rcases hbefore with hterm | hentry | ⟨hstsfld, -⟩
      · exact absurd hcall hterm.not_isDemandingCall
      · exact hstart ⟨hcall, hnot, Or.inr hentry⟩
      · rcases hcall with hcall | hcall | hcall <;> rw [hcall] at hstsfld <;>
          exact absurd hstsfld (by decide)

end Completed

section Called

variable {covProb : Probe → ProbeCall} {methodId : Int32} {isMain : Bool} {body : MethodBody}
  {is : List RawInstr} {s' : ILRewriter} {enter : List ILInstr} {gs : List Group} {m : Method}
  {cfg : CfgInfo} {vs : List (MarkedInstr × Passage)} {c : MarkedInstr} {rest : List MarkedInstr}
  {j k b : ℕ} {i : RawInstr} (hr : RewrittenBody covProb methodId isMain body is s' enter gs)
  (h : ValidBody body is) (hplain : ∀ i ∈ is, i.opcode ≠ ceeTailcall ∧ i.opcode ≠ ceeJmp)
  (hcfg : CfgExact m body.eh is cfg)
  (ho : enter.map ILInstr.content = enterContents covProb methodId (enterMethod isMain) 0)
  (hrun : ListRun (markedList isMain body is 0 enter gs) s'.m_pEH vs (c :: rest))
  (hc : c.mark = some (.instr k)) (hb : b ∈ cfg.sortedBasicBlocks) (hi : is[j]? = some i)
  (hfinal : i.offset = (cfg.basicBlocks b).finalOffset)

include hr h hplain hcfg ho hrun hc hb hi hfinal

/-- **The calls for the ends of blocks**, behind the entry. -/
theorem RewrittenBody.passed_final_iff : (∃ p, .call p i.offset ∈ (passed vs).tail)
    ↔ EndPassed body is (visitedInstrs vs) k j i := by
  have hends := hcfg.final_cases h hb (List.mem_of_getElem? hi) hfinal
  have hbefore := @ValidBody.before_final_iff (leaveMethod isMain) _ _ _ _ h hplain hi hends
  have hcalls := hr.called_behind_iff h (fun i hi => (hplain i hi).1) ho hrun hc hi
  rw [EndPassed, ← hbefore]
  constructor
  · rintro ⟨p, hp⟩
    rcases (hcalls p).mp hp with ⟨harrived, hmem⟩ | ⟨hfell, -⟩
    · exact Or.inr ⟨harrived, List.ne_nil_of_mem hmem⟩
    · exact Or.inl hfell
  · have front : Arrived (visitedInstrs vs) k j →
        (annotationAt (leaveMethod isMain) body is j).before ≠ [] →
        ∃ p, .call p i.offset ∈ (passed vs).tail := by
      intro harrived hne
      obtain ⟨⟨p, o⟩, hmem⟩ := List.exists_mem_of_ne_nil _ hne
      have hoffset := hmem
      rw [annotationAt_eq hi] at hoffset
      obtain rfl := annotate_before_offset (hplain i (List.mem_of_getElem? hi)).1 hoffset
      exact ⟨p, (hcalls p).mpr (Or.inl ⟨harrived, hmem⟩)⟩
    rintro (hfell | ⟨harrived, hne⟩)
    · by_cases hnone : (annotationAt (leaveMethod isMain) body is j).before = []
      · obtain ⟨p, hp⟩ := h.after_final hplain hi hends hnone
        exact ⟨p, (hcalls p).mpr (Or.inr ⟨hfell, hp⟩)⟩
      · exact front (Or.inr ⟨_, hfell⟩) hnone
    · exact front harrived hne

theorem RewrittenBody.called_final_iff : (∃ p, .call p i.offset ∈ passed vs)
    ↔ EndCalled body is (visitedInstrs vs) k j i := by
  have hpassed := hr.passed_eq h ho hrun hc
  rw [EndCalled, ← hr.passed_final_iff h hplain hcfg ho hrun hc hb hi hfinal, hpassed,
    List.tail_cons]
  simp only [List.mem_cons, Mark.call.injEq, h.offset_eq_zero_iff hi, exists_or, exists_eq_left]

end Called

end TestExecutor
