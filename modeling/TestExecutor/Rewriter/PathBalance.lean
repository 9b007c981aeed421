import TestExecutor.Rewriter.Preserved

/-!
# Enter and leave probes on a path

Which probes a run of the rewritten list has called when it is about to leave the method.

* `Probe.IsEnter`, `Probe.IsLeave`, `Probe.IsPlain` — kinds of probes;
* `annotate_plain`, `annotate_ret`, `annotate_tail` — what stands in front of an instruction;
* `CodeRun.not_leaves`, `runMarks_plain` — what a run has passed;
* `ProbesBalanced` — one enter probe, and at the exit one leave or tail call probe;
* `probes_balanced_iff` — that is so if no run gets to the `ret` of a tail call.
-/

namespace TestExecutor

open TestExecutor.Library ILRewriter

/-! ### Kinds of probes -/

namespace Probe

def IsEnter (p : Probe) : Prop := p = .enter ∨ p = .enterMain

def IsLeave (p : Probe) : Prop := p = .leave ∨ p = .leaveMain

/-- A probe that neither opens nor closes a frame. -/
def IsPlain (p : Probe) : Prop := ¬p.IsEnter ∧ ¬p.IsLeave ∧ p ≠ .tailcall

instance (p : Probe) : Decidable p.IsEnter := by unfold IsEnter; infer_instance

instance (p : Probe) : Decidable p.IsLeave := by unfold IsLeave; infer_instance

instance (p : Probe) : Decidable p.IsPlain := by unfold IsPlain; infer_instance

theorem isPlain_coverage : Probe.coverage.IsPlain := by decide

theorem isLeave_leaveMethod (isMain : Bool) : (leaveMethod isMain).IsLeave := by
  cases isMain <;> decide

theorem not_isLeave_enterMethod (isMain : Bool) : ¬(enterMethod isMain).IsLeave := by
  cases isMain <;> decide

theorem not_isEnter_leaveMethod (isMain : Bool) : ¬(leaveMethod isMain).IsEnter := by
  cases isMain <;> decide

end Probe

/-! ### The probes of an instruction -/

section Annotations

variable {leaveMethod : Probe} {eh : List EhInfo} {targets : List ℕ} {pre post : List RawInstr}
  {i : RawInstr}

theorem handlerProbes_plain {o : ℕ} : ∀ p ∈ handlerProbes eh o, p.IsPlain := by
  intro p hp
  rw [List.eq_of_mem_replicate hp]
  decide

/-- The own probe of an instruction, unless it is a `ret`. -/
theorem ownProbes_plain (hret : i.opcode ≠ ceeRet) :
    ∀ q ∈ ownProbes leaveMethod pre i post, q.1.IsPlain := by
  intro q hq
  rw [ownProbes, nodeProbes] at hq
  split at hq
  · split at hq
    · exact absurd hq List.not_mem_nil
    · rw [List.mem_singleton.mp hq]
      decide
  · split at hq
    · rw [List.mem_singleton.mp hq]
      decide
    · split at hq
      · exact absurd hq List.not_mem_nil
      · rw [Option.mem_toList, ownProbe, if_neg hret] at hq
        split_ifs at hq <;> cases hq <;> decide

/-- What stands around an instruction that closes no frame. -/
theorem annotate_plain (hret : i.opcode ≠ ceeRet) (htail : i.opcode ≠ ceeTailcall) :
    (∀ q ∈ (annotate leaveMethod eh targets pre i post).before, q.1.IsPlain)
      ∧ ∀ q ∈ (annotate leaveMethod eh targets pre i post).after, q.1.IsPlain := by
  have hown := @ownProbes_plain leaveMethod pre post _ hret
  unfold annotate
  rw [if_neg htail]
  dsimp only [instrPlacement]
  constructor
  · intro q hq
    obtain ⟨p, hp, rfl⟩ := List.mem_map.mp hq
    rcases List.mem_append.mp hp with hp | hp
    · exact handlerProbes_plain p hp
    · obtain ⟨x, hx, rfl⟩ := List.mem_map.mp hp
      exact hown x (List.mem_of_mem_filter hx)
  · intro q hq
    split at hq
    · obtain ⟨p, hp, rfl⟩ := Option.map_eq_some_iff.mp hq
      split at hp
      · split at hp
        · cases hp
          exact Probe.isPlain_coverage
        · cases hp
      · obtain ⟨x, hx, rfl⟩ := Option.map_eq_some_iff.mp hp
        exact hown x (List.mem_of_find?_eq_some hx)
    · split at hq
      · cases hq
        exact Probe.isPlain_coverage
      · cases hq

/-- **In front of a `ret`** stands the leave probe, unless it closes a tail call. -/
theorem annotate_ret (hret : i.opcode = ceeRet) :
    (annotate leaveMethod eh targets pre i post).before
      = ((handlerProbes eh i.offset).map fun p => (p, i.offset))
        ++ if tailFlag false (pre.map RawInstr.opcode) = true then [] else [(leaveMethod, i.offset)] := by
  have hown : ownProbes leaveMethod pre i post
      = if tailFlag false (pre.map RawInstr.opcode) = true then [] else [(leaveMethod, true)] := by
    rw [ownProbes, nodeProbes, hret, if_neg (by decide), if_neg fun hboth => absurd hboth.1 (by decide)]
    split
    · rename_i hboth
      rw [if_pos hboth.1]
    · rename_i hnot
      rw [if_neg fun hflag => hnot ⟨hflag, Or.inr rfl⟩]
      rfl
  unfold annotate
  rw [hret, if_neg (by decide)]
  dsimp only [instrPlacement]
  rw [hown, List.map_append]
  split <;> rfl

/-- **In front of a `tail.`** stands its probe. -/
theorem annotate_tail (htail : i.opcode = ceeTailcall) {c r : RawInstr} {rest : List RawInstr}
    (hpost : post = c :: r :: rest) : (annotate leaveMethod eh targets pre i post).before
      = ((handlerProbes eh i.offset ++ [Probe.coverage]).map fun p => (p, r.offset))
        ++ [(Probe.tailcall, c.offset)] := by
  subst hpost
  rw [annotate, if_pos htail]

/-- No instruction has the probe at the entry. -/
theorem annotate_not_isEnter {isMain : Bool} {q : Probe × ℕ}
    (hq : q ∈ (annotate (ILRewriter.leaveMethod isMain) eh targets pre i post).before) :
    ¬q.1.IsEnter := by
  by_cases hret : i.opcode = ceeRet
  · rw [annotate_ret hret] at hq
    rcases List.mem_append.mp hq with hq | hq
    · obtain ⟨p, hp, rfl⟩ := List.mem_map.mp hq
      exact (handlerProbes_plain p hp).1
    · split at hq
      · exact absurd hq List.not_mem_nil
      · obtain rfl := List.mem_singleton.mp hq
        exact Probe.not_isEnter_leaveMethod isMain
  · by_cases htail : i.opcode = ceeTailcall
    · unfold annotate at hq
      rw [if_pos htail] at hq
      split at hq
      · rcases List.mem_append.mp hq with hq | hq
        · obtain ⟨p, hp, rfl⟩ := List.mem_map.mp hq
          rcases List.mem_append.mp hp with hp | hp
          · exact (handlerProbes_plain p hp).1
          · obtain rfl := List.mem_singleton.mp hp
            exact Probe.isPlain_coverage.1
        · obtain rfl := List.mem_singleton.mp hq
          exact of_decide_eq_false rfl
      · exact absurd hq List.not_mem_nil
    · exact ((annotate_plain hret htail).1 q hq).1

end Annotations

/-! ### What a run has passed -/

theorem mem_calls {probes : List (Probe × ℕ)} {p : Probe} {o : ℕ}
    (h : Mark.call p o ∈ probes.map fun q => .call q.1 q.2) : (p, o) ∈ probes := by
  obtain ⟨q, hq, heq⟩ := List.mem_map.mp h
  obtain ⟨rfl, rfl⟩ := Mark.call.inj heq
  exact hq

theorem handlerCalls_plain {eh : List EhInfo} {o : ℕ} {p : Probe} {o' : ℕ}
    (h : Mark.call p o' ∈ ((handlerProbes eh o).map fun p => (p, o)).map fun q => .call q.1 q.2) :
    p.IsPlain := by
  obtain ⟨q, hq, heq⟩ := List.mem_map.mp (mem_calls h)
  obtain ⟨rfl, -⟩ := Prod.mk.inj heq
  exact handlerProbes_plain q hq

section Runs

variable {body : MethodBody} {is : List RawInstr} {vs : List (ℕ × Passage)} {k k' : ℕ} {e : Passage}

theorem CodeStep.not_leaves (h : CodeStep body is vs k e k') :
    ∃ i, is[k]? = some i ∧ ¬LeavesMethod i.opcode := by
  cases h with
  | @fall i hi hstays => exact ⟨i, hi, hstays⟩
  | @jump i _ hi _ htarget =>
      refine ⟨i, hi, fun hleaves => ?_⟩
      have hnone : i.targets = [] := by
        rw [RawInstr.targets]
        rcases hleaves with hop | hop | hop <;> rw [hop] <;> rfl
      rw [hnone] at htarget
      exact List.not_mem_nil htarget
  | @raise i _ _ hi hstays => exact ⟨i, hi, hstays⟩
  | @pass i _ _ _ _ hi hstays => exact ⟨i, hi, hstays⟩
  | @resume i _ _ _ _ hi hend =>
      refine ⟨i, hi, ?_⟩
      rw [hend]
      decide

/-- A run has not left the method before. -/
theorem CodeRun.not_leaves (h : CodeRun body is vs k) :
    ∀ v ∈ vs, ∃ i, is[v.1]? = some i ∧ ¬LeavesMethod i.opcode := by
  induction h with
  | entry => exact fun v hv => absurd hv List.not_mem_nil
  | step _ hstep ih =>
      intro v hv
      rcases List.mem_append.mp hv with hv | hv
      · exact ih v hv
      · obtain rfl := List.mem_singleton.mp hv
        exact hstep.not_leaves

/-- So the probes that it has called are plain. -/
theorem runMarks_plain (h : CodeRun body is vs k) (isMain : Bool) {p : Probe} {o : ℕ}
    (hcall : .call p o ∈ vs.flatMap fun v =>
      (annotationAt (leaveMethod isMain) body is v.1).marks v.1 v.2) : p.IsPlain := by
  obtain ⟨v, hv, hmem⟩ := List.mem_flatMap.mp hcall
  obtain ⟨i, hi, hstays⟩ := h.not_leaves v hv
  rw [annotationAt_eq hi] at hmem
  obtain ⟨hbefore, hafter⟩ := @annotate_plain (leaveMethod isMain) body.eh
    (branchTargets is) (is.take v.1) (is.drop (v.1 + 1)) _
    (fun hret => hstays (Or.inl hret)) fun htail => hstays (Or.inr (Or.inl htail))
  rcases List.mem_append.mp hmem with hmem | hmem
  · obtain ⟨q, hq, heq⟩ := List.mem_map.mp hmem
    obtain ⟨rfl, -⟩ := Mark.call.inj heq
    exact hbefore q hq
  · rcases List.mem_cons.mp hmem with heq | hmem
    · cases heq
    · split at hmem
      · obtain ⟨q, hq, heq⟩ := Option.map_eq_some_iff.mp (Option.mem_toList.mp hmem)
        obtain ⟨rfl, -⟩ := Mark.call.inj heq
        exact hafter q hq
      · exact absurd hmem List.not_mem_nil

end Runs

/-! ### What a path calls -/

/-- On every path the enter probe is called once, in front of everything else; in front of a `ret` the
leave probe has been called once, last, for that `ret`; in front of a `tail.` its probe has, and no
leave probe. -/
structure ProbesBalanced (isMain : Bool) (is : List RawInstr) (code : List MarkedInstr)
    (eh : List EHClause) (o : ℕ) : Prop where
  enter : ∀ (vs : List (MarkedInstr × Passage)) (c : MarkedInstr) (rest : List MarkedInstr) (k : ℕ),
    ListRun code eh vs (c :: rest) → c.mark = some (.instr k) →
    ∃ ms, passed vs = .call (enterMethod isMain) o :: ms ∧ ∀ p o', .call p o' ∈ ms → ¬p.IsEnter
  ret : ∀ (vs : List (MarkedInstr × Passage)) (c : MarkedInstr) (rest : List MarkedInstr) (k : ℕ)
    (i : RawInstr), ListRun code eh vs (c :: rest) → c.mark = some (.instr k) → is[k]? = some i →
    i.opcode = ceeRet → ∃ ms, passed vs = ms ++ [.call (leaveMethod isMain) i.offset]
      ∧ ∀ p o', .call p o' ∈ ms → ¬p.IsLeave
  tailcall : ∀ (vs : List (MarkedInstr × Passage)) (c : MarkedInstr) (rest : List MarkedInstr) (k : ℕ)
    (i : RawInstr), ListRun code eh vs (c :: rest) → c.mark = some (.instr k) → is[k]? = some i →
    i.opcode = ceeTailcall → ∃ ms o', passed vs = ms ++ [.call .tailcall o']
      ∧ ∀ p o', .call p o' ∈ ms → ¬p.IsLeave ∧ p ≠ .tailcall

/-- No run gets to the `ret` of a tail call, which a run through the `tail.` does not see. -/
def TailRetsUnreached (body : MethodBody) (is : List RawInstr) : Prop :=
  ∀ (k : ℕ) (p : RawInstr) (vs : List (ℕ × Passage)), is[k]? = some p → p.opcode = ceeTailcall →
    ¬CodeRun body is vs (k + 2)

namespace ValidBody

variable {body : MethodBody} {is : List RawInstr} {k : ℕ} {i : RawInstr} (h : ValidBody body is)

include h

/-- The `ret`s of tail calls. -/
theorem tailFlag_ret_iff (hi : is[k]? = some i) (hret : i.opcode = ceeRet) :
    tailFlag false ((is.take k).map RawInstr.opcode) = true
      ↔ ∃ j p, k = j + 2 ∧ is[j]? = some p ∧ p.opcode = ceeTailcall := by
  have his : is = is.take k ++ i :: is.drop (k + 1) := by
    rw [← drop_of_getElem? hi, List.take_append_drop]
  obtain ⟨hlt, -⟩ := List.getElem?_eq_some_iff.mp hi
  rw [h.tailFlag_iff his]
  constructor
  · rintro ⟨front, p, htail, hpre | ⟨c, hpre⟩⟩
    · have his' : is = front ++ p :: i :: is.drop (k + 1) := by rw [hpre] at his; simpa using his
      obtain ⟨c, r, rest, hpost, hcall, -⟩ := h.tail_split his' htail
      obtain ⟨rfl, -⟩ := List.cons.inj hpost
      have hno : i.opcode ≠ ceeRet := by
        rcases hcall with hcall | hcall | hcall <;> rw [hcall] <;> decide
      exact absurd hret hno
    · have his' : is = front ++ p :: c :: i :: is.drop (k + 1) := by rw [hpre] at his; simpa using his
      have hlength := congrArg List.length hpre
      rw [List.length_take_of_le (le_of_lt hlt), List.length_append] at hlength
      refine ⟨front.length, p, hlength, ?_, htail⟩
      rw [his', List.getElem?_append_right (le_refl _), Nat.sub_self]
      rfl
  · rintro ⟨j, p, rfl, hp, htail⟩
    have hlt' : j + 1 < is.length := by omega
    refine ⟨is.take j, p, htail, Or.inr ⟨is[j + 1], ?_⟩⟩
    rw [take_succ_of_getElem? (List.getElem?_eq_getElem hlt'), take_succ_of_getElem? hp,
      List.append_assoc]
    rfl

theorem tail_ret {p r : RawInstr} (hp : is[k]? = some p) (htail : p.opcode = ceeTailcall)
    (hr : is[k + 2]? = some r) : r.opcode = ceeRet := by
  have his : is = is.take k ++ p :: is.drop (k + 1) := by
    rw [← drop_of_getElem? hp, List.take_append_drop]
  obtain ⟨c, r', rest, hrest, -, hret⟩ := h.tail_split his htail
  have hthird := congrArg (fun l => l[1]?) hrest
  rw [List.getElem?_drop] at hthird
  obtain rfl := Option.some.inj (hr.symm.trans hthird)
  exact hret

end ValidBody

/-- What a run of the list has called on the way to an instruction. -/
theorem runMarks_calls {body : MethodBody} {is : List RawInstr} {ds : List (ℕ × Passage)} {k : ℕ}
    (hrun : CodeRun body is ds k) {isMain : Bool} {o : ℕ} {p : Probe} {o' : ℕ}
    (hcall : .call p o' ∈ runMarks isMain body is o ds) : p = enterMethod isMain ∨ p.IsPlain := by
  rcases List.mem_cons.mp hcall with heq | hcall
  · exact Or.inl (Mark.call.inj heq).1
  · exact Or.inr (runMarks_plain hrun isMain hcall)

namespace RewrittenBody

variable {covProb : Probe → ProbeCall} {methodId : Int32} {isMain : Bool} {body : MethodBody}
  {is : List RawInstr} {s' : ILRewriter} {enter : List ILInstr} {gs : List Group} {o : ℕ}
  (hr : RewrittenBody covProb methodId isMain body is s' enter gs) (h : ValidBody body is)

include hr h

/-- **Balanced probes**: exactly if no run gets to the `ret` of a tail call. -/
theorem probesBalanced_iff (ho : enter.map ILInstr.content
      = enterContents covProb methodId (enterMethod isMain) o) :
    ProbesBalanced isMain is (markedList isMain body is o enter gs) s'.m_pEH o
      ↔ TailRetsUnreached body is := by
  constructor
  · intro hbalanced k p ds hp htail hrun
    -- the run of the list to the `ret`
    obtain ⟨r, hr₂⟩ : ∃ r, is[k + 2]? = some r := ⟨_, List.getElem?_eq_getElem (hrun.lt h)⟩
    have hret := h.tail_ret hp htail hr₂
    obtain ⟨g, hg, -⟩ := hr.getElem?_group hr₂
    obtain ⟨vs, hlist, -, hpassed⟩ := hr.listRun_of_codeRun h ho hrun
    obtain ⟨vs', hlist', -, hpassed'⟩ := hr.listRun_instr h hr₂ hg hlist
    obtain ⟨ms, hms, -⟩ := hbalanced.ret vs' _ _ (k + 2) r hlist' rfl hr₂ hret
    have hcall : .call (leaveMethod isMain) r.offset ∈ passed vs' := by
      rw [hms]
      exact List.mem_append_right _ (List.mem_singleton_self _)
    -- has not called the leave probe
    have hleave := Probe.isLeave_leaveMethod isMain
    rw [hpassed', hpassed, annotationAt_eq hr₂, annotate_ret hret,
      if_pos ((h.tailFlag_ret_iff hr₂ hret).mpr ⟨k, p, rfl, hp, htail⟩), List.append_nil] at hcall
    rcases List.mem_append.mp hcall with hcall | hcall
    · rcases runMarks_calls hrun hcall with heq | hplain
      · exact Probe.not_isLeave_enterMethod isMain (heq ▸ hleave)
      · exact hplain.2.1 hleave
    · exact (handlerCalls_plain hcall).2.1 hleave
  · intro hunreached
    refine ⟨fun vs c rest k hrun hc => ?_, fun vs c rest k i hrun hc hi hret => ?_,
      fun vs c rest k i hrun hc hi htail => ?_⟩
    · obtain ⟨hcode, ⟨i, -, hi, -, -⟩, hpassed⟩ := hr.codeRun_of_listRun h ho hrun hc
      refine ⟨_, hpassed, fun p o' hcall => ?_⟩
      rcases List.mem_append.mp hcall with hcall | hcall
      · exact (runMarks_plain hcode isMain hcall).1
      · rw [annotationAt_eq hi] at hcall
        exact annotate_not_isEnter (mem_calls hcall)
    · obtain ⟨hcode, -, hpassed⟩ := hr.codeRun_of_listRun h ho hrun hc
      have hflag : ¬tailFlag false ((is.take k).map RawInstr.opcode) = true := by
        rw [h.tailFlag_ret_iff hi hret]
        rintro ⟨j, p, rfl, hp, htail⟩
        exact hunreached j p _ hp htail hcode
      rw [annotationAt_eq hi, annotate_ret hret, if_neg hflag, List.map_append, ← List.append_assoc]
        at hpassed
      refine ⟨_, hpassed, fun p o' hcall => ?_⟩
      rcases List.mem_append.mp hcall with hcall | hcall
      · rcases runMarks_calls hcode hcall with rfl | hplain
        · exact Probe.not_isLeave_enterMethod isMain
        · exact hplain.2.1
      · exact (handlerCalls_plain hcall).2.1
    · obtain ⟨hcode, -, hpassed⟩ := hr.codeRun_of_listRun h ho hrun hc
      have his : is = is.take k ++ i :: is.drop (k + 1) := by
        rw [← drop_of_getElem? hi, List.take_append_drop]
      obtain ⟨c', r, rest', hrest, -, -⟩ := h.tail_split his htail
      rw [annotationAt_eq hi, annotate_tail htail hrest, List.map_append, ← List.append_assoc]
        at hpassed
      refine ⟨_, c'.offset, hpassed, fun p o' hcall => ?_⟩
      have hplain : p = enterMethod isMain ∨ p.IsPlain := by
        rcases List.mem_append.mp hcall with hcall | hcall
        · exact runMarks_calls hcode hcall
        · obtain ⟨q, hq, heq⟩ := List.mem_map.mp (mem_calls hcall)
          obtain ⟨rfl, -⟩ := Prod.mk.inj heq
          rcases List.mem_append.mp hq with hq | hq
          · exact Or.inr (handlerProbes_plain q hq)
          · obtain rfl := List.mem_singleton.mp hq
            exact Or.inr Probe.isPlain_coverage
      rcases hplain with rfl | hplain
      · exact ⟨Probe.not_isLeave_enterMethod isMain, by cases isMain <;> decide⟩
      · exact hplain.2

end RewrittenBody

/-- **Enter and leave probes** of the rewritten list of a valid body are balanced on every path,
exactly if no run gets to the `ret` of a tail call. -/
theorem probes_balanced_iff {body : MethodBody} {is : List RawInstr} (h : ValidBody body is)
    (covProb : Probe → ProbeCall) (methodId : Int32) (isMain : Bool) :
    ∃ s s' enter gs o, importBody body = .ok s ∧ s.rewriteIL covProb methodId isMain = .ok s'
      ∧ RewrittenBody covProb methodId isMain body is s' enter gs
      ∧ enter.map ILInstr.content = enterContents covProb methodId (enterMethod isMain) o
      ∧ (markedList isMain body is o enter gs).map MarkedInstr.node = s'.m_IL
      ∧ (ProbesBalanced isMain is (markedList isMain body is o enter gs) s'.m_pEH o
        ↔ TailRetsUnreached body is) := by
  obtain ⟨s, s', enter, gs, hs, hrewrite, hr, -, -⟩ := h.exists_rewritten covProb methodId isMain
  obtain ⟨o, ho⟩ := hr.enter_eq
  exact ⟨s, s', enter, gs, o, hs, hrewrite, hr, ho, hr.marked_node o, hr.probesBalanced_iff h ho⟩

theorem probes_balanced_iff_tail_call :
    ∃ s s' enter gs o, importBody tailCallBody = .ok s
      ∧ s.rewriteIL (fun _ => ⟨0, 0⟩) 0 true = .ok s'
      ∧ RewrittenBody (fun _ => ⟨0, 0⟩) 0 true tailCallBody tailCallInstrs s' enter gs
      ∧ enter.map ILInstr.content = enterContents (fun _ => ⟨0, 0⟩) 0 (enterMethod true) o
      ∧ (markedList true tailCallBody tailCallInstrs o enter gs).map MarkedInstr.node = s'.m_IL
      ∧ (ProbesBalanced true tailCallInstrs (markedList true tailCallBody tailCallInstrs o enter gs)
          s'.m_pEH o ↔ TailRetsUnreached tailCallBody tailCallInstrs) :=
  probes_balanced_iff tailCallBody_valid (fun _ => ⟨0, 0⟩) 0 true

/-- `ldc.i4.0; brtrue.s; tail. call; ret`, where the branch leads to the `ret`. -/
def sharedRetBody : MethodBody where
  flags := 0
  maxStack := 8
  localVarSigTok := 0
  code := ⟨[0x16, 0x2D, 7, 0xFE, 0x14, 0x28, 1, 0, 0, 6, 0x2A], by decide⟩
  eh := []

def sharedRetInstrs : List RawInstr :=
  [⟨0, ceeLdcI40, 0, []⟩, ⟨1, 0x2D, 7, []⟩, ⟨3, ceeTailcall, 0, []⟩,
    ⟨5, ceeCall, 0x06000001, []⟩, ⟨10, ceeRet, 0, []⟩]

theorem sharedRetBody_valid : ValidBody sharedRetBody sharedRetInstrs := by
  refine ⟨by decide +kernel, by decide, by decide +kernel, by decide, by decide +kernel,
    by decide +kernel, by simp [sharedRetBody], ?_⟩
  exact not_reachable_of_closed [0, 1, 3, 5, 10] (by decide) (by decide +kernel) (by decide)

/-- The branch is taken. -/
theorem sharedRet_reached :
    CodeRun sharedRetBody sharedRetInstrs [(0, .fell), (1, .jumped)] 4 := by
  have hfirst : CodeRun sharedRetBody sharedRetInstrs [(0, .fell)] 1 :=
    CodeRun.entry.step (CodeStep.fall rfl (by decide) (by decide +kernel))
  exact hfirst.step (CodeStep.jump rfl (by decide) (by decide +kernel))

/-- Behind the branch the method returns without a call of the leave probe. -/
theorem sharedRet_not_balanced : ValidBody sharedRetBody sharedRetInstrs
    ∧ (∀ i ∈ sharedRetInstrs, i.opcode ≠ ceeJmp)
    ∧ ∃ s s' enter gs o, importBody sharedRetBody = .ok s
      ∧ s.rewriteIL (fun _ => ⟨0, 0⟩) 0 true = .ok s'
      ∧ RewrittenBody (fun _ => ⟨0, 0⟩) 0 true sharedRetBody sharedRetInstrs s' enter gs
      ∧ enter.map ILInstr.content = enterContents (fun _ => ⟨0, 0⟩) 0 (enterMethod true) o
      ∧ ¬ProbesBalanced true sharedRetInstrs (markedList true sharedRetBody sharedRetInstrs o enter gs)
        s'.m_pEH o := by
  obtain ⟨s, s', enter, gs, hs, hrewrite, hr, -, -⟩ :=
    sharedRetBody_valid.exists_rewritten (fun _ => ⟨0, 0⟩) 0 true
  obtain ⟨o, ho⟩ := hr.enter_eq
  refine ⟨sharedRetBody_valid, by decide, s, s', enter, gs, o, hs, hrewrite, hr, ho, ?_⟩
  rw [hr.probesBalanced_iff sharedRetBody_valid ho]
  exact fun hunreached => hunreached 2 _ _ rfl rfl sharedRet_reached

end TestExecutor
