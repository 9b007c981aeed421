import TestExecutor.Rewriter.PathBalance

/-!
# The offsets of the calls of a run

Which calls of probes a run of the rewritten list has made, for every valid body: the one at the entry,
and those around the instructions that it has come to.  Around an instruction they have its offset, but
in front of a `tail.` they have the offsets of its call and of its `ret`, and behind a `switch` that of
its last slot.

* `annotate_before_offset`, `annotate_after_offset`, `annotate_before_call` — around one instruction;
* `Arrived`, `MakesCall` — what a run has come to, and the calls that it has made there;
* `ValidBody.position_of_call`, `ValidBody.call_offset_lt` — the offsets of such calls;
* `entryOffset`, `ValidBody.enter_eq` — the offset that the probe at the entry gets;
* `RewrittenBody.mem_passed_iff` — the calls of a run;
* `EndReached`, `TailReached`, `MakesCall.end_cases` — what a call with the offset of an instruction says
  about the run;
* `ValidBody.exists_listRuns` — there is a run for every run of the original code.
-/

namespace TestExecutor

open TestExecutor.Library ILRewriter

/-! ### Around one instruction -/

section Annotations

variable {leaveMethod : Probe} {eh : List EhInfo} {targets : List ℕ} {pre post : List RawInstr}
  {i : RawInstr} {q : Probe × ℕ}

theorem annotate_before_offset (htail : i.opcode ≠ ceeTailcall)
    (hq : q ∈ (annotate leaveMethod eh targets pre i post).before) : q.2 = i.offset := by
  unfold annotate at hq
  rw [if_neg htail] at hq
  obtain ⟨p, -, rfl⟩ := List.mem_map.mp hq
  rfl

/-- Behind a switch the call has the offset of the last slot. -/
theorem annotate_after_offset (htail : i.opcode ≠ ceeTailcall)
    (hq : q ∈ (annotate leaveMethod eh targets pre i post).after) :
    (i.slots = [] ∧ q.2 = i.offset) ∨ (i.slots ≠ [] ∧ q.2 = i.next - 4) := by
  unfold annotate at hq
  rw [if_neg htail] at hq
  dsimp only at hq
  split at hq
  · rename_i hslots
    obtain ⟨p, -, rfl⟩ := Option.map_eq_some_iff.mp hq
    exact Or.inl ⟨hslots, rfl⟩
  · rename_i hslots
    split at hq
    · cases hq
      exact Or.inr ⟨hslots, rfl⟩
    · cases hq

/-- Behind a `tail.` there is none. -/
theorem annotate_tail_after (htail : i.opcode = ceeTailcall) :
    (annotate leaveMethod eh targets pre i post).after = none := by
  unfold annotate
  rw [if_pos htail]
  split <;> rfl

/-- In front of a call there are probes of handlers only. -/
theorem annotate_before_call (hcall : i.IsDemandingCall)
    (hq : q ∈ (annotate leaveMethod eh targets pre i post).before) :
    ∃ c ∈ eh, c.handlerOffset = i.offset := by
  have hkind : i.opcode ≠ ceeTailcall ∧ i.opcode ≠ ceeStsfld ∧ ¬IsPrefix i.opcode
      ∧ ownProbe leaveMethod i.opcode = some (.call, false) := by
    rcases hcall with hop | hop | hop <;> rw [hop] <;>
      exact ⟨by decide, by decide, by decide, rfl⟩
  have hown : (ownProbes leaveMethod pre i post).filter Prod.snd = [] := by
    rw [ownProbes, nodeProbes, if_neg hkind.2.1, if_neg fun hboth => hkind.2.2.1 hboth.1,
      hkind.2.2.2]
    split <;> rfl
  unfold annotate at hq
  rw [if_neg hkind.1] at hq
  dsimp only [instrPlacement] at hq
  rw [hown, List.map_nil, List.append_nil] at hq
  obtain ⟨p, hp, -⟩ := List.mem_map.mp hq
  have hpos := List.length_pos_of_mem hp
  rw [handlerProbes, List.length_replicate, List.countP_pos_iff] at hpos
  obtain ⟨c, hc, hoffset⟩ := hpos
  exact ⟨c, hc, of_decide_eq_true hoffset⟩

end Annotations

/-! ### The calls of a run -/

/-- Control has come to the instruction at a position. -/
def Arrived (ds : List (ℕ × Passage)) (k j : ℕ) : Prop := j = k ∨ ∃ e, (j, e) ∈ ds

theorem Annotations.mem_marks_iff {ann : Annotations} {k : ℕ} {e : Passage} {p : Probe} {o : ℕ} :
    .call p o ∈ ann.marks k e ↔ (p, o) ∈ ann.before ∨ (e = .fell ∧ ann.after = some (p, o)) := by
  have hbefore : Mark.call p o ∈ ann.before.map (fun q => Mark.call q.1 q.2) ↔ (p, o) ∈ ann.before := by
    refine ⟨mem_calls, fun hmem => List.mem_map.mpr ⟨(p, o), hmem, rfl⟩⟩
  rw [marks, List.mem_append, List.mem_cons, hbefore]
  by_cases he : e = .fell
  · rw [if_pos he]
    cases ann.after with
    | none => simp [he]
    | some q =>
        simp only [Option.map_some, Option.toList_some, List.mem_singleton, Mark.call.injEq, he,
          Option.some.injEq, reduceCtorEq, false_or, true_and, Prod.ext_iff, eq_comm]
  · simp [he]

/-- A run makes a call at the instruction at a position: in front of it, or behind it if control falls
on. -/
def MakesCall (leaveMethod : Probe) (body : MethodBody) (is : List RawInstr) (ds : List (ℕ × Passage))
    (k j : ℕ) (p : Probe) (o : ℕ) : Prop :=
  (Arrived ds k j ∧ (p, o) ∈ (annotationAt leaveMethod body is j).before)
    ∨ ((j, .fell) ∈ ds ∧ (annotationAt leaveMethod body is j).after = some (p, o))

section Runs

variable {leaveMethod : Probe} {body : MethodBody} {is : List RawInstr} {ds : List (ℕ × Passage)}
  {k j : ℕ} {p : Probe} {o : ℕ}

/-- Control comes to the first instruction. -/
theorem CodeRun.arrived_zero (hrun : CodeRun body is ds k) : Arrived ds k 0 := by
  induction hrun with
  | entry => exact Or.inl rfl
  | @step ds k k' e _ hstep ih =>
      rcases ih with rfl | ⟨e', hmem⟩
      · exact Or.inr ⟨e, List.mem_append_right _ (List.mem_singleton_self _)⟩
      · exact Or.inr ⟨e', List.mem_append_left _ hmem⟩

theorem MakesCall.arrived (h : MakesCall leaveMethod body is ds k j p o) : Arrived ds k j :=
  h.elim And.left fun hafter => Or.inr ⟨_, hafter.1⟩

theorem MakesCall.around (h : MakesCall leaveMethod body is ds k j p o) :
    (p, o) ∈ (annotationAt leaveMethod body is j).before
      ∨ (annotationAt leaveMethod body is j).after = some (p, o) := h.imp And.right And.right

/-- Calls are made at instructions. -/
theorem MakesCall.exists_instr (h : MakesCall leaveMethod body is ds k j p o) :
    ∃ i, is[j]? = some i := by
  rw [← Option.isSome_iff_exists, Option.isSome_iff_ne_none]
  intro hnone
  have hempty : annotationAt leaveMethod body is j = ⟨[], none⟩ := by
    rw [annotationAt, hnone]
  rcases h.around with hbefore | hafter
  · rw [hempty] at hbefore
    exact List.not_mem_nil hbefore
  · rw [hempty] at hafter
    cases hafter

end Runs

namespace ValidBody

variable {body : MethodBody} {is : List RawInstr} {i i' : RawInstr} {j j' k : ℕ} {p : Probe}
  {leaveMethod : Probe} {ds : List (ℕ × Passage)} (h : ValidBody body is)

include h

theorem position_unique (hi : is[j]? = some i) (hi' : is[j']? = some i')
    (hoffset : i.offset = i'.offset) : j = j' := by
  have hnodup : (is.map RawInstr.offset).Nodup :=
    h.decoded.consecutive.offsets_pairwise.imp ne_of_lt
  obtain ⟨hlt, -⟩ := List.getElem?_eq_some_iff.mp hi
  refine (List.getElem?_inj (by rwa [List.length_map]) hnodup).mp ?_
  rw [List.getElem?_map, List.getElem?_map, hi, hi', Option.map_some, Option.map_some, hoffset]

theorem offset_eq_zero_iff (hi : is[j]? = some i) : i.offset = 0 ↔ j = 0 := by
  obtain ⟨first, post, his⟩ := List.exists_cons_of_ne_nil h.nonempty
  have hfirst : is[0]? = some first := by
    rw [his]
    rfl
  have hcons := h.decoded.consecutive
  rw [his] at hcons
  constructor
  · intro hoffset
    exact h.position_unique hi hfirst (hoffset.trans hcons.1.symm)
  · rintro rfl
    obtain rfl := Option.some.inj (hi.symm.trans hfirst)
    exact hcons.1

/-- A call with the offset of an instruction belongs to the instruction. -/
theorem position_of_call (hi : is[j]? = some i) (hi' : is[j']? = some i')
    (htail : i'.opcode ≠ ceeTailcall)
    (hcall : (p, i.offset) ∈ (annotationAt leaveMethod body is j').before
      ∨ (annotationAt leaveMethod body is j').after = some (p, i.offset)) : j = j' := by
  rw [annotationAt_eq hi'] at hcall
  rcases hcall with hcall | hcall
  · exact h.position_unique hi hi' (annotate_before_offset htail hcall)
  · rcases annotate_after_offset htail (Option.mem_def.mpr hcall) with ⟨-, ho⟩ | ⟨hslots, ho⟩
    · exact h.position_unique hi hi' ho
    · -- the last slot of a switch is inside the switch
      have hmem := List.mem_of_getElem? hi'
      have hswitch := h.decoded.slots_switch hmem hslots
      have hlength : 0 < i'.slots.length := List.length_pos_iff.mpr hslots
      have hnext : i'.next = i'.operandOffset + operandSize i'.opcode + 4 * i'.slots.length := rfl
      have hoperand : i'.offset < i'.operandOffset := by
        have := opcodeSize_pos i'.opcode
        rw [RawInstr.operandOffset]
        omega
      dsimp only at ho
      rw [hswitch, operandSize_switch] at hnext
      obtain rfl := h.decoded.consecutive.disjoint hmem (List.mem_of_getElem? hi) (by omega)
        (by omega)
      omega

/-- A `tail.` with its call and its `ret`. -/
theorem exists_tail (hi : is[j]? = some i) (htail : i.opcode = ceeTailcall) :
    ∃ c r rest, is.drop (j + 1) = c :: r :: rest ∧ is[j + 1]? = some c ∧ is[j + 2]? = some r := by
  obtain ⟨c, r, rest, hpost, -⟩ := h.tail_split
    (show is = is.take j ++ i :: is.drop (j + 1) by
      rw [← drop_of_getElem? hi, List.take_append_drop]) htail
  refine ⟨c, r, rest, hpost, ?_, ?_⟩
  · rw [← Nat.add_zero (j + 1), ← List.getElem?_drop, hpost]
    rfl
  · rw [show j + 2 = j + 1 + 1 by omega, ← List.getElem?_drop, hpost]
    rfl

/-- In front of a `tail.` calls have the offset of its `ret`, or of its call. -/
theorem positions_of_tail (hi : is[j]? = some i) (hi' : is[j']? = some i')
    (htail : i'.opcode = ceeTailcall)
    (hcall : (p, i.offset) ∈ (annotationAt leaveMethod body is j').before) :
    j = j' + 1 ∨ j = j' + 2 := by
  obtain ⟨c, r, rest, hpost, hc, hr⟩ := h.exists_tail hi' htail
  rw [annotationAt_eq hi', annotate_tail htail hpost] at hcall
  rcases List.mem_append.mp hcall with hcall | hcall
  · obtain ⟨q, -, heq⟩ := List.mem_map.mp hcall
    exact Or.inr (h.position_unique hi hr (Prod.mk.inj heq).2.symm)
  · exact Or.inl (h.position_unique hi hc (Prod.mk.inj (List.mem_singleton.mp hcall)).2)

theorem offset_lt_size (hi : is[j]? = some i) : i.offset < body.code.size :=
  i.offset_lt_next.trans_le (h.decoded.consecutive.bounds (List.mem_of_getElem? hi)).2

/-- The offsets of calls are offsets in the code. -/
theorem call_offset_lt {o : ℕ} (hcall : MakesCall leaveMethod body is ds k j p o) :
    o < body.code.size := by
  obtain ⟨i, hi⟩ := hcall.exists_instr
  have haround := hcall.around
  rw [annotationAt_eq hi] at haround
  by_cases htail : i.opcode = ceeTailcall
  · obtain ⟨c, r, rest, hpost, hc, hr⟩ := h.exists_tail hi htail
    rcases haround with hbefore | hafter
    · rw [annotate_tail htail hpost] at hbefore
      rcases List.mem_append.mp hbefore with hbefore | hbefore
      · obtain ⟨q, -, heq⟩ := List.mem_map.mp hbefore
        rw [← (Prod.mk.inj heq).2]
        exact h.offset_lt_size hr
      · rw [(Prod.mk.inj (List.mem_singleton.mp hbefore)).2]
        exact h.offset_lt_size hc
    · rw [annotate_tail_after htail] at hafter
      cases hafter
  · have hlt := h.offset_lt_size hi
    have hnext := (h.decoded.consecutive.bounds (List.mem_of_getElem? hi)).2
    have hpos := i.offset_lt_next
    rcases haround with hbefore | hafter
    · have ho : o = i.offset := annotate_before_offset htail hbefore
      omega
    · have ho := annotate_after_offset htail (Option.mem_def.mpr hafter)
      dsimp only at ho
      omega

end ValidBody

/-! ### The call at the entry -/

/-- The offset that the probe at the entry gets: that of the first node behind the scan, which has given
a `tail.` the offset of its `ret`. -/
def entryOffset : List RawInstr → ℕ
  | [] => 0
  | i :: post => if i.opcode = ceeTailcall then (post[1]?.getD i).offset else i.offset

namespace ValidBody

variable {body : MethodBody} {is : List RawInstr} {i : RawInstr} {j : ℕ} (h : ValidBody body is)

include h

theorem entryOffset_lt : entryOffset is < body.code.size := by
  obtain ⟨i, post, his⟩ := List.exists_cons_of_ne_nil h.nonempty
  have hi : is[0]? = some i := by
    rw [his]
    rfl
  rw [his, entryOffset]
  split
  · rename_i htail
    obtain ⟨c, r, rest, hpost, -, hr⟩ := h.exists_tail hi htail
    rw [his] at hpost
    obtain rfl : post = c :: r :: rest := hpost
    exact h.offset_lt_size hr
  · exact h.offset_lt_size hi

/-- The call at the entry has offset 0, or that of the `ret` of a tail call at the start. -/
theorem entryOffset_cases (hi : is[j]? = some i) (hoffset : entryOffset is = i.offset) :
    j = 0 ∨ (j = 2 ∧ ∃ t, is[0]? = some t ∧ t.opcode = ceeTailcall) := by
  obtain ⟨first, post, his⟩ := List.exists_cons_of_ne_nil h.nonempty
  have hfirst : is[0]? = some first := by
    rw [his]
    rfl
  rw [his, entryOffset] at hoffset
  split at hoffset
  · rename_i htail
    obtain ⟨c, r, rest, hpost, -, hr⟩ := h.exists_tail hfirst htail
    rw [his] at hpost
    obtain rfl : post = c :: r :: rest := hpost
    exact Or.inr ⟨h.position_unique hi hr hoffset.symm, first, hfirst, htail⟩
  · exact Or.inl (h.position_unique hi hfirst hoffset.symm)

theorem entryOffset_eq_zero (htails : ∀ i ∈ is, i.opcode ≠ ceeTailcall) : entryOffset is = 0 := by
  obtain ⟨first, post, his⟩ := List.exists_cons_of_ne_nil h.nonempty
  have hcons := h.decoded.consecutive
  rw [his] at hcons
  rw [his, entryOffset, if_neg (htails first (by rw [his]; exact List.mem_cons_self))]
  exact hcons.1

variable {covProb : Probe → ProbeCall} {methodId : Int32} {isMain : Bool} {s s' : ILRewriter}
  {enter : List ILInstr} {gs : List Group}

/-- **The offset of the call at the entry.** -/
theorem enter_eq (hs : importBody body = .ok s)
    (hrewrite : s.rewriteIL covProb methodId isMain = .ok s')
    (hr : RewrittenBody covProb methodId isMain body is s' enter gs) : enter.map ILInstr.content
      = enterContents covProb methodId (enterMethod isMain) (entryOffset is) := by
  obtain ⟨s₁, hs₁, himported⟩ := h.imported
  obtain rfl := Except.ok.inj (hs₁.symm.trans hs)
  obtain ⟨s₂, enter', segs, hrewrite', hres, -⟩ := rewriteIL_eq (h.rewritable himported) isMain
  obtain rfl := Except.ok.inj (hrewrite'.symm.trans hrewrite)
  obtain ⟨gs', hlist, -⟩ := h.exists_groups himported hres
  obtain ⟨w, ws, hanchors, henter⟩ := hres.enter_eq
  -- both readings of the list start with as many nodes
  obtain ⟨o, ho⟩ := hr.enter_eq
  have hlength : enter.length = enter'.length := by
    have hboth := congrArg List.length ho
    have hboth' := congrArg List.length henter
    rw [List.length_map] at hboth hboth'
    rw [hboth, hboth']
    rfl
  obtain ⟨rfl, -⟩ := List.append_inj (hr.list_eq.symm.trans hlist) hlength
  -- the first node of the imported list, or the old node of a `tail.`
  obtain ⟨i, post, his⟩ := List.exists_cons_of_ne_nil h.nonempty
  have hIL := himported.list_split (show is = [] ++ i :: post from his)
  have hop := instrNode_opcode (targetOf is body.code.size) (addrBehindAll (pIL + 1) []) i
  rw [ILRewriter.anchors, hIL, importedNodes, List.nil_append, scanned] at hanchors
  have hfirst : w.m_offset = entryOffset is := by
    rw [his, entryOffset]
    by_cases htail : i.opcode = ceeTailcall
    · rw [if_pos (hop.trans htail)] at hanchors
      obtain ⟨rfl, -⟩ := List.cons.inj hanchors
      obtain ⟨c, r, rest, rfl, -, -⟩ := h.tail_split (show is = [] ++ i :: post from his) htail
      rw [if_pos htail]
      exact (h.tail_offsets (t := targetOf is body.code.size) (a := addrBehindAll (pIL + 1) [])
        (show is = [] ++ i :: c :: r :: rest from his) htail).2
    · rw [if_neg (by rwa [hop])] at hanchors
      obtain ⟨rfl, -⟩ := List.cons.inj hanchors
      rw [if_neg htail]
      exact instrNode_offset _ _ _
  rwa [hfirst] at henter

end ValidBody

/-! ### The calls of a run -/

/-- Control has come to the instruction, and has fallen on from it if it is a call, unless the method or
a handler starts there. -/
def EndReached (body : MethodBody) (ds : List (ℕ × Passage)) (k j : ℕ) (i : RawInstr) : Prop :=
  Arrived ds k j ∧ (i.IsDemandingCall → (j, .fell) ∈ ds ∨ j = 0
    ∨ ∃ c ∈ body.eh, c.handlerOffset = i.offset)

/-- The instruction is the call or the `ret` of a tail call whose `tail.` control has come to. -/
def TailReached (is : List RawInstr) (ds : List (ℕ × Passage)) (k j : ℕ) : Prop :=
  ∃ (q : ℕ) (t : RawInstr), is[q]? = some t ∧ t.opcode = ceeTailcall ∧ Arrived ds k q
    ∧ (j = q + 1 ∨ j = q + 2)

/-- **What a call with the offset of an instruction says about the run.** -/
theorem MakesCall.end_cases {leaveMethod : Probe} {body : MethodBody} {is : List RawInstr}
    {ds : List (ℕ × Passage)} {k j j' : ℕ} {p : Probe} {i : RawInstr} (h : ValidBody body is)
    (hi : is[j]? = some i) (hcall : MakesCall leaveMethod body is ds k j' p i.offset) :
    EndReached body ds k j i ∨ TailReached is ds k j := by
  obtain ⟨i', hi'⟩ := hcall.exists_instr
  by_cases htail : i'.opcode = ceeTailcall
  · rcases hcall with ⟨harrived, hbefore⟩ | ⟨-, hafter⟩
    · exact Or.inr ⟨j', i', hi', htail, harrived, h.positions_of_tail hi hi' htail hbefore⟩
    · rw [annotationAt_eq hi', annotate_tail_after htail] at hafter
      cases hafter
  · obtain rfl := h.position_of_call hi hi' htail hcall.around
    refine Or.inl ⟨hcall.arrived, fun hdemanding => ?_⟩
    rcases hcall with ⟨-, hbefore⟩ | ⟨hfell, -⟩
    · rw [annotationAt_eq hi] at hbefore
      exact Or.inr (Or.inr (annotate_before_call hdemanding hbefore))
    · exact Or.inl hfell

namespace RewrittenBody

variable {covProb : Probe → ProbeCall} {methodId : Int32} {isMain : Bool} {body : MethodBody}
  {is : List RawInstr} {s' : ILRewriter} {enter : List ILInstr} {gs : List Group} {i : RawInstr}
  {j k o : ℕ} {vs : List (MarkedInstr × Passage)} {c : MarkedInstr} {rest : List MarkedInstr}
  (hr : RewrittenBody covProb methodId isMain body is s' enter gs) (h : ValidBody body is)
  (ho : enter.map ILInstr.content = enterContents covProb methodId (enterMethod isMain) o)
  (hrun : ListRun (markedList isMain body is o enter gs) s'.m_pEH vs (c :: rest))
  (hc : c.mark = some (.instr k))

include hr h ho hrun hc

/-- The call at the entry comes first. -/
theorem passed_eq : passed vs = .call (enterMethod isMain) o :: (passed vs).tail := by
  rw [(hr.codeRun_of_listRun h ho hrun hc).2.2, runMarks]
  rfl

/-- **The calls of a run** behind the entry are those at the instructions that it has come to. -/
theorem mem_passed_iff {p : Probe} {o' : ℕ} : .call p o' ∈ (passed vs).tail
    ↔ ∃ j, MakesCall (leaveMethod isMain) body is (visitedInstrs vs) k j p o' := by
  rw [(hr.codeRun_of_listRun h ho hrun hc).2.2, runMarks, List.cons_append, List.tail_cons,
    List.mem_append]
  constructor
  · rintro (hcall | hcall)
    · obtain ⟨⟨j, e⟩, hv, hmark⟩ := List.mem_flatMap.mp hcall
      rcases Annotations.mem_marks_iff.mp hmark with hbefore | ⟨rfl, hafter⟩
      · exact ⟨j, Or.inl ⟨Or.inr ⟨e, hv⟩, hbefore⟩⟩
      · exact ⟨j, Or.inr ⟨hv, hafter⟩⟩
    · exact ⟨k, Or.inl ⟨Or.inl rfl, mem_calls hcall⟩⟩
  · rintro ⟨j, ⟨rfl | ⟨e, hv⟩, hbefore⟩ | ⟨hfell, hafter⟩⟩
    · exact Or.inr (List.mem_map.mpr ⟨(p, o'), hbefore, rfl⟩)
    · exact Or.inl (List.mem_flatMap.mpr
        ⟨(j, e), hv, Annotations.mem_marks_iff.mpr (Or.inl hbefore)⟩)
    · exact Or.inl (List.mem_flatMap.mpr
        ⟨(j, .fell), hfell, Annotations.mem_marks_iff.mpr (Or.inr ⟨rfl, hafter⟩)⟩)

theorem mem_passed_cases {p : Probe} {o' : ℕ} (hcall : .call p o' ∈ passed vs) :
    (p = enterMethod isMain ∧ o' = o)
      ∨ ∃ j, MakesCall (leaveMethod isMain) body is (visitedInstrs vs) k j p o' := by
  rw [hr.passed_eq h ho hrun hc, List.mem_cons, Mark.call.injEq] at hcall
  exact hcall.imp_right (hr.mem_passed_iff h ho hrun hc).mp

end RewrittenBody

/-- What a method is rewritten to has the runs of the original code. -/
theorem ValidBody.exists_listRuns {body : MethodBody} {is : List RawInstr} (h : ValidBody body is)
    (covProb : Probe → ProbeCall) (methodId : Int32) (isMain : Bool) :
    ∃ s s' enter gs, importBody body = .ok s ∧ s.rewriteIL covProb methodId isMain = .ok s'
      ∧ RewrittenBody covProb methodId isMain body is s' enter gs
      ∧ ∀ ds k, CodeRun body is ds k → ∃ vs c rest,
        ListRun (markedList isMain body is (entryOffset is) enter gs) s'.m_pEH vs (c :: rest)
        ∧ c.mark = some (.instr k) ∧ visitedInstrs vs = ds
        ∧ passed vs = runMarks isMain body is (entryOffset is) ds
          ++ (annotationAt (leaveMethod isMain) body is k).before.map fun p => .call p.1 p.2 := by
  obtain ⟨s, s', enter, gs, hs, hrewrite, hr, -, -⟩ := h.exists_rewritten covProb methodId isMain
  refine ⟨s, s', enter, gs, hs, hrewrite, hr, fun ds k hcode => ?_⟩
  obtain ⟨vs, hlist, hvisited, hpassed⟩ :=
    hr.listRun_of_codeRun h (h.enter_eq hs hrewrite hr) hcode
  obtain ⟨i, hi⟩ : ∃ i, is[k]? = some i := ⟨_, List.getElem?_eq_getElem (hcode.lt h)⟩
  obtain ⟨g, hg, -⟩ := hr.getElem?_group hi
  obtain ⟨vs', hlist', hvisited', hpassed'⟩ := hr.listRun_instr h hi hg hlist
  exact ⟨vs', _, _, hlist', rfl, hvisited'.trans hvisited, by rw [hpassed', hpassed]⟩

end TestExecutor
