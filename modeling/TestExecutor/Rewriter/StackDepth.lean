import TestExecutor.Rewriter.StackTotal
import TestExecutor.Rewriter.Successors

/-!
# The depth of the evaluation stack

The depths that the original code and the rewritten list reach, for any effects of the instructions
on the stack.

* `StackEffect`, `ProbeEffects` — what instructions do to the depth, and what is known about those of
  probe calls;
* `DepthAt`, `ListDepth` — the depths that are reached, by byte offsets and in the list;
* `Stays` — code that leaves the depth as it was, and how far it goes above it;
* `Stands.successors_eq` — where control goes from the instruction of a group.
-/

namespace TestExecutor

open TestExecutor.Library ILRewriter

/-! ### Effects on the depth -/

/-- The depth behind an instruction, by opcode, operand and the depth in front of it; there is none
if the instruction finds too little on the stack. -/
abbrev StackEffect := ℕ → ℕ → ℕ → Option ℕ

namespace StackEffect

variable (effect : StackEffect)

/-- The target of a branch says nothing about the stack. -/
def of (opcode arg depth : ℕ) : Option ℕ := effect opcode (if HasTarget opcode then 0 else arg) depth

/-- The depth behind instructions that follow one another. -/
def behind : List (ℕ × ℕ) → ℕ → Option ℕ
  | [], depth => some depth
  | (opcode, arg) :: rest, depth => (effect.of opcode arg depth).bind (behind rest)

theorem behind_append (cs cs' : List (ℕ × ℕ)) (depth : ℕ) :
    effect.behind (cs ++ cs') depth = (effect.behind cs depth).bind (effect.behind cs') := by
  induction cs generalizing depth with
  | nil => rfl
  | cons c cs ih =>
      rw [List.cons_append, behind, behind]
      cases effect.of c.1 c.2 depth with
      | none => rfl
      | some depth' => exact ih depth'

end StackEffect

/-- What the inserted instructions do: a `nop` nothing, constants push one slot, and a call pops the
function pointer and the parameters. -/
structure ProbeEffects (covProb : Probe → ProbeCall) (effect : StackEffect) : Prop where
  nop : ∀ arg depth, effect ceeNop arg depth = some depth
  constant : ∀ opcode, opcode = ceeLdcI4 ∨ opcode = ceeLdcI8 ∨ opcode = ceeLdcI40 →
    ∀ arg depth, effect opcode arg depth = some (depth + 1)
  call : ∀ p depth, effect ceeCalli (covProb p).sig (depth + (p.parameters + 1)) = some depth

/-! ### Depths of the original code -/

/-- The exception stands on the stack, except in `finally` and fault handlers. -/
def handlerDepth (flags : ℕ) : ℕ := if flags = 2 ∨ flags = 4 then 0 else 1

/-- Control can reach the byte offset with the depth. -/
inductive DepthAt (effect : StackEffect) (body : MethodBody) (is : List RawInstr) : ℕ → ℕ → Prop
  | entry : DepthAt effect body is 0 0
  | handler {c : EhInfo} (hc : c ∈ body.eh) :
      DepthAt effect body is c.handlerOffset (handlerDepth c.flags)
  | filter {c : EhInfo} (hc : c ∈ body.eh) (hfilter : isFilterFlags c.flags = true) :
      DepthAt effect body is c.classTokenOrFilterOffset 1
  | step {i : RawInstr} {depth depth' o : ℕ} (hdepth : DepthAt effect body is i.offset depth)
      (hi : i ∈ is) (heffect : effect.of i.opcode i.operand depth = some depth')
      (ho : o ∈ i.successors) : DepthAt effect body is o depth'

theorem DepthAt.reachable {effect : StackEffect} {body : MethodBody} {is : List RawInstr} {o depth : ℕ}
    (h : DepthAt effect body is o depth) : Reachable body.eh is o := by
  induction h with
  | entry => exact Reachable.entry List.mem_cons_self
  | handler hc =>
      exact Reachable.entry (List.mem_cons_of_mem _ (List.mem_flatMap.mpr
        ⟨_, hc, List.mem_cons_self⟩))
  | filter hc hfilter =>
      refine Reachable.entry (List.mem_cons_of_mem _ (List.mem_flatMap.mpr ⟨_, hc, ?_⟩))
      rw [EhInfo.entries, if_pos hfilter]
      exact List.mem_cons_of_mem _ List.mem_cons_self
  | step _ hi _ ho ih => exact ih.step ⟨_, hi, rfl, ho⟩

/-! ### Depths in a list -/

/-- Control can pass on to what stands behind. -/
def PassesOn (opcode : ℕ) : Prop := RawInstr.FallsThrough ⟨0, opcode, 0, []⟩

instance (opcode : ℕ) : Decidable (PassesOn opcode) := by unfold PassesOn; infer_instance

/-- The addresses to which control can go from a node in front of `rest`, exceptions apart. -/
def listSuccessors (n : ILInstr) (rest : List ILInstr) : List ℕ :=
  (if PassesOn n.m_opcode then [headAddr ILInstr.addr pIL (rest.dropWhile ILInstr.isSlot)] else [])
    ++ if n.m_opcode = ceeSwitch then (leadingSlots rest).map ILInstr.m_pTarget
      else if HasTarget n.m_opcode then [n.m_pTarget] else []

/-- The rest of the list from an address on. -/
def RestAt (s : ILRewriter) (p : ℕ) (rest : List ILInstr) : Prop :=
  (∃ front, s.m_IL = front ++ rest) ∧ headAddr ILInstr.addr pIL rest = p

/-- Control can reach a place in the list, given by what stands behind it, with the depth. -/
inductive ListDepth (effect : StackEffect) (s : ILRewriter) : List ILInstr → ℕ → Prop
  | entry : ListDepth effect s s.m_IL 0
  | handler {c : EHClause} {rest : List ILInstr} (hc : c ∈ s.m_pEH)
      (hrest : RestAt s c.m_pHandlerBegin rest) : ListDepth effect s rest (handlerDepth c.m_Flags)
  | filter {c : EHClause} {rest : List ILInstr} (hc : c ∈ s.m_pEH)
      (hfilter : isFilterFlags c.m_Flags = true) (hrest : RestAt s c.m_ClassTokenOrFilter rest) :
      ListDepth effect s rest 1
  | step {n : ILInstr} {rest rest' : List ILInstr} {depth depth' p : ℕ}
      (hdepth : ListDepth effect s (n :: rest) depth)
      (heffect : effect.of n.m_opcode n.m_Arg64 depth = some depth') (hp : p ∈ listSuccessors n rest)
      (hrest : RestAt s p rest') : ListDepth effect s rest' depth'

/-- An address determines what stands behind it. -/
theorem ILRewriter.Linked.restAt_unique {s : ILRewriter} (h : s.Linked) {p : ℕ}
    {rest rest' : List ILInstr} (hrest : RestAt s p rest) (hrest' : RestAt s p rest') :
    rest = rest' := by
  obtain ⟨⟨front, hIL⟩, rfl⟩ := hrest
  obtain ⟨⟨front', hIL'⟩, heq⟩ := hrest'
  have hmem : ∀ {n ns front}, s.m_IL = front ++ n :: ns → headAddr ILInstr.addr pIL (n :: ns) ≠ pIL :=
    fun hsplit => (h.split hsplit).2.1
  cases rest with
  | nil =>
      cases rest' with
      | nil => rfl
      | cons n ns => exact absurd heq (hmem hIL')
  | cons n ns =>
      cases rest' with
      | nil => exact absurd heq.symm (hmem hIL)
      | cons n' ns' =>
          obtain ⟨-, rfl, rfl⟩ := split_unique (hIL ▸ h.nodup) (hIL.symm.trans hIL') heq.symm
          rfl

/-! ### Code that leaves the depth as it was -/

/-- The depth is the same in the end, and at most `k` higher in between. -/
structure Stays (effect : StackEffect) (cs : List (ℕ × ℕ)) (k : ℕ) : Prop where
  behind : ∀ depth, effect.behind cs depth = some depth
  between : ∀ front back, cs = front ++ back → ∀ depth,
    ∃ depth', effect.behind front depth = some depth' ∧ depth' ≤ depth + k

theorem Stays.nil (effect : StackEffect) (k : ℕ) : Stays effect [] k := by
  refine ⟨fun _ => rfl, fun front back hsplit depth => ⟨depth, ?_, Nat.le_add_right _ _⟩⟩
  obtain ⟨rfl, -⟩ := List.append_eq_nil_iff.mp hsplit.symm
  rfl

theorem Stays.append {effect : StackEffect} {cs cs' : List (ℕ × ℕ)} {k : ℕ} (h : Stays effect cs k)
    (h' : Stays effect cs' k) : Stays effect (cs ++ cs') k := by
  refine ⟨fun depth => ?_, fun front back hsplit depth => ?_⟩
  · rw [effect.behind_append, h.behind]
    exact h'.behind depth
  · rcases List.append_eq_append_iff.mp hsplit with ⟨middle, rfl, hmiddle⟩ | ⟨middle, hmiddle, -⟩
    · obtain ⟨depth', hdepth', hle⟩ := h'.between middle back hmiddle depth
      refine ⟨depth', ?_, hle⟩
      rw [effect.behind_append, h.behind]
      exact hdepth'
    · exact h.between front middle hmiddle depth

section Probes

variable {covProb : Probe → ProbeCall} {methodId : Int32} {effect : StackEffect}
  (h : ProbeEffects covProb effect)

include h

theorem ProbeEffects.of_constant {opcode : ℕ}
    (hop : opcode = ceeLdcI4 ∨ opcode = ceeLdcI8 ∨ opcode = ceeLdcI40) (arg depth : ℕ) :
    effect.of opcode arg depth = some (depth + 1) := h.constant opcode hop _ depth

theorem ProbeEffects.of_call (p : Probe) (depth : ℕ) :
    effect.of ceeCalli (covProb p).sig (depth + (p.parameters + 1)) = some depth := h.call p depth

/-- Constants, each of which pushes one slot. -/
theorem ProbeEffects.behind_constants {cs : List (ℕ × ℕ)}
    (hcs : ∀ c ∈ cs, c.1 = ceeLdcI4 ∨ c.1 = ceeLdcI8 ∨ c.1 = ceeLdcI40) (depth : ℕ) :
    effect.behind cs depth = some (depth + cs.length) := by
  induction cs generalizing depth with
  | nil => rfl
  | cons c cs ih =>
      rw [StackEffect.behind, h.of_constant (hcs c List.mem_cons_self), Option.bind_some,
        ih fun d hd => hcs d (List.mem_cons_of_mem c hd), List.length_cons]
      congr 1
      omega

/-- The constants of a call are pushed and popped. -/
theorem ProbeEffects.stays_call {cs : List (ℕ × ℕ)} {p : Probe}
    (hcs : ∀ c ∈ cs, c.1 = ceeLdcI4 ∨ c.1 = ceeLdcI8 ∨ c.1 = ceeLdcI40)
    (hlength : cs.length = p.parameters + 1) :
    Stays effect (cs ++ [(ceeCalli, (covProb p).sig)]) (p.parameters + 1) := by
  have hall : ∀ depth, effect.behind (cs ++ [(ceeCalli, (covProb p).sig)]) depth = some depth := by
    intro depth
    rw [effect.behind_append, h.behind_constants hcs, hlength, Option.bind_some, StackEffect.behind,
      h.of_call]
    rfl
  refine ⟨hall, fun front back hsplit depth => ?_⟩
  rcases List.eq_nil_or_concat back with rfl | ⟨middle, c, rfl⟩
  · rw [List.append_nil] at hsplit
    rw [← hsplit]
    exact ⟨depth, hall depth, Nat.le_add_right _ _⟩
  · rw [List.concat_eq_append, ← List.append_assoc] at hsplit
    obtain ⟨rfl, -⟩ := List.append_inj' hsplit rfl
    rw [List.length_append] at hlength
    refine ⟨_, h.behind_constants (fun d hd => hcs d (List.mem_append_left _ hd)) depth, ?_⟩
    omega

/-- A call of a probe, other than that at the entry. -/
theorem ProbeEffects.stays_item {item : Item} (hitem : item.IsPadding covProb methodId) :
    Stays effect (item.contents covProb methodId) 3 := by
  cases item with
  | instr opcode arg =>
      obtain rfl : opcode = ceeNop := hitem
      have hnop : ∀ depth, effect.behind [(ceeNop, arg)] depth = some depth := by
        intro depth
        rw [StackEffect.behind, StackEffect.of, h.nop]
        rfl
      refine ⟨hnop, fun front back hsplit depth => ⟨depth, ?_, Nat.le_add_right _ _⟩⟩
      rcases List.append_eq_singleton_iff.mp hsplit.symm with ⟨rfl, -⟩ | ⟨rfl, -⟩
      · rfl
      · exact hnop depth
  | probe p o =>
      have hparameters : p.parameters = 2 := by
        have hdepth : callDepth p.parameters (probeContents covProb methodId p o) 0 = some 0 :=
          hitem 0
        cases p <;> first | rfl | cases hdepth
      have hstays : Stays effect ([(ceeLdcI4, o % 2 ^ 32),
          (ceeLdcI4, methodId.toBitVec.toNat % 2 ^ 32), (ceeLdcI8, (covProb p).addr)]
            ++ [(ceeCalli, (covProb p).sig)]) (p.parameters + 1) :=
        h.stays_call (by simp) (by rw [hparameters]; rfl)
      rw [hparameters] at hstays
      exact hstays

theorem ProbeEffects.stays_items {items : List Item}
    (hitems : ∀ item ∈ items, item.IsPadding covProb methodId) :
    Stays effect (items.flatMap (Item.contents covProb methodId)) 3 := by
  induction items with
  | nil => exact Stays.nil effect 3
  | cons item items ih =>
      rw [List.flatMap_cons]
      exact (h.stays_item (hitems item List.mem_cons_self)).append
        (ih fun item' hitem' => hitems item' (List.mem_cons_of_mem item hitem'))

theorem ProbeEffects.stays_padding {probes : List (Probe × ℕ)} {nodes : List ILInstr}
    (hpad : PaddedWith covProb methodId probes nodes) :
    Stays effect (nodes.map ILInstr.content) 3 := by
  obtain ⟨items, hitems, -, -, hnodes⟩ := hpad
  rw [hnodes]
  exact h.stays_items hitems

/-- With a probe, the depth really goes three above. -/
theorem ProbeEffects.padding_peak {probes : List (Probe × ℕ)} {nodes : List ILInstr}
    (hpad : PaddedWith covProb methodId probes nodes) (hne : probes ≠ []) :
    ∃ front n back, nodes = front ++ n :: back ∧ ∀ depth,
      effect.behind (front.map ILInstr.content) depth = some (depth + 3) := by
  obtain ⟨items, hitems, hprobes, -, hnodes⟩ := hpad
  obtain ⟨q, hq⟩ := List.exists_mem_of_ne_nil probes hne
  rw [← hprobes] at hq
  obtain ⟨item, hitem, hprobe⟩ := List.mem_filterMap.mp hq
  cases item with
  | instr opcode arg => cases hprobe
  | probe p o =>
      obtain ⟨items₁, items₂, rfl⟩ := List.append_of_mem hitem
      rw [List.flatMap_append, List.flatMap_cons] at hnodes
      obtain ⟨nodes₁, rest, rfl, hnodes₁, hrest⟩ := List.map_eq_append_iff.mp hnodes
      have hcall : rest.map ILInstr.content = [(ceeLdcI4, o % 2 ^ 32),
          (ceeLdcI4, methodId.toBitVec.toNat % 2 ^ 32), (ceeLdcI8, (covProb p).addr)]
          ++ (ceeCalli, (covProb p).sig) :: items₂.flatMap (Item.contents covProb methodId) := hrest
      obtain ⟨constants, back, rfl, hconstants, hback⟩ := List.map_eq_append_iff.mp hcall
      obtain ⟨n, back, rfl, -, -⟩ := List.map_eq_cons_iff.mp hback
      have hstays := h.stays_items fun item hitem => hitems item (List.mem_append_left _ hitem)
      refine ⟨nodes₁ ++ constants, n, back, (List.append_assoc _ _ _).symm, fun depth => ?_⟩
      rw [List.map_append, effect.behind_append, hnodes₁, hstays.behind, Option.bind_some, hconstants,
        h.behind_constants (by simp)]
      rfl

theorem ProbeEffects.stays_enter {isMain : Bool} {o : ℕ} {enter : List ILInstr}
    (henter : enter.map ILInstr.content
      = enterContents covProb methodId (ILRewriter.enterMethod isMain) o) :
    Stays effect (enter.map ILInstr.content) 4 := by
  have hstays : Stays effect ([(ceeLdcI4, o % 2 ^ 32),
      (ceeLdcI4, methodId.toBitVec.toNat % 2 ^ 32), (ceeLdcI40, 0),
      (ceeLdcI8, (covProb (ILRewriter.enterMethod isMain)).addr)]
        ++ [(ceeCalli, (covProb (ILRewriter.enterMethod isMain)).sig)])
          ((ILRewriter.enterMethod isMain).parameters + 1) :=
    h.stays_call (by simp) (by rw [enterMethod_parameters]; rfl)
  rw [enterMethod_parameters] at hstays
  rw [henter]
  exact hstays

end Probes

/-! ### Successors in a rewritten list -/

theorem IsInserted.passesOn {opcode : ℕ} (h : IsInserted opcode) :
    PassesOn opcode ∧ opcode ≠ ceeSwitch ∧ opcode ≠ ceeSwitchArg := by
  rcases h with rfl | rfl | rfl | rfl | rfl <;> decide

theorem listSuccessors_inserted {n : ILInstr} {rest : List ILInstr} (h : IsInserted n.m_opcode)
    (hrest : rest.dropWhile ILInstr.isSlot = rest) :
    listSuccessors n rest = [headAddr ILInstr.addr pIL rest] := by
  have htarget : ¬HasTarget n.m_opcode := by
    rw [HasTarget, h.lt.2]
    exact Bool.false_ne_true
  rw [listSuccessors, if_pos h.passesOn.1, hrest, if_neg h.passesOn.2.1, if_neg htarget]
  rfl

/-- No slot stands at the start. -/
theorem dropWhile_inserted {nodes rest : List ILInstr} (hnodes : ∀ n ∈ nodes, IsInserted n.m_opcode)
    (hrest : rest.dropWhile ILInstr.isSlot = rest) :
    (nodes ++ rest).dropWhile ILInstr.isSlot = nodes ++ rest := by
  cases nodes with
  | nil => exact hrest
  | cons n nodes =>
      refine List.dropWhile_cons_of_neg ?_
      rw [ILInstr.isSlot, decide_eq_true_eq]
      exact (hnodes n List.mem_cons_self).passesOn.2.2

theorem RawInstr.targets_eq {i : RawInstr} (hlt : i.opcode < ceeCount) : i.targets
    = if i.opcode = ceeSwitch then i.slotTargets
      else if HasTarget i.opcode then [i.argWord] else [] := by
  have hall : ∀ opcode < ceeCount,
      (HasTarget opcode ↔ opcode ≠ ceeSwitch ∧ (opCtrl opcode = .ctrlBranch
        ∨ opCtrl opcode = .ctrlCondBranch)) ∧ opCtrl ceeSwitch = .ctrlCondBranch := by
    decide +kernel
  obtain ⟨htarget, hswitch⟩ := hall i.opcode hlt
  rw [RawInstr.targets]
  by_cases hop : i.opcode = ceeSwitch
  · rw [if_pos hop, if_pos hop, hop, hswitch]
  · rw [if_neg hop, if_neg hop]
    cases hctrl : opCtrl i.opcode with
    | ctrlBranch => rw [if_pos (htarget.mpr ⟨hop, Or.inl hctrl⟩)]
    | ctrlCondBranch => rw [if_pos (htarget.mpr ⟨hop, Or.inr hctrl⟩)]
    | _ =>
        rw [if_neg fun hhas => ?_]
        rcases (htarget.mp hhas).2 with h | h <;> rw [hctrl] at h <;> cases h

theorem SameOperation.effect_eq {t : ℕ → ℕ} {i : RawInstr} {g : Group} (h : SameOperation t i g)
    (effect : StackEffect) :
    effect.of g.instr.m_opcode g.instr.m_Arg64 = effect.of i.opcode i.operand := by
  funext depth
  rw [StackEffect.of, StackEffect.of, h.opcode]
  by_cases htarget : HasTarget i.opcode
  · rw [if_pos htarget, if_pos htarget]
  · rw [if_neg htarget, if_neg htarget, h.operand htarget]

/-- Control goes from the instruction of a group to where it went before, past the slots. -/
theorem Stands.successors_eq {t : ℕ → ℕ} {i : RawInstr} {g : Group} (h : Stands t i g)
    (hlt : i.opcode < ceeCount) {rest : List ILInstr} (hrest : rest.dropWhile ILInstr.isSlot = rest) :
    listSuccessors g.instr (g.slots ++ rest)
      = (if i.FallsThrough then [headAddr ILInstr.addr pIL rest] else []) ++ i.targets.map t := by
  have hslots : ∀ n ∈ g.slots, n.isSlot = true := fun n hn => decide_eq_true (h.slot_eq hn).1
  have hlead : leadingSlots (g.slots ++ rest) = g.slots := by
    rw [leadingSlots, List.takeWhile_append_of_pos hslots]
    have hnone : rest.takeWhile ILInstr.isSlot = [] := by
      have hboth := List.takeWhile_append_dropWhile (p := ILInstr.isSlot) (l := rest)
      rw [hrest] at hboth
      exact List.self_eq_append_left.mp hboth.symm
    rw [hnone, List.append_nil]
  have htargets : g.slots.map ILInstr.m_pTarget = i.slotTargets.map t := by
    have hmap := congrArg (List.map Prod.snd) h.operation.slots
    rw [List.map_map, List.map_map] at hmap
    exact hmap
  rw [listSuccessors, h.operation.opcode, List.dropWhile_append_of_pos hslots, hrest, hlead, htargets,
    RawInstr.targets_eq hlt]
  refine congrArg₂ (· ++ ·) rfl ?_
  by_cases hswitch : i.opcode = ceeSwitch
  · rw [if_pos hswitch, if_pos hswitch]
  · rw [if_neg hswitch, if_neg hswitch]
    by_cases htarget : HasTarget i.opcode
    · rw [if_pos htarget, if_pos htarget, h.operation.target htarget]
      rfl
    · rw [if_neg htarget, if_neg htarget]
      rfl

/-- The nodes of the groups from a position on. -/
def groupsFrom (gs : List Group) (k : ℕ) : List ILInstr := (gs.drop k).flatMap Group.nodes

theorem groupsFrom_eq {gs : List Group} {g : Group} {k : ℕ} (hg : gs[k]? = some g) : groupsFrom gs k
    = g.lead ++ g.instr :: (g.slots ++ (g.trail ++ groupsFrom gs (k + 1))) := by
  rw [groupsFrom, drop_of_getElem? hg, List.flatMap_cons, Group.nodes]
  simp [groupsFrom]

namespace RewrittenBody

variable {covProb : Probe → ProbeCall} {methodId : Int32} {isMain : Bool} {body : MethodBody}
  {is : List RawInstr} {s' : ILRewriter} {enter : List ILInstr} {gs : List Group}
  (hr : RewrittenBody covProb methodId isMain body is s' enter gs) (h : ValidBody body is)

include hr

theorem restAt_boundary {k : ℕ} (hk : k ≤ is.length) :
    RestAt s' (targetOf is body.code.size (boundaryAt is body.code.size k)) (groupsFrom gs k) :=
  ⟨⟨frontNodes enter gs k, hr.list_split k⟩, (hr.targetOf_boundary hk).symm⟩

include h

omit hr in
theorem not_isSlot {i : RawInstr} {g : Group} {k : ℕ} (hi : is[k]? = some i)
    (hstands : Stands (targetOf is body.code.size) i g) (rest : List ILInstr) :
    (g.instr :: rest).dropWhile ILInstr.isSlot = g.instr :: rest := by
  refine List.dropWhile_cons_of_neg ?_
  rw [ILInstr.isSlot, decide_eq_true_eq, hstands.operation.opcode]
  exact h.decoded.ne_switchArg (List.mem_of_getElem? hi)

theorem groupsFrom_dropWhile (k : ℕ) :
    (groupsFrom gs k).dropWhile ILInstr.isSlot = groupsFrom gs k := by
  cases hg : gs[k]? with
  | none =>
      have hnil : gs.drop k = [] := List.drop_eq_nil_iff.mpr (List.getElem?_eq_none_iff.mp hg)
      rw [groupsFrom, hnil]
      rfl
  | some g =>
      obtain ⟨i, hi⟩ := hr.getElem?_instr hg
      obtain ⟨g', hg', hstands⟩ := hr.getElem?_group hi
      obtain rfl := Option.some.inj (hg.symm.trans hg')
      rw [groupsFrom_eq hg]
      exact dropWhile_inserted hstands.lead (not_isSlot h hi hstands _)

end RewrittenBody

end TestExecutor
