import Mathlib.Data.List.Count
import TestExecutor.Rewriter.Groups

/-!
# The offsets that probes carry

Every call of a probe gets a constant for an offset in the original code.

* `Instrumentation` — a rewritten list read as probe calls with their offset constants and as the
  instructions of the imported list;
* `constants_perm` — the constants do not depend on how the list is read;
* `probeCalls`, `exists_instrumentation` — the calls that `RewriteIL` makes;
* `CarriesInstrOffsets`, `carriesInstrOffsets_iff` — when the constants are offsets of instructions.
-/

namespace TestExecutor

open TestExecutor.Library

/-! ### Reading a rewritten list -/

def Item.instr? : Item → Option (ℕ × ℕ)
  | .instr opcode arg => some (opcode, arg)
  | .probe _ _ => none

/-- Without its `nop`s. -/
def operations (contents : List (ℕ × ℕ)) : List (ℕ × ℕ) :=
  contents.filter fun c => decide (c.1 ≠ ceeNop)

/-- The offset constants of the probes, as 32-bit words. -/
def constants (items : List Item) : List ℕ :=
  (items.filterMap Item.probe?).map fun p => p.2 % 2 ^ 32

/-- The rewritten list `s'` is a call of the probe at the entry with the constant `offset`, and then
calls of probes and instructions; the instructions are those of `s`, `nop`s apart. -/
structure Instrumentation (covProb : Probe → ProbeCall) (methodId : Int32) (isMain : Bool)
    (s s' : ILRewriter) (offset : ℕ) (items : List Item) : Prop where
  contents : s'.m_IL.map ILInstr.content
    = enterContents covProb methodId (ILRewriter.enterMethod isMain) offset
      ++ items.flatMap (Item.contents covProb methodId)
  instrs : operations (items.filterMap Item.instr?) = operations (s.m_IL.map ILInstr.content)

/-- The offset constants that `RewriteIL` passes to probes are offsets of instructions. -/
def CarriesInstrOffsets (covProb : Probe → ProbeCall) (methodId : Int32) (isMain : Bool)
    (body : MethodBody) (is : List RawInstr) : Prop :=
  ∃ s s' offset items, ILRewriter.importBody body = .ok s
    ∧ s.rewriteIL covProb methodId isMain = .ok s'
    ∧ Instrumentation covProb methodId isMain s s' offset items
    ∧ IsStart is offset ∧ ∀ p o, Item.probe p o ∈ items → IsStart is o

/-! ### The constants are determined -/

section Unique

variable {covProb : Probe → ProbeCall} {methodId : Int32} {isMain : Bool} {s s' : ILRewriter}
  {offset offset' : ℕ} {items items' : List Item}

theorem count_operations {contents : List (ℕ × ℕ)} {opcode : ℕ} (arg : ℕ) (hne : opcode ≠ ceeNop) :
    (operations contents).count (opcode, arg) = contents.count (opcode, arg) :=
  List.count_filter (by simpa using hne)

/-- Every probe calls once. -/
theorem count_calli (covProb : Probe → ProbeCall) (methodId : Int32) (items : List Item) :
    ((items.flatMap (Item.contents covProb methodId)).countP fun c => decide (c.1 = ceeCalli))
      = ((items.filterMap Item.instr?).countP fun c => decide (c.1 = ceeCalli))
        + (constants items).length := by
  induction items with
  | nil => rfl
  | cons item items ih =>
      rw [List.flatMap_cons, List.countP_append, ih]
      cases item with
      | instr opcode arg =>
          rw [List.filterMap_cons_some (show Item.instr? (.instr opcode arg) = some (opcode, arg) from rfl),
            List.countP_cons, Item.contents, List.countP_singleton]
          show _ = _ + (constants items).length
          split <;> omega
      | probe p o =>
          have hone : (Item.contents covProb methodId (.probe p o)).countP
              (fun c => decide (c.1 = ceeCalli)) = 1 := rfl
          rw [hone, List.filterMap_cons_none rfl]
          show _ = _ + ((constants items).length + 1)
          omega

/-- Every probe loads its offset and the id of the method. -/
theorem count_ldc (covProb : Probe → ProbeCall) (methodId : Int32) (v : ℕ) (items : List Item) :
    (items.flatMap (Item.contents covProb methodId)).count (ceeLdcI4, v)
      = (items.filterMap Item.instr?).count (ceeLdcI4, v) + (constants items).count v
        + if methodId.toBitVec.toNat % 2 ^ 32 = v then (constants items).length else 0 := by
  induction items with
  | nil => simp [constants]
  | cons item items ih =>
      rw [List.flatMap_cons, List.count_append, ih]
      cases item with
      | instr opcode arg =>
          rw [List.filterMap_cons_some (show Item.instr? (.instr opcode arg) = some (opcode, arg) from rfl),
            Item.contents, List.count_singleton, List.count_cons]
          show _ = _ + (constants items).count v + if _ then (constants items).length else 0
          omega
      | probe p o =>
          have hprobe : constants (.probe p o :: items) = o % 2 ^ 32 :: constants items := rfl
          have hone : (Item.contents covProb methodId (.probe p o)).count (ceeLdcI4, v)
              = (if o % 2 ^ 32 = v then 1 else 0)
                + if methodId.toBitVec.toNat % 2 ^ 32 = v then 1 else 0 := by
            rw [Item.contents, probeContents]
            simp [List.count_cons, ceeLdcI4, ceeLdcI8, ceeCalli]
            omega
          rw [hone, List.filterMap_cons_none rfl, hprobe, List.count_cons, List.length_cons]
          simp only [beq_iff_eq]
          split <;> split <;> omega

theorem countP_calli_operations (contents : List (ℕ × ℕ)) :
    ((operations contents).countP fun c => decide (c.1 = ceeCalli))
      = contents.countP fun c => decide (c.1 = ceeCalli) := by
  rw [operations, List.countP_filter]
  refine List.countP_congr fun c _ => ?_
  have hne : ceeCalli ≠ ceeNop := by decide
  constructor
  · intro hboth
    exact (Bool.and_eq_true_iff.mp hboth).1
  · intro hcalli
    rw [Bool.and_eq_true_iff]
    refine ⟨hcalli, decide_eq_true ?_⟩
    rw [of_decide_eq_true hcalli]
    exact hne

/-- **The constants are those of every reading.** -/
theorem constants_perm (h : Instrumentation covProb methodId isMain s s' offset items)
    (h' : Instrumentation covProb methodId isMain s s' offset' items') :
    (constants items).Perm (constants items') := by
  have hcontents : items.flatMap (Item.contents covProb methodId)
      = items'.flatMap (Item.contents covProb methodId) :=
    (List.append_inj (h.contents.symm.trans h'.contents) rfl).2
  have hinstrs := h.instrs.trans h'.instrs.symm
  have hcalli := congrArg (List.countP fun c => decide (c.1 = ceeCalli)) hinstrs
  rw [countP_calli_operations, countP_calli_operations] at hcalli
  have hlength : (constants items).length = (constants items').length := by
    have hcount := count_calli covProb methodId items
    have hcount' := count_calli covProb methodId items'
    rw [hcontents] at hcount
    omega
  rw [List.perm_iff_count]
  intro v
  have hldc := congrArg (List.count (ceeLdcI4, v)) hinstrs
  rw [count_operations v (by decide), count_operations v (by decide)] at hldc
  have hcount := count_ldc covProb methodId v items
  have hcount' := count_ldc covProb methodId v items'
  rw [hcontents, hlength] at hcount
  omega

end Unique

/-! ### The calls of `RewriteIL` -/

/-- The calls of probes between the instructions, in their order. -/
def probeCalls (leaveMethod : Probe) (eh : List EhInfo) (targets : List ℕ) :
    List RawInstr → List RawInstr → List (Probe × ℕ)
  | _, [] => []
  | pre, i :: post =>
      ((annotate leaveMethod eh targets pre i post).before
          ++ (annotate leaveMethod eh targets pre i post).after.toList)
        ++ probeCalls leaveMethod eh targets (pre ++ [i]) post

section Calls

variable {covProb : Probe → ProbeCall} {methodId : Int32} {isMain : Bool} {body : MethodBody}
  {is pre post : List RawInstr} {s s' : ILRewriter} {segs : ℕ → List ILInstr} {i : RawInstr}
  {t : ℕ → ℕ} {g : Group} {leaveMethod : Probe} {eh : List EhInfo} {targets : List ℕ}

theorem mem_probeCalls {call : Probe × ℕ} (hcall : call ∈ probeCalls leaveMethod eh targets pre post) :
    ∃ front i back, post = front ++ i :: back
      ∧ (call ∈ (annotate leaveMethod eh targets (pre ++ front) i back).before
        ∨ call ∈ (annotate leaveMethod eh targets (pre ++ front) i back).after) := by
  induction post generalizing pre with
  | nil => exact absurd hcall List.not_mem_nil
  | cons i post ih =>
      rcases List.mem_append.mp hcall with hcall | hcall
      · refine ⟨[], i, post, rfl, ?_⟩
        rw [List.append_nil]
        exact (List.mem_append.mp hcall).imp_right Option.mem_toList.mp
      · obtain ⟨front, k, back, rfl, hk⟩ := ih hcall
        refine ⟨i :: front, k, back, rfl, ?_⟩
        rwa [List.append_assoc, List.singleton_append] at hk

theorem probeCalls_mem {call : Probe × ℕ} {front back : List RawInstr} (hpost : post = front ++ i :: back)
    (hcall : call ∈ (annotate leaveMethod eh targets (pre ++ front) i back).after) :
    call ∈ probeCalls leaveMethod eh targets pre post := by
  induction front generalizing pre post with
  | nil =>
      subst hpost
      rw [List.append_nil] at hcall
      exact List.mem_append_left _ (List.mem_append_right _ (Option.mem_toList.mpr hcall))
  | cons k front ih =>
      subst hpost
      refine List.mem_append_right _ (ih rfl ?_)
      rwa [List.append_assoc, List.singleton_append]

/-- Padding holds no operations. -/
theorem PaddedWith.operations_eq {probes : List (Probe × ℕ)} {nodes : List ILInstr}
    (h : PaddedWith covProb methodId probes nodes) : ∃ items : List Item,
      nodes.map ILInstr.content = items.flatMap (Item.contents covProb methodId)
        ∧ items.filterMap Item.probe? = probes
        ∧ operations (items.filterMap Item.instr?) = [] := by
  obtain ⟨items, hitems, hprobes, -, hnodes⟩ := h
  refine ⟨items, hnodes, hprobes, List.filter_eq_nil_iff.mpr fun c hc => ?_⟩
  obtain ⟨item, hitem, hinstr⟩ := List.mem_filterMap.mp hc
  cases item with
  | instr opcode arg =>
      obtain rfl := Option.some.inj hinstr
      have hnop : opcode = ceeNop := hitems _ hitem
      simp [hnop]
  | probe p o => cases hinstr

/-- Instructions as items. -/
def instrItems (contents : List (ℕ × ℕ)) : List Item := contents.map fun c => .instr c.1 c.2

theorem instrItems_eq (covProb : Probe → ProbeCall) (methodId : Int32) (contents : List (ℕ × ℕ)) :
    (instrItems contents).flatMap (Item.contents covProb methodId) = contents
      ∧ (instrItems contents).filterMap Item.probe? = []
      ∧ (instrItems contents).filterMap Item.instr? = contents := by
  induction contents with
  | nil => exact ⟨rfl, rfl, rfl⟩
  | cons c contents ih =>
      exact ⟨congrArg (List.cons c) ih.1, ih.2.1, congrArg (List.cons c) ih.2.2⟩

/-- The items of a group. -/
theorem GroupOf.exists_items {ann : Annotations} (h : GroupOf covProb methodId t ann i g) (a : ℕ) :
    ∃ items : List Item, g.nodes.map ILInstr.content = items.flatMap (Item.contents covProb methodId)
      ∧ items.filterMap Item.probe? = ann.before ++ ann.after.toList
      ∧ operations (items.filterMap Item.instr?)
        = operations ((instrNode t a i :: i.tableNodes t a).map ILInstr.content) := by
  obtain ⟨lead, hlead, hbefore, hnoLead⟩ := h.lead.operations_eq
  obtain ⟨trail, htrail, hafter, hnoTrail⟩ := h.trail.operations_eq
  have hcontent : g.instr.content = (instrNode t a i).content := by
    rw [ILInstr.content, ILInstr.content, h.operation.opcode, instrNode_opcode]
    by_cases htarget : HasTarget i.opcode
    · have harg : g.instr.m_Arg64 = (instrNode t a i).m_Arg64 :=
        (h.operation.target htarget).trans (instrNode_target htarget).symm
      rw [harg]
    · rw [h.operation.operand htarget, instrNode_arg htarget]
  have hslots : g.slots.map ILInstr.content = (i.tableNodes t a).map ILInstr.content := by
    rw [h.operation.slots, RawInstr.tableNodes, tableNodes_content]
  obtain ⟨hflat, hnone, hsome⟩ := instrItems_eq covProb methodId
    ((instrNode t a i :: i.tableNodes t a).map ILInstr.content)
  refine ⟨lead ++ instrItems ((instrNode t a i :: i.tableNodes t a).map ILInstr.content) ++ trail,
    ?_, ?_, ?_⟩
  · rw [List.flatMap_append, List.flatMap_append, hflat, ← hlead, ← htrail, Group.nodes,
      List.map_cons, ← hcontent, ← hslots]
    simp
  · rw [List.filterMap_append, List.filterMap_append, hnone, hbefore, hafter, List.append_nil]
  · rw [List.filterMap_append, List.filterMap_append, hsome, operations, List.filter_append,
      List.filter_append, ← operations, ← operations, ← operations, hnoLead, hnoTrail,
      List.append_nil, List.nil_append]

/-- The items of groups. -/
theorem Aligned.exists_items {a : ℕ} {gs : List Group}
    (h : Aligned (IsGroup covProb methodId leaveMethod body is s segs) pre post gs) :
    ∃ items : List Item, (gs.flatMap Group.nodes).map ILInstr.content
        = items.flatMap (Item.contents covProb methodId)
      ∧ items.filterMap Item.probe?
        = probeCalls leaveMethod body.eh (branchTargets is) pre post
      ∧ operations (items.filterMap Item.instr?) = operations
        ((importedNodes (targetOf is body.code.size) a post).map ILInstr.content) := by
  induction post generalizing pre a gs with
  | nil =>
      cases gs with
      | nil => exact ⟨[], rfl, rfl, rfl⟩
      | cons g gs => exact absurd h id
  | cons i post ih =>
      cases gs with
      | nil => exact absurd h id
      | cons g gs =>
          obtain ⟨items, hnodes, hprobes, hinstrs⟩ := h.1.1.exists_items a
          obtain ⟨items', hnodes', hprobes', hinstrs'⟩ := ih (a := addrBehind a i) h.2
          refine ⟨items ++ items', ?_, ?_, ?_⟩
          · rw [List.flatMap_cons, List.map_append, hnodes, hnodes', List.flatMap_append]
          · rw [List.filterMap_append, hprobes, hprobes']
            rfl
          · rw [List.filterMap_append, operations, List.filter_append, ← operations, ← operations,
              hinstrs, hinstrs', importedNodes, ← List.cons_append, List.map_append, operations,
              operations, ← List.filter_append]
            rfl

end Calls

/-! ### When the constants are offsets of instructions -/

namespace ValidBody

variable {covProb : Probe → ProbeCall} {methodId : Int32} {isMain : Bool} {body : MethodBody}
  {is : List RawInstr} (h : ValidBody body is)

include h

/-- **The calls of a valid body**: those of the annotations, behind that at the entry. -/
theorem exists_instrumentation (covProb : Probe → ProbeCall) (methodId : Int32) (isMain : Bool) :
    ∃ s s' offset items, ILRewriter.importBody body = .ok s
      ∧ s.rewriteIL covProb methodId isMain = .ok s'
      ∧ Instrumentation covProb methodId isMain s s' offset items ∧ IsStart is offset
      ∧ items.filterMap Item.probe?
        = probeCalls (ILRewriter.leaveMethod isMain) body.eh (branchTargets is) [] is := by
  obtain ⟨s, hs, himported⟩ := h.imported
  obtain ⟨s', enter, segs, hrewrite, hres, -⟩ :=
    rewriteIL_eq (h.rewritable himported) isMain
  obtain ⟨gs, hlist, haligned⟩ := h.exists_groups himported hres
  obtain ⟨items, hnodes, hprobes, hinstrs⟩ := haligned.exists_items (a := pIL + 1)
  obtain ⟨w, ws, hanchors, henter⟩ := hres.enter_eq
  refine ⟨s, s', w.m_offset, items, hs, hrewrite, ⟨?_, ?_⟩, ?_, hprobes⟩
  · rw [hlist, List.map_append, henter, hnodes]
  · have hcontent : s.countOffsets.m_IL.map ILInstr.content = s.m_IL.map ILInstr.content :=
      countOffsetsFrom_map_content s.m_IL 0
    rw [hinstrs, ← himported.list_eq, hcontent]
  · -- the first node is that of an instruction, or the old one of a `tail.`
    obtain ⟨i, post, his⟩ := List.exists_cons_of_ne_nil h.nonempty
    have hIL := himported.list_split (show is = [] ++ i :: post from his)
    rw [ILRewriter.anchors, hIL, importedNodes, List.nil_append, scanned] at hanchors
    have hop := instrNode_opcode (targetOf is body.code.size) (addrBehindAll (pIL + 1) []) i
    by_cases htail : i.opcode = ceeTailcall
    · rw [if_pos (hop.trans htail)] at hanchors
      obtain ⟨rfl, -⟩ := List.cons.inj hanchors
      obtain ⟨c, r, rest, rfl, -, -⟩ := h.tail_split (show is = [] ++ i :: post from his) htail
      have hret := (h.tail_offsets (t := targetOf is body.code.size)
        (a := addrBehindAll (pIL + 1) []) (show is = [] ++ i :: c :: r :: rest from his) htail).2
      exact ⟨r, by rw [his]; simp, hret.symm⟩
    · rw [if_neg (by rw [hop]; exact htail)] at hanchors
      obtain ⟨rfl, -⟩ := List.cons.inj hanchors
      exact ⟨i, by rw [his]; simp, (instrNode_offset _ _ _).symm⟩

/-- A call that an annotation asks for has the offset of an instruction, unless it stands behind the
last slot of a switch. -/
theorem annotate_isStart {leaveMethod : Probe} {pre post : List RawInstr} {i : RawInstr}
    (his : is = pre ++ i :: post) (hfree : i.slots ≠ [] → i.next ∉ branchTargets is)
    {call : Probe × ℕ}
    (hcall : call ∈ (annotate leaveMethod body.eh (branchTargets is) pre i post).before
      ∨ call ∈ (annotate leaveMethod body.eh (branchTargets is) pre i post).after) :
    IsStart is call.2 := by
  have hi : i ∈ is := by rw [his]; simp
  by_cases htail : i.opcode = ceeTailcall
  · obtain ⟨c, r, rest, rfl, -, -⟩ := h.tail_split his htail
    have hann : annotate leaveMethod body.eh (branchTargets is) pre i (c :: r :: rest) = _ :=
      if_pos htail
    rw [hann] at hcall
    rcases hcall with hcall | hcall
    · rcases List.mem_append.mp hcall with hcall | hcall
      · obtain ⟨p, -, rfl⟩ := List.mem_map.mp hcall
        exact ⟨r, by rw [his]; simp, rfl⟩
      · obtain rfl := List.mem_singleton.mp hcall
        exact ⟨c, by rw [his]; simp, rfl⟩
    · cases hcall
  · have hann : annotate leaveMethod body.eh (branchTargets is) pre i post = _ := if_neg htail
    rw [hann] at hcall
    rcases hcall with hcall | hcall
    · obtain ⟨p, -, rfl⟩ := List.mem_map.mp hcall
      exact ⟨i, hi, rfl⟩
    · dsimp only at hcall
      split at hcall
      · obtain ⟨p, -, rfl⟩ := Option.map_eq_some_iff.mp hcall
        exact ⟨i, hi, rfl⟩
      · rename_i hslots
        rw [if_neg (hfree hslots)] at hcall
        cases hcall

/-- A switch whose last slot stands in front of a branch target: the call behind it carries the
offset of the slot. -/
theorem not_mem_branchTargets {covProb : Probe → ProbeCall} {methodId : Int32} {isMain : Bool}
    (hcarries : CarriesInstrOffsets covProb methodId isMain body is) {i : RawInstr} (hi : i ∈ is)
    (hslots : i.slots ≠ []) : i.next ∉ branchTargets is := by
  intro hnext
  obtain ⟨s, s', offset, items, hs, hrewrite, hinstrumentation, -, hcalls⟩ :=
    h.exists_instrumentation covProb methodId isMain
  obtain ⟨s₁, s₁', offset', items', hs₁, hrewrite₁, hinstrumentation', -, hstarts⟩ := hcarries
  obtain rfl := Except.ok.inj (hs.symm.trans hs₁)
  obtain rfl := Except.ok.inj (hrewrite.symm.trans hrewrite₁)
  obtain ⟨pre, post, his⟩ := List.append_of_mem hi
  have hswitch := h.decoded.slots_switch hi hslots
  have hann : annotate (ILRewriter.leaveMethod isMain) body.eh (branchTargets is) pre i post = _ :=
    if_neg (by rw [hswitch]; decide)
  dsimp only at hann
  rw [if_neg hslots, if_pos hnext] at hann
  have hcall : (Probe.coverage, i.next - 4) ∈ items.filterMap Item.probe? := by
    rw [hcalls]
    exact probeCalls_mem his (by rw [List.nil_append, hann]; rfl)
  have hconstant := (constants_perm hinstrumentation hinstrumentation').subset
    (List.mem_map_of_mem hcall)
  -- another reading has the constant as the offset of an instruction
  obtain ⟨⟨p, o⟩, hprobe, ho⟩ := List.mem_map.mp hconstant
  obtain ⟨item, hitem, hprobe⟩ := List.mem_filterMap.mp hprobe
  cases item with
  | instr opcode arg => cases hprobe
  | probe p' o' =>
      obtain ⟨rfl, rfl⟩ := Prod.mk.inj (Option.some.inj hprobe)
      obtain ⟨k, hk, rfl⟩ := hstarts p' o' hitem
      have hcons := h.decoded.consecutive
      have hsize : body.code.size < 2 ^ 31 := body.code.length_lt
      have hkend := (hcons.bounds hk).2
      have hklt := k.offset_lt_next
      have hiend := (hcons.bounds hi).2
      have hlength : 0 < i.slots.length := List.length_pos_iff.mpr hslots
      have hnextOf : i.next = i.operandOffset + operandSize i.opcode + 4 * i.slots.length := rfl
      have hoperand : i.offset < i.operandOffset := by
        have := opcodeSize_pos i.opcode
        rw [RawInstr.operandOffset]
        omega
      dsimp only at ho
      rw [Nat.mod_eq_of_lt (by omega), Nat.mod_eq_of_lt (by omega)] at ho
      rw [hswitch, operandSize_switch] at hnextOf
      have hsame := hcons.disjoint hi hk (by omega) (by omega)
      rw [← hsame] at ho
      omega

/-- **When probes carry offsets of instructions.**  Every constant is the offset of an instruction
exactly if no branch leads behind a switch that has slots. -/
theorem carriesInstrOffsets_iff (covProb : Probe → ProbeCall) (methodId : Int32) (isMain : Bool) :
    CarriesInstrOffsets covProb methodId isMain body is
      ↔ ∀ i ∈ is, i.slots ≠ [] → i.next ∉ branchTargets is := by
  constructor
  · intro hcarries i hi hslots
    exact h.not_mem_branchTargets hcarries hi hslots
  · intro hfree
    obtain ⟨s, s', offset, items, hs, hrewrite, hinstrumentation, hoffset, hcalls⟩ :=
      h.exists_instrumentation covProb methodId isMain
    refine ⟨s, s', offset, items, hs, hrewrite, hinstrumentation, hoffset, fun p o hitem => ?_⟩
    have hcall : (p, o) ∈ items.filterMap Item.probe? := List.mem_filterMap.mpr ⟨_, hitem, rfl⟩
    rw [hcalls] at hcall
    obtain ⟨front, i, back, his, hann⟩ := mem_probeCalls hcall
    exact h.annotate_isStart his (hfree i (by rw [his]; simp)) hann

end ValidBody

/-- A method with a `switch` that has one slot, which leads behind it. -/
def switchMethod : MethodBody := ⟨0, 8, 0, switchBody, []⟩

def switchInstrs : List RawInstr :=
  [⟨0, ceeLdcI40, 0, []⟩, ⟨1, ceeSwitch, 1, [0]⟩, ⟨10, ceeRet, 0, []⟩]

theorem switchMethod_valid : ValidBody switchMethod switchInstrs := by
  refine ⟨by decide +kernel, by decide, by decide +kernel, by decide, by decide +kernel,
    by decide +kernel, by simp [switchMethod], ?_⟩
  exact not_reachable_of_closed [0, 1, 10] (by decide) (by decide +kernel) (by decide)

theorem carriesInstrOffsets_iff_switch :
    CarriesInstrOffsets (fun _ => ⟨0, 0⟩) 0 true switchMethod switchInstrs
      ↔ ∀ i ∈ switchInstrs, i.slots ≠ [] → i.next ∉ branchTargets switchInstrs :=
  switchMethod_valid.carriesInstrOffsets_iff (fun _ => ⟨0, 0⟩) 0 true

/-- The call behind the slot carries its offset, which is not that of an instruction. -/
theorem switch_not_carriesInstrOffsets : ValidBody switchMethod switchInstrs
    ∧ ¬CarriesInstrOffsets (fun _ => ⟨0, 0⟩) 0 true switchMethod switchInstrs := by
  refine ⟨switchMethod_valid, fun hcarries => ?_⟩
  have hfree := switchMethod_valid.not_mem_branchTargets hcarries
    (i := ⟨1, ceeSwitch, 1, [0]⟩) (by simp [switchInstrs]) (by decide)
  exact absurd hfree (by decide +kernel)

end TestExecutor
