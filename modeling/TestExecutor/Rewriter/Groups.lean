import TestExecutor.Rewriter.Annotation

/-!
# The groups of the rewritten list

The rewritten list cut into one group for each original instruction.

* `Group` — padding, the instruction with its switch slots, padding;
* `Padding` — `nop`s and calls of probes that leave the evaluation stack as it was;
* `Annotations`, `annotate` — the probes of an instruction with their offsets;
* `Aligned` — a property of every instruction with its surroundings and its group;
* `GroupOf`, `exists_groups` — the groups of a rewritten valid body.
-/

namespace TestExecutor

open TestExecutor.Library

/-! ### Groups -/

/-- The nodes that stand for one instruction. -/
structure Group where
  lead : List ILInstr
  instr : ILInstr
  slots : List ILInstr
  trail : List ILInstr

namespace Group

def nodes (g : Group) : List ILInstr := g.lead ++ g.instr :: (g.slots ++ g.trail)

def start (g : Group) : ℕ := headAddr ILInstr.addr pIL g.nodes

/-- Where a handler ends that ended with the instruction: with the group, or in front of the new node
of a `tail.`. -/
def EndsAt (g : Group) (i : RawInstr) (last : ℕ) : Prop :=
  ∃ front back, g.nodes = front ++ back ∧ front ≠ [] ∧ last = lastAddr ILInstr.addr pIL front
    ∧ (i.opcode ≠ ceeTailcall → back = []) ∧ (i.opcode = ceeTailcall → g.instr ∈ back)

theorem endsAt_last {g : Group} {i : RawInstr} {last : ℕ} (htail : i.opcode ≠ ceeTailcall)
    (h : last = lastAddr ILInstr.addr pIL g.nodes) : g.EndsAt i last :=
  ⟨g.nodes, [], (List.append_nil _).symm, by simp [nodes], h, fun _ => rfl,
    fun heq => absurd heq htail⟩

theorem EndsAt.last_eq {g : Group} {i : RawInstr} {last : ℕ} (h : g.EndsAt i last)
    (htail : i.opcode ≠ ceeTailcall) : last = lastAddr ILInstr.addr pIL g.nodes := by
  obtain ⟨front, back, hnodes, -, hlast, hback, -⟩ := h
  rw [hnodes, hback htail, List.append_nil]
  exact hlast

end Group

/-- The parameters of a probe, as `initTokens` declares them. -/
def Probe.parameters : Probe → ℕ
  | .enter | .enterMain => 3
  | _ => 2

/-- The depth of the evaluation stack behind constants and calls with so many parameters. -/
def callDepth (parameters : ℕ) : List (ℕ × ℕ) → ℕ → Option ℕ
  | [], depth => some depth
  | (opcode, _) :: rest, depth =>
      if opcode = ceeCalli then
        if parameters + 1 ≤ depth then callDepth parameters rest (depth - (parameters + 1))
        else none
      else callDepth parameters rest (depth + rgnStackPushes opcode)

section Padding

variable (covProb : Probe → ProbeCall) (methodId : Int32)

/-- A `nop`, or a call of a probe that leaves the evaluation stack as it was. -/
def Item.IsPadding : Item → Prop
  | .instr opcode _ => opcode = ceeNop
  | .probe p o => ∀ depth, callDepth p.parameters (probeContents covProb methodId p o) depth = some depth

/-- Nodes that are `nop`s and calls of probes. -/
def Padding (nodes : List ILInstr) : Prop :=
  ∃ items : List Item, (∀ item ∈ items, item.IsPadding covProb methodId)
    ∧ nodes.map ILInstr.content = items.flatMap (Item.contents covProb methodId)

variable {covProb methodId}

theorem isPadding_probe {p : Probe} (h : p.parameters = 2) (o : ℕ) :
    (Item.probe p o).IsPadding covProb methodId := by
  intro depth
  have hpush : rgnStackPushes ceeLdcI4 = 1 ∧ rgnStackPushes ceeLdcI8 = 1 := by decide
  rw [h, probeContents, callDepth, if_neg (by decide), callDepth, if_neg (by decide), callDepth,
    if_neg (by decide), callDepth, if_pos rfl, hpush.1, hpush.2, if_pos (by omega)]
  rfl

theorem enterContents_depth {p : Probe} (h : p.parameters = 3) (o depth : ℕ) :
    callDepth p.parameters (enterContents covProb methodId p o) depth = some depth := by
  have hpush : rgnStackPushes ceeLdcI4 = 1 ∧ rgnStackPushes ceeLdcI8 = 1
    ∧ rgnStackPushes ceeLdcI40 = 1 := by decide
  rw [h, enterContents, callDepth, if_neg (by decide), callDepth, if_neg (by decide), callDepth,
    if_neg (by decide), callDepth, if_neg (by decide), callDepth, if_pos rfl, hpush.1, hpush.2.1,
    hpush.2.2, if_pos (by omega)]
  rfl

end Padding

/-! ### Annotations -/

/-- The probes in front of an instruction, in the order in which they run, and the one behind it,
with their offsets. -/
structure Annotations where
  before : List (Probe × ℕ)
  after : Option (Probe × ℕ)
  deriving DecidableEq, Repr

/-- The probes of an instruction that stands between others. -/
def annotate (leaveMethod : Probe) (eh : List EhInfo) (targets : List ℕ) (pre : List RawInstr)
    (i : RawInstr) (post : List RawInstr) : Annotations :=
  if i.opcode = ceeTailcall then
    match post with
    | c :: r :: _ =>
        ⟨((handlerProbes eh i.offset ++ [Probe.coverage]).map fun p => (p, r.offset))
          ++ [(Probe.tailcall, c.offset)], none⟩
    | _ => ⟨[], none⟩
  else
    let placement := instrPlacement leaveMethod eh targets pre i post
    { before := placement.before.map fun p => (p, i.offset)
      after :=
        if i.slots = [] then placement.after.map fun p => (p, i.offset)
        -- the last slot stands four bytes in front of the next instruction
        else if i.next ∈ targets then some (.coverage, i.next - 4) else none }

def Item.probe? : Item → Option (Probe × ℕ)
  | .instr _ _ => none
  | .probe p o => some (p, o)

/-! ### Instructions and their groups -/

/-- A property of all instructions with what stands in front of them, behind them, and what belongs
to them. -/
def Aligned {α β : Type*} (P : List α → α → List α → β → Prop) : List α → List α → List β → Prop
  | _, [], [] => True
  | pre, i :: post, g :: gs => P pre i post g ∧ Aligned P (pre ++ [i]) post gs
  | _, _, _ => False

theorem Aligned.split {α β : Type*} {P : List α → α → List α → β → Prop} {pre is front post : List α}
    {i : α} {gs : List β} (h : Aligned P pre is gs) (his : is = front ++ i :: post) :
    ∃ gs₁ g gs₂, gs = gs₁ ++ g :: gs₂ ∧ gs₁.length = front.length ∧ P (pre ++ front) i post g
      ∧ Aligned P (pre ++ front ++ [i]) post gs₂ := by
  induction front generalizing pre is gs with
  | nil =>
      subst his
      cases gs with
      | nil => exact absurd h id
      | cons g gs =>
          rw [List.append_nil]
          exact ⟨[], g, gs, rfl, rfl, h.1, h.2⟩
  | cons k front ih =>
      subst his
      cases gs with
      | nil => exact absurd h id
      | cons g gs =>
          obtain ⟨gs₁, g', gs₂, rfl, hlength, hP, hrest⟩ := ih h.2 rfl
          refine ⟨g :: gs₁, g', gs₂, rfl, by rw [List.length_cons, hlength, List.length_cons], ?_, ?_⟩
          · rwa [List.append_assoc, List.singleton_append] at hP
          · rwa [List.append_assoc pre, List.singleton_append] at hrest

theorem Aligned.length_eq {α β : Type*} {P : List α → α → List α → β → Prop} {pre is : List α}
    {gs : List β} (h : Aligned P pre is gs) : gs.length = is.length := by
  induction is generalizing pre gs with
  | nil =>
      cases gs with
      | nil => rfl
      | cons g gs => exact absurd h id
  | cons i is ih =>
      cases gs with
      | nil => exact absurd h id
      | cons g gs => rw [List.length_cons, ih h.2, List.length_cons]

theorem Aligned.forall₂ {α β : Type*} {P : List α → α → List α → β → Prop} {R : α → β → Prop}
    (himp : ∀ pre i post g, P pre i post g → R i g) {pre is : List α} {gs : List β}
    (h : Aligned P pre is gs) : List.Forall₂ R is gs := by
  induction is generalizing pre gs with
  | nil =>
      cases gs with
      | nil => exact List.Forall₂.nil
      | cons g gs => exact absurd h id
  | cons i is ih =>
      cases gs with
      | nil => exact absurd h id
      | cons g gs => exact List.Forall₂.cons (himp _ _ _ _ h.1) (ih h.2)

/-- The nodes are padding with these probes, and nothing where there are none. -/
def PaddedWith (covProb : Probe → ProbeCall) (methodId : Int32) (probes : List (Probe × ℕ))
    (nodes : List ILInstr) : Prop :=
  ∃ items : List Item, (∀ item ∈ items, item.IsPadding covProb methodId)
    ∧ items.filterMap Item.probe? = probes ∧ (probes = [] → items = [])
    ∧ nodes.map ILInstr.content = items.flatMap (Item.contents covProb methodId)

/-- The operation of an instruction and of a node; `t` resolves byte offsets. -/
structure SameOperation (t : ℕ → ℕ) (i : RawInstr) (g : Group) : Prop where
  opcode : g.instr.m_opcode = i.opcode
  target : HasTarget i.opcode → g.instr.m_pTarget = t i.argWord
  operand : ¬ HasTarget i.opcode → g.instr.m_Arg64 = i.operand
  slots : g.slots.map ILInstr.content = i.slotTargets.map fun o => (ceeSwitchArg, t o)

/-- The group of an instruction with the given probes. -/
structure GroupOf (covProb : Probe → ProbeCall) (methodId : Int32) (t : ℕ → ℕ) (ann : Annotations)
    (i : RawInstr) (g : Group) : Prop where
  start : g.start = t i.offset
  lead : PaddedWith covProb methodId ann.before g.lead
  operation : SameOperation t i g
  trail : PaddedWith covProb methodId ann.after.toList g.trail

/-! ### Segments of groups -/

section Segments

variable {covProb : Probe → ProbeCall} {methodId : Int32} {w : ILInstr} {nodes nodes' : List ILInstr}

/-- The segment of a node: what stands in front of its instruction, the instruction, and what
stands behind it. -/
theorem Realizes.split_instr {pl : Placement} {seg : List ILInstr}
    (h : Realizes covProb methodId (nodeItems pl w) w seg) :
    ∃ lead x trail, seg = lead ++ x :: trail ∧ x.m_opcode = w.m_opcode ∧ x.m_Arg64 = w.m_Arg64
      ∧ lead.map ILInstr.content = (leadItems pl.before w).flatMap (Item.contents covProb methodId)
      ∧ trail.map ILInstr.content
        = (trailItems pl.after w).flatMap (Item.contents covProb methodId) := by
  have hcontents := h.contents
  rw [nodeItems, List.flatMap_append, List.flatMap_cons] at hcontents
  obtain ⟨lead, rest, rfl, hlead, hrest⟩ := List.map_eq_append_iff.mp hcontents
  obtain ⟨x, trail, rfl, hx, htrail⟩ := List.map_eq_cons_iff.mp hrest
  obtain ⟨hopcode, harg⟩ := Prod.mk.inj hx
  exact ⟨lead, x, trail, rfl, hopcode, harg, hlead, htrail⟩

/-- A segment starts at the address of its node. -/
theorem Realizes.headAddr_eq {items : List Item} {seg : List ILInstr}
    (h : Realizes covProb methodId items w seg) (post : List ILInstr) :
    headAddr ILInstr.addr pIL (seg ++ post) = w.addr := by
  obtain ⟨i, rest, rfl, haddr, -⟩ := h.anchored
  exact haddr

/-- The end of a segment is the end of what ends with it. -/
theorem Realizes.lastOf_eq {items : List Item} {segs : ℕ → List ILInstr}
    (h : Realizes covProb methodId items w (segs w.addr)) (front : List ILInstr) :
    lastOf segs w.addr = lastAddr ILInstr.addr pIL (front ++ segs w.addr) := by
  obtain ⟨i, rest, hseg, -, -⟩ := h.anchored
  rw [lastOf, hseg, lastAddr_append]
  rfl

theorem paddedWith_nil : PaddedWith covProb methodId [] [] :=
  ⟨[], fun _ h => absurd h List.not_mem_nil, rfl, fun _ => rfl, rfl⟩

theorem PaddedWith.eq_nil {probes : List (Probe × ℕ)} (h : PaddedWith covProb methodId probes nodes)
    (hnil : probes = []) : nodes = [] := by
  obtain ⟨items, -, -, hempty, hnodes⟩ := h
  rw [hempty hnil] at hnodes
  exact List.map_eq_nil_iff.mp hnodes

theorem paddedWith_lead {probes : List Probe} (hprobes : ∀ p ∈ probes, p.parameters = 2)
    (hnodes : nodes.map ILInstr.content
      = (leadItems probes w).flatMap (Item.contents covProb methodId)) :
    PaddedWith covProb methodId (probes.map fun p => (p, w.m_offset)) nodes := by
  refine ⟨leadItems probes w, fun item hitem => ?_, ?_, fun hnil => ?_, hnodes⟩
  · obtain ⟨p, hp, hitem⟩ := List.mem_flatMap.mp hitem
    rcases List.mem_cons.mp hitem with rfl | hitem
    · rfl
    · obtain rfl := List.mem_singleton.mp hitem
      exact isPadding_probe (hprobes p hp) _
  · rw [leadItems, List.filterMap_flatMap]
    exact List.flatMap_pure_eq_map _ _
  · rw [List.map_eq_nil_iff.mp hnil]
    rfl

theorem paddedWith_trail {probe : Option Probe} (hprobe : ∀ p ∈ probe, p.parameters = 2)
    (hnodes : nodes.map ILInstr.content
      = (trailItems probe w).flatMap (Item.contents covProb methodId)) :
    PaddedWith covProb methodId (probe.map fun p => (p, w.m_offset)).toList nodes := by
  refine ⟨trailItems probe w, fun item hitem => ?_, ?_, fun hnil => ?_, hnodes⟩
  · obtain ⟨p, hp, hitem⟩ := List.mem_flatMap.mp hitem
    rcases List.mem_cons.mp hitem with rfl | hitem
    · exact isPadding_probe (hprobe p (Option.mem_toList.mp hp)) _
    · obtain rfl := List.mem_singleton.mp hitem
      rfl
  · cases probe with
    | none => rfl
    | some p => rfl
  · cases probe with
    | none => rfl
    | some p => cases hnil

theorem PaddedWith.append {probes probes' : List (Probe × ℕ)}
    (h : PaddedWith covProb methodId probes nodes) (h' : PaddedWith covProb methodId probes' nodes')
    (hne : probes' ≠ []) : PaddedWith covProb methodId (probes ++ probes') (nodes ++ nodes') := by
  obtain ⟨items, hitems, hprobes, -, hnodes⟩ := h
  obtain ⟨items', hitems', hprobes', -, hnodes'⟩ := h'
  refine ⟨items ++ items', fun item hitem => ?_, ?_, fun hnil => ?_, ?_⟩
  · rcases List.mem_append.mp hitem with hitem | hitem
    · exact hitems item hitem
    · exact hitems' item hitem
  · rw [List.filterMap_append, hprobes, hprobes']
  · exact absurd (List.append_eq_nil_iff.mp hnil).2 hne
  · rw [List.map_append, hnodes, hnodes', List.flatMap_append]

/-- A `nop` is padding. -/
theorem PaddedWith.nop {probes : List (Probe × ℕ)} {x : ILInstr}
    (h : PaddedWith covProb methodId probes nodes) (hne : probes ≠ []) (hx : x.m_opcode = ceeNop) :
    PaddedWith covProb methodId probes (nodes ++ [x]) := by
  obtain ⟨items, hitems, hprobes, -, hnodes⟩ := h
  refine ⟨items ++ [.instr ceeNop x.m_Arg64], fun item hitem => ?_, ?_,
    fun hnil => absurd hnil hne, ?_⟩
  · rcases List.mem_append.mp hitem with hitem | hitem
    · exact hitems item hitem
    · obtain rfl := List.mem_singleton.mp hitem
      rfl
  · rw [List.filterMap_append, hprobes]
    exact List.append_nil probes
  · rw [List.map_append, hnodes, List.flatMap_append, List.map_singleton, ILInstr.content, hx]
    rfl

end Segments

/-! ### The probes of instructions -/

section Parameters

variable {leaveMethod : Probe} (hleave : leaveMethod.parameters = 2)

include hleave

theorem ownProbe_parameters {opcode : ℕ} {p : Probe × Bool}
    (hp : p ∈ ownProbe leaveMethod opcode) : p.1.parameters = 2 := by
  unfold ownProbe at hp
  split at hp
  · obtain rfl := Option.some.inj hp
    rfl
  · split at hp
    · obtain rfl := Option.some.inj hp
      rfl
    · split at hp
      · obtain rfl := Option.some.inj hp
        exact hleave
      · split at hp
        · obtain rfl := Option.some.inj hp
          rfl
        · split at hp
          · obtain rfl := Option.some.inj hp
            rfl
          · cases hp

theorem ownProbes_parameters {pre post : List RawInstr} {i : RawInstr} {p : Probe × Bool}
    (hp : p ∈ ownProbes leaveMethod pre i post) : p.1.parameters = 2 := by
  unfold ownProbes nodeProbes at hp
  split at hp
  · split at hp
    · exact absurd hp List.not_mem_nil
    · obtain rfl := List.mem_singleton.mp hp
      rfl
  · split at hp
    · obtain rfl := List.mem_singleton.mp hp
      rfl
    · split at hp
      · exact absurd hp List.not_mem_nil
      · exact ownProbe_parameters hleave (Option.mem_toList.mp hp)

omit hleave in
theorem handlerProbes_parameters {eh : List EhInfo} {o : ℕ} {p : Probe}
    (hp : p ∈ handlerProbes eh o) : p.parameters = 2 := by
  rw [List.eq_of_mem_replicate hp]
  rfl

theorem instrPlacement_parameters (eh : List EhInfo) (targets : List ℕ) (pre post : List RawInstr)
    (i : RawInstr) :
    (∀ p ∈ (instrPlacement leaveMethod eh targets pre i post).before, p.parameters = 2)
      ∧ ∀ p ∈ (instrPlacement leaveMethod eh targets pre i post).after, p.parameters = 2 := by
  constructor
  · intro p hp
    rcases List.mem_append.mp hp with hp | hp
    · exact handlerProbes_parameters hp
    · obtain ⟨q, hq, rfl⟩ := List.mem_map.mp hp
      exact ownProbes_parameters hleave (List.mem_of_mem_filter hq)
  · intro p hp
    simp only [instrPlacement] at hp
    split at hp
    · split at hp
      · obtain rfl := Option.some.inj hp
        rfl
      · cases hp
    · obtain ⟨q, hq, rfl⟩ := Option.map_eq_some_iff.mp hp
      exact ownProbes_parameters hleave (List.mem_of_find?_eq_some hq)

end Parameters

theorem leaveMethod_parameters (isMain : Bool) :
    (ILRewriter.leaveMethod isMain).parameters = 2 := by cases isMain <;> rfl

theorem enterMethod_parameters (isMain : Bool) :
    (ILRewriter.enterMethod isMain).parameters = 3 := by cases isMain <;> rfl

/-! ### The groups of a rewritten body -/

section Groups

variable {covProb : Probe → ProbeCall} {methodId : Int32} {isMain : Bool} {body : MethodBody}
  {is pre post : List RawInstr} {s s' : ILRewriter} {enter : List ILInstr}
  {segs : ℕ → List ILInstr} {i : RawInstr}

/-- The nodes of slots between which no probe stands. -/
theorem slots_segs {js : List ILInstr} (hjs : ∀ j ∈ js, Realizes covProb methodId
    (nodeItems ⟨[], none⟩ j) j (segs j.addr)) :
    (js.flatMap fun j => segs j.addr).map ILInstr.content = js.map ILInstr.content := by
  induction js with
  | nil => rfl
  | cons j js ih =>
      have hj := (hjs j List.mem_cons_self).contents
      rw [List.flatMap_cons, List.map_append, hj, ih fun k hk => hjs k (List.mem_cons_of_mem j hk)]
      rfl

theorem tableNodes_content (t : ℕ → ℕ) (targets : List ℕ) (a o : ℕ) :
    (tableNodes t a o targets).map ILInstr.content = targets.map fun o => (ceeSwitchArg, t o) := by
  induction targets generalizing a o with
  | nil => rfl
  | cons target targets ih => rw [tableNodes, List.map_cons, ih]; rfl

/-- The last slot stands four bytes in front of the end of its table. -/
theorem tableNodes_last {t : ℕ → ℕ} {targets : List ℕ} {a o : ℕ} {front : List ILInstr} {j : ILInstr}
    (htable : tableNodes t a o targets = front ++ [j]) :
    j.m_offset + 4 = o + 4 * targets.length := by
  induction targets generalizing a o front with
  | nil => exact absurd htable (by simp [tableNodes])
  | cons target targets ih =>
      rw [tableNodes] at htable
      cases front with
      | nil =>
          obtain ⟨rfl, hnil⟩ := List.cons.inj htable
          have hlength := congrArg List.length hnil
          rw [tableNodes_length, List.length_nil] at hlength
          rw [List.length_cons, hlength]
      | cons k front =>
          have := ih (List.cons.inj htable).2
          rw [List.length_cons]
          omega

/-- The operation of a node that is a copy of that of an instruction. -/
theorem sameOperation_instrNode {t : ℕ → ℕ} {a : ℕ} {g : Group}
    (hopcode : g.instr.m_opcode = (instrNode t a i).m_opcode)
    (harg : g.instr.m_Arg64 = (instrNode t a i).m_Arg64)
    (hslots : g.slots.map ILInstr.content = i.slotTargets.map fun o => (ceeSwitchArg, t o)) :
    SameOperation t i g :=
  ⟨hopcode.trans (instrNode_opcode t a i), fun htarget => harg.trans (instrNode_target htarget),
    fun htarget => harg.trans (instrNode_arg htarget), hslots⟩

/-- A group with its annotation, and where a handler ends that ended with the instruction. -/
def IsGroup (covProb : Probe → ProbeCall) (methodId : Int32) (leaveMethod : Probe)
    (body : MethodBody) (is : List RawInstr) (s : ILRewriter) (segs : ℕ → List ILInstr)
    (pre : List RawInstr) (i : RawInstr) (post : List RawInstr) (g : Group) : Prop :=
  GroupOf covProb methodId (targetOf is body.code.size)
      (annotate leaveMethod body.eh (branchTargets is) pre i post) i g
    ∧ g.EndsAt i (lastOf segs (s.m_pPrev (targetOf is body.code.size i.next)))

namespace ValidBody

variable (h : ValidBody body is) (hs : ImportedFrom body is s)

include h hs

/-- The node in front of the end of an instruction is its last one. -/
theorem prev_next (his : is = pre ++ i :: post) {front : List ILInstr} {w : ILInstr}
    (hIL : s.m_IL = front ++ w :: importedNodes (targetOf is body.code.size)
      (addrBehind (addrBehindAll (pIL + 1) pre) i) post) :
    s.m_pPrev (targetOf is body.code.size i.next) = w.addr := by
  rw [← h.decoded.headAddr_nodes his]
  exact hs.linked.prev_next hIL

variable (hres : RewriteResult covProb methodId isMain s s' enter segs)

include hres

/-- The segment of a slot. -/
theorem realizes_slot (his : is = pre ++ i :: post) {front back : List ILInstr} {j : ILInstr}
    (htable : i.tableNodes (targetOf is body.code.size) (addrBehindAll (pIL + 1) pre)
      = front ++ j :: back) :
    Realizes covProb methodId (nodeItems ⟨[], if back = [] ∧ i.next ∈ branchTargets is
      then some .coverage else none⟩ j) j (segs j.addr) := by
  have hreal := hres.realizes j (by
    rw [ILRewriter.anchors, hs.list_split his, htable, List.append_assoc, List.cons_append,
      ← List.cons_append, ← List.append_assoc]
    exact scanned_mem (by rw [tableNodes_opcode (htable ▸ List.mem_append_right _
      List.mem_cons_self)]; decide))
  rwa [h.placement_slot hs his htable] at hreal

/-- The group of an instruction without slots other than a `tail.`. -/
theorem exists_group_plain (his : is = pre ++ i :: post) (htail : i.opcode ≠ ceeTailcall)
    (hslots : i.slots = []) :
    ∃ g : Group, g.nodes = segs (addrBehindAll (pIL + 1) pre)
      ∧ IsGroup covProb methodId (ILRewriter.leaveMethod isMain) body is s segs pre i post g := by
  have hIL := hs.list_split his
  have haddr := instrNode_addr (targetOf is body.code.size) (addrBehindAll (pIL + 1) pre) i
  have hoffset := instrNode_offset (targetOf is body.code.size) (addrBehindAll (pIL + 1) pre) i
  obtain ⟨hbefore, hafter⟩ := instrPlacement_parameters (leaveMethod_parameters isMain)
    body.eh (branchTargets is) pre post i
  have hreal := hres.realizes
    (instrNode (targetOf is body.code.size) (addrBehindAll (pIL + 1) pre) i) (by
      rw [ILRewriter.anchors, hIL]
      exact scanned_mem (by rw [instrNode_opcode]; exact htail))
  rw [h.placement_instr hs his htail] at hreal
  obtain ⟨lead, x, trail, hseg, hopcode, harg, hlead, htrail⟩ := hreal.split_instr
  rw [haddr] at hseg
  have hann : annotate (ILRewriter.leaveMethod isMain) body.eh (branchTargets is) pre i post = _ :=
    if_neg htail
  dsimp only at hann
  rw [if_pos hslots] at hann
  refine ⟨⟨lead, x, [], trail⟩, hseg.symm, ⟨?_, ?_, ?_, ?_⟩, Group.endsAt_last htail ?_⟩
  · have hstart := hreal.headAddr_eq []
    rw [List.append_nil, haddr, hseg] at hstart
    rw [h.decoded.targetOf_split his]
    exact hstart
  · rw [hann, ← hoffset]
    exact paddedWith_lead hbefore hlead
  · refine sameOperation_instrNode hopcode harg ?_
    rw [RawInstr.slotTargets, hslots]
    rfl
  · rw [hann, ← hoffset]
    exact paddedWith_trail hafter htrail
  · rw [RawInstr.tableNodes, RawInstr.slotTargets, hslots] at hIL
    rw [h.prev_next hs his hIL]
    have hlast := hreal.lastOf_eq []
    rw [haddr, hseg] at hlast
    rw [haddr]
    exact hlast

/-- The group of a switch with slots. -/
theorem exists_group_switch (his : is = pre ++ i :: post) (hslots : i.slots ≠ []) :
    ∃ g : Group, g.nodes = segs (addrBehindAll (pIL + 1) pre)
        ++ (i.tableNodes (targetOf is body.code.size) (addrBehindAll (pIL + 1) pre)).flatMap
          (fun w => segs w.addr)
      ∧ IsGroup covProb methodId (ILRewriter.leaveMethod isMain) body is s segs pre i post g := by
  have hswitch : i.opcode = ceeSwitch := h.decoded.slots_switch (by rw [his]; simp) hslots
  have htail : i.opcode ≠ ceeTailcall := by rw [hswitch]; decide
  have hIL := hs.list_split his
  have haddr := instrNode_addr (targetOf is body.code.size) (addrBehindAll (pIL + 1) pre) i
  have hoffset := instrNode_offset (targetOf is body.code.size) (addrBehindAll (pIL + 1) pre) i
  have hown : ownProbes (ILRewriter.leaveMethod isMain) pre i post = [(.branch, true)] :=
    ownProbes_switch hswitch
  have hbefore := (instrPlacement_parameters (leaveMethod_parameters isMain)
    body.eh (branchTargets is) pre post i).1
  -- the segment of the switch ends with it
  have hreal := hres.realizes
    (instrNode (targetOf is body.code.size) (addrBehindAll (pIL + 1) pre) i) (by
      rw [ILRewriter.anchors, hIL]
      exact scanned_mem (by rw [instrNode_opcode]; exact htail))
  rw [h.placement_instr hs his htail] at hreal
  obtain ⟨lead, x, behind, hseg, hopcode, harg, hlead, hbehind⟩ := hreal.split_instr
  rw [haddr] at hseg
  have hafter : (instrPlacement (ILRewriter.leaveMethod isMain) body.eh (branchTargets is) pre i
      post).after = none := by
    simp only [instrPlacement]
    rw [hown, if_neg fun hboth => List.cons_ne_nil _ _ hboth.1]
    rfl
  rw [hafter] at hbehind
  obtain rfl := List.map_eq_nil_iff.mp hbehind
  -- the slots
  obtain ⟨front, j, htable⟩ : ∃ front j, i.tableNodes (targetOf is body.code.size)
      (addrBehindAll (pIL + 1) pre) = front ++ [j] := by
    rcases List.eq_nil_or_concat (i.tableNodes (targetOf is body.code.size)
      (addrBehindAll (pIL + 1) pre)) with hnil | ⟨front, j, htable⟩
    · have hlength := congrArg List.length hnil
      rw [RawInstr.tableNodes, tableNodes_length, RawInstr.slotTargets, List.length_map,
        List.length_nil] at hlength
      exact absurd (List.eq_nil_of_length_eq_zero hlength) hslots
    · exact ⟨front, j, by rw [htable, List.concat_eq_append]⟩
  have hfront : ∀ k ∈ front, Realizes covProb methodId (nodeItems ⟨[], none⟩ k) k
      (segs k.addr) := by
    intro k hk
    obtain ⟨front₁, front₂, rfl⟩ := List.append_of_mem hk
    have htable' := htable
    rw [List.append_assoc, List.cons_append] at htable'
    have hslot := h.realizes_slot hs hres his htable'
    rwa [if_neg fun hboth => List.append_ne_nil_of_right_ne_nil _ (List.cons_ne_nil _ _) hboth.1]
      at hslot
  have hlast := h.realizes_slot hs hres his htable
  obtain ⟨lead', y, trail, hseg', hopcode', harg', hlead', htrail⟩ := hlast.split_instr
  obtain rfl := List.map_eq_nil_iff.mp hlead'
  have hcontents := tableNodes_content (targetOf is body.code.size) i.slotTargets
    (addrBehindAll (pIL + 1) pre + 1) (i.operandOffset + operandSize i.opcode)
  rw [← RawInstr.tableNodes, htable, List.map_append] at hcontents
  have hann : annotate (ILRewriter.leaveMethod isMain) body.eh (branchTargets is) pre i post = _ :=
    if_neg htail
  dsimp only at hann
  rw [if_neg hslots] at hann
  have hnodes : (⟨lead, x, (front.flatMap fun w => segs w.addr) ++ [y], trail⟩ : Group).nodes
      = segs (addrBehindAll (pIL + 1) pre) ++ (front.flatMap (fun w => segs w.addr)
        ++ segs j.addr) := by
    rw [hseg, hseg', Group.nodes]
    simp
  refine ⟨⟨lead, x, (front.flatMap fun w => segs w.addr) ++ [y], trail⟩, ?_, ⟨?_, ?_, ?_, ?_⟩,
    Group.endsAt_last htail ?_⟩
  · rw [hnodes, htable, List.flatMap_append, List.flatMap_singleton]
  · have hstart := hreal.headAddr_eq (front.flatMap (fun w => segs w.addr) ++ segs j.addr)
    rw [haddr] at hstart
    rw [h.decoded.targetOf_split his, Group.start, hnodes]
    exact hstart
  · rw [hann, ← hoffset]
    exact paddedWith_lead hbefore hlead
  · refine sameOperation_instrNode hopcode harg ?_
    rw [List.map_append, slots_segs hfront, ← hcontents, List.map_singleton, List.map_singleton,
      ILInstr.content, ILInstr.content, hopcode', harg']
  · have hend : j.m_offset = i.next - 4 := by
      have hlength := tableNodes_last htable
      rw [RawInstr.slotTargets, List.length_map] at hlength
      rw [RawInstr.next]
      omega
    rw [hann]
    by_cases hnext : i.next ∈ branchTargets is
    · rw [if_pos ⟨rfl, hnext⟩] at htrail
      rw [if_pos hnext, ← hend]
      have hcoverage : ∀ p ∈ some Probe.coverage, p.parameters = 2 := by
        intro p hp
        obtain rfl := Option.some.inj hp
        rfl
      exact paddedWith_trail hcoverage htrail
    · rw [if_neg fun hboth => hnext hboth.2] at htrail
      rw [if_neg hnext]
      obtain rfl := List.map_eq_nil_iff.mp htrail
      exact paddedWith_nil
  · rw [htable, List.append_assoc, List.singleton_append, ← List.cons_append, ← List.append_assoc]
      at hIL
    rw [h.prev_next hs his hIL, hnodes, ← List.append_assoc]
    exact hlast.lastOf_eq _

/-- The group of a `tail.`. -/
theorem exists_group_tail (his : is = pre ++ i :: post) (htail : i.opcode = ceeTailcall) :
    ∃ g : Group, g.nodes = segs (addrBehindAll (pIL + 1) pre) ++ segs (freshBehind s.fresh
        (importedNodes (targetOf is body.code.size) (pIL + 1) pre))
      ∧ IsGroup covProb methodId (ILRewriter.leaveMethod isMain) body is s segs pre i post g := by
  have hIL := hs.list_split his
  have haddr := instrNode_addr (targetOf is body.code.size) (addrBehindAll (pIL + 1) pre) i
  have hop : (instrNode (targetOf is body.code.size) (addrBehindAll (pIL + 1) pre) i).m_opcode
      = ceeTailcall := (instrNode_opcode _ _ _).trans htail
  obtain ⟨c, r, rest, rfl, -, -⟩ := h.tail_split his htail
  obtain ⟨hcall, hret⟩ := h.tail_offsets (t := targetOf is body.code.size)
    (a := addrBehindAll (pIL + 1) pre) his htail
  -- the two nodes
  have hmem := scanned_mem_tail s.fresh (importedNodes (targetOf is body.code.size) (pIL + 1) pre)
    (i.tableNodes (targetOf is body.code.size) (addrBehindAll (pIL + 1) pre)
      ++ importedNodes (targetOf is body.code.size)
        (addrBehind (addrBehindAll (pIL + 1) pre) i) (c :: r :: rest)) hop
  rw [← hIL] at hmem
  obtain ⟨hplacedOld, hplacedNew⟩ := h.placement_tail hs (ILRewriter.leaveMethod isMain)
    his htail (i.tableNodes (targetOf is body.code.size) (addrBehindAll (pIL + 1) pre)
      ++ importedNodes (targetOf is body.code.size)
        (addrBehind (addrBehindAll (pIL + 1) pre) i) (c :: r :: rest))
  have hold := hres.realizes _ hmem.1
  have hnew := hres.realizes _ hmem.2
  rw [hplacedOld] at hold
  rw [hplacedNew] at hnew
  obtain ⟨lead, x, trail, hseg, hopcode, -, hlead, htrail⟩ := hold.split_instr
  obtain ⟨lead', x', trail', hseg', hopcode', harg', hlead', htrail'⟩ := hnew.split_instr
  obtain rfl := List.map_eq_nil_iff.mp htrail
  obtain rfl := List.map_eq_nil_iff.mp htrail'
  have hslots : i.slots = [] := by
    by_contra hne
    have hswitch := h.decoded.slots_switch (by rw [his]; simp) hne
    exact absurd (htail.symm.trans hswitch) (by decide)
  have hoperand : i.operand = 0 := by
    rw [(h.decoded.decodedAt (by rw [his]; simp)).operand_eq, htail]
    rfl
  have hhandlers : ∀ p ∈ handlerProbes body.eh i.offset ++ [Probe.coverage], p.parameters = 2 := by
    intro p hp
    rcases List.mem_append.mp hp with hp | hp
    · exact handlerProbes_parameters hp
    · obtain rfl := List.mem_singleton.mp hp
      rfl
  have htailcall : ∀ p ∈ [Probe.tailcall], p.parameters = 2 := by
    intro p hp
    obtain rfl := List.mem_singleton.mp hp
    rfl
  -- the `nop` at the old node is padding
  have hpadOld := (paddedWith_lead hhandlers hlead).nop (by simp) hopcode
  have hpadNew := paddedWith_lead htailcall hlead'
  have hpad := hpadOld.append hpadNew (List.cons_ne_nil _ _)
  have hann : annotate (ILRewriter.leaveMethod isMain) body.eh (branchTargets is) pre i
      (c :: r :: rest) = _ := if_pos htail
  have haddrOld : segs (addrBehindAll (pIL + 1) pre) = lead ++ [x] := by
    rw [← haddr]
    exact hseg
  have haddrNew : segs (freshBehind s.fresh (importedNodes (targetOf is body.code.size) (pIL + 1)
      pre)) = lead' ++ [x'] := hseg'
  have hnodes : (⟨lead ++ [x] ++ lead', x', [], []⟩ : Group).nodes
      = (lead ++ [x]) ++ (lead' ++ [x']) := by
    rw [Group.nodes]
    simp
  -- a handler that ended with the instruction ends at the old node
  have hend : lastOf segs (s.m_pPrev (targetOf is body.code.size i.next))
      = lastAddr ILInstr.addr pIL (lead ++ [x]) := by
    have hIL' := hIL
    rw [RawInstr.tableNodes, RawInstr.slotTargets, hslots] at hIL'
    rw [h.prev_next hs his hIL', haddr]
    have hlast := hold.lastOf_eq []
    rw [hseg] at hlast
    rw [← haddr]
    exact hlast
  refine ⟨⟨lead ++ [x] ++ lead', x', [], []⟩, ?_, ⟨?_, ?_, ?_, ?_⟩, lead ++ [x], lead' ++ [x'], hnodes,
    List.append_ne_nil_of_right_ne_nil _ (List.cons_ne_nil _ _), hend, fun hne => absurd htail hne,
    fun _ => List.mem_append_right _ List.mem_cons_self⟩
  · rw [haddrOld, haddrNew, hnodes]
  · have hstart := hold.headAddr_eq (lead' ++ [x'])
    rw [hseg] at hstart
    rw [h.decoded.targetOf_split his, Group.start, hnodes, ← haddr]
    exact hstart
  · rw [hann]
    have hlast : (oldTail (instrNode (targetOf is body.code.size) (addrBehindAll (pIL + 1) pre) i)
        (i.tableNodes (targetOf is body.code.size) (addrBehindAll (pIL + 1) pre)
          ++ importedNodes (targetOf is body.code.size)
            (addrBehind (addrBehindAll (pIL + 1) pre) i) (c :: r :: rest))).m_offset = r.offset := hret
    have hfirst : (newTail (freshBehind s.fresh (importedNodes (targetOf is body.code.size) (pIL + 1)
        pre)) (i.tableNodes (targetOf is body.code.size) (addrBehindAll (pIL + 1) pre)
          ++ importedNodes (targetOf is body.code.size)
            (addrBehind (addrBehindAll (pIL + 1) pre) i) (c :: r :: rest))).m_offset = c.offset := hcall
    rw [hlast, hfirst] at hpad
    exact hpad
  · refine ⟨hopcode'.trans htail.symm, fun htarget => ?_, fun _ => harg'.trans hoperand.symm, ?_⟩
    · rw [htail] at htarget
      exact absurd htarget (by decide)
    · rw [RawInstr.slotTargets, hslots]
      rfl
  · rw [hann]
    exact paddedWith_nil

/-- The groups of the last instructions. -/
theorem exists_groups_from (post : List RawInstr) : ∀ pre, is = pre ++ post →
    ∃ gs : List Group, (scanned (freshBehind s.fresh
          (importedNodes (targetOf is body.code.size) (pIL + 1) pre))
        (importedNodes (targetOf is body.code.size) (addrBehindAll (pIL + 1) pre) post)).flatMap
          (fun w => segs w.addr) = gs.flatMap Group.nodes
      ∧ Aligned (IsGroup covProb methodId (ILRewriter.leaveMethod isMain) body is s segs) pre post
        gs := by
  induction post with
  | nil => exact fun pre _ => ⟨[], rfl, trivial⟩
  | cons i post ih =>
      intro pre his
      have his' : is = (pre ++ [i]) ++ post := by rw [his]; simp
      obtain ⟨gs, hnodes, haligned⟩ := ih (pre ++ [i]) his'
      have hi : i ∈ is := by rw [his]; simp
      have hop := instrNode_opcode (targetOf is body.code.size) (addrBehindAll (pIL + 1) pre) i
      have haddr : addrBehindAll (pIL + 1) (pre ++ [i])
          = addrBehind (addrBehindAll (pIL + 1) pre) i := by
        rw [addrBehindAll, List.foldl_append]
        rfl
      rw [importedNodes_append, freshBehind_append, haddr, importedNodes, importedNodes,
        List.append_nil] at hnodes
      by_cases htail : i.opcode = ceeTailcall
      · obtain ⟨g, hg, hgroup⟩ := h.exists_group_tail hs hres his htail
        have htable : i.tableNodes (targetOf is body.code.size) (addrBehindAll (pIL + 1) pre) = [] :=
          h.decoded.tableNodes_eq_nil hi (by rw [htail]; decide) _ _
        refine ⟨g :: gs, ?_, hgroup, haligned⟩
        rw [htable, freshBehind, if_pos (hop.trans htail), freshBehind] at hnodes
        rw [importedNodes, htable, List.nil_append, scanned, if_pos (hop.trans htail),
          List.flatMap_cons, List.flatMap_cons, hnodes, List.flatMap_cons, hg, List.append_assoc]
        have hold : (oldTail (instrNode (targetOf is body.code.size) (addrBehindAll (pIL + 1) pre) i)
            (importedNodes (targetOf is body.code.size)
              (addrBehind (addrBehindAll (pIL + 1) pre) i) post)).addr
            = addrBehindAll (pIL + 1) pre := instrNode_addr _ _ _
        rw [hold]
        rfl
      · have htable : ∀ j ∈ i.tableNodes (targetOf is body.code.size) (addrBehindAll (pIL + 1) pre),
            j.m_opcode = ceeSwitchArg := fun j hj => tableNodes_opcode hj
        obtain ⟨g, hg, hgroup⟩ : ∃ g : Group, g.nodes = segs (addrBehindAll (pIL + 1) pre)
              ++ (i.tableNodes (targetOf is body.code.size) (addrBehindAll (pIL + 1) pre)).flatMap
                (fun w => segs w.addr)
            ∧ IsGroup covProb methodId (ILRewriter.leaveMethod isMain) body is s segs pre i post
              g := by
          by_cases hslots : i.slots = []
          · obtain ⟨g, hg, hgroup⟩ := h.exists_group_plain hs hres his htail hslots
            refine ⟨g, ?_, hgroup⟩
            rw [RawInstr.tableNodes, RawInstr.slotTargets, hslots, hg]
            exact (List.append_nil _).symm
          · exact h.exists_group_switch hs hres his hslots
        refine ⟨g :: gs, ?_, hgroup, haligned⟩
        rw [freshBehind, if_neg (by rw [hop]; exact htail), freshBehind_slots htable] at hnodes
        rw [importedNodes, scanned, if_neg (by rw [hop]; exact htail), scanned_slots htable,
          List.flatMap_cons, List.flatMap_append, hnodes, instrNode_addr, List.flatMap_cons, hg,
          List.append_assoc]

/-- **The rewritten list as groups**, one for each instruction. -/
theorem exists_groups : ∃ gs : List Group, s'.m_IL = enter ++ gs.flatMap Group.nodes
    ∧ Aligned (IsGroup covProb methodId (ILRewriter.leaveMethod isMain) body is s segs) [] is gs := by
  obtain ⟨gs, hnodes, haligned⟩ := h.exists_groups_from hs hres is [] rfl
  refine ⟨gs, ?_, haligned⟩
  rw [hres.list_eq, ← hnodes, ILRewriter.anchors, hs.list_eq]
  rfl

end ValidBody

end Groups

end TestExecutor
