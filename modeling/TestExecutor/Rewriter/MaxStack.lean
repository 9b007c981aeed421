import TestExecutor.Rewriter.RegionLayout
import TestExecutor.Rewriter.StackDepth

/-!
# The exported `MaxStack`

Whether the header of the exported body allows for the depths that the rewritten code reaches.

* `Placed`, `RewrittenBody.placed` — every depth in the list is one of the original code, or of a
  probe call on top of it;
* `RewrittenBody.listDepth_groups`, `reached` — every depth of the original code is reached in the
  list, and so are those of the probe calls;
* `StackFits` — what the original code needs, with its probes;
* `maxStack_sufficient_iff` — `MaxStack` is the counter cut to 16 bits, and when that is enough.
-/

namespace TestExecutor

open TestExecutor.Library ILRewriter

section Depths

variable {covProb : Probe → ProbeCall} {methodId : Int32} {isMain : Bool} {body : MethodBody}
  {is : List RawInstr} {s' : ILRewriter} {enter : List ILInstr} {gs : List Group}
  {effect : StackEffect}

theorem ListDepth.suffix {s : ILRewriter} {rest : List ILInstr} {depth : ℕ}
    (h : ListDepth effect s rest depth) : ∃ front, s.m_IL = front ++ rest := by
  cases h with
  | entry => exact ⟨[], rfl⟩
  | handler _ hrest => exact hrest.1
  | filter _ _ hrest => exact hrest.1
  | step _ _ _ hrest => exact hrest.1

theorem StackEffect.behind_concat {front : List ILInstr} {n : ILInstr} {base depth depth' : ℕ}
    (h : effect.behind (front.map ILInstr.content) base = some depth)
    (hn : effect.of n.m_opcode n.m_Arg64 depth = some depth') :
    effect.behind ((front ++ [n]).map ILInstr.content) base = some depth' := by
  rw [List.map_append, effect.behind_append, h, Option.bind_some, List.map_singleton,
    ILInstr.content, StackEffect.behind, hn]
  rfl

/-! ### Nothing else is reached -/

/-- Places in the list with the depths that belong there: inside the probe at the entry, in front of
an instruction of the original code, or behind it. -/
inductive Placed (effect : StackEffect) (body : MethodBody) (is : List RawInstr)
    (enter : List ILInstr) (gs : List Group) : List ILInstr → ℕ → Prop
  | enter {front back : List ILInstr} {n : ILInstr} {depth : ℕ} (hsplit : enter = front ++ n :: back)
      (hdepth : effect.behind (front.map ILInstr.content) 0 = some depth) :
      Placed effect body is enter gs (n :: (back ++ groupsFrom gs 0)) depth
  | lead {k : ℕ} {i : RawInstr} {g : Group} {front back : List ILInstr} {base depth : ℕ}
      (hi : is[k]? = some i) (hg : gs[k]? = some g) (hbase : DepthAt effect body is i.offset base)
      (hsplit : g.lead = front ++ back)
      (hdepth : effect.behind (front.map ILInstr.content) base = some depth) :
      Placed effect body is enter gs
        (back ++ g.instr :: (g.slots ++ (g.trail ++ groupsFrom gs (k + 1)))) depth
  | trail {k : ℕ} {i : RawInstr} {g : Group} {front back : List ILInstr} {n : ILInstr}
      {before base depth : ℕ}
      (hi : is[k]? = some i) (hg : gs[k]? = some g) (hbefore : DepthAt effect body is i.offset before)
      (heffect : effect.of i.opcode i.operand before = some base) (hfalls : i.FallsThrough)
      (hsplit : g.trail = front ++ n :: back)
      (hdepth : effect.behind (front.map ILInstr.content) base = some depth) :
      Placed effect body is enter gs (n :: (back ++ groupsFrom gs (k + 1))) depth

namespace RewrittenBody

variable (hr : RewrittenBody covProb methodId isMain body is s' enter gs) (h : ValidBody body is)
  (heff : ProbeEffects covProb effect)

include hr h

/-- Control that arrives at an offset of the original code is in front of its group. -/
theorem placed_target {o depth : ℕ} (hdepth : DepthAt effect body is o depth) {rest : List ILInstr}
    (hrest : RestAt s' (targetOf is body.code.size o) rest) :
    Placed effect body is enter gs rest depth := by
  obtain ⟨i, hi, rfl⟩ := h.isStart_of_reachable hdepth.reachable
  obtain ⟨k, hk⟩ := List.getElem?_of_mem hi
  obtain ⟨hlt, -⟩ := List.getElem?_eq_some_iff.mp hk
  obtain ⟨g, hg, -⟩ := hr.getElem?_group hk
  have hboundary := hr.restAt_boundary (le_of_lt hlt)
  rw [boundaryAt_of_getElem? hk] at hboundary
  rw [hr.linked.restAt_unique hrest hboundary, groupsFrom_eq hg]
  exact Placed.lead hk hg hdepth (List.nil_append g.lead).symm rfl

/-- Control that has gone through a group is in front of the next one. -/
theorem placed_next {i : RawInstr} {k before depth : ℕ} (hi : is[k]? = some i)
    (hbefore : DepthAt effect body is i.offset before)
    (heffect : effect.of i.opcode i.operand before = some depth) (hfalls : i.FallsThrough) :
    Placed effect body is enter gs (groupsFrom gs (k + 1)) depth := by
  obtain ⟨hlt, -⟩ := List.getElem?_eq_some_iff.mp hi
  have hboundary := hr.restAt_boundary (Nat.succ_le_of_lt hlt)
  rw [h.decoded.consecutive.boundaryAt_succ hi] at hboundary
  refine hr.placed_target h (hbefore.step (List.mem_of_getElem? hi) heffect ?_) hboundary
  rw [RawInstr.successors, if_pos hfalls]
  exact List.mem_append_left _ List.mem_cons_self

include heff

theorem placed_enter {front back : List ILInstr} {depth : ℕ} (hsplit : enter = front ++ back)
    (hdepth : effect.behind (front.map ILInstr.content) 0 = some depth) :
    Placed effect body is enter gs (back ++ groupsFrom gs 0) depth := by
  cases back with
  | cons n back => exact Placed.enter hsplit hdepth
  | nil =>
      obtain ⟨o, henter⟩ := hr.enter_eq
      rw [List.append_nil] at hsplit
      rw [← hsplit, (heff.stays_enter henter).behind] at hdepth
      obtain rfl := Option.some.inj hdepth
      have hboundary := hr.restAt_boundary (Nat.zero_le is.length)
      have hzero : boundaryAt is body.code.size 0 = 0 := by
        obtain ⟨i, is', rfl⟩ := List.exists_cons_of_ne_nil h.nonempty
        exact h.decoded.consecutive.1
      rw [hzero] at hboundary
      exact hr.placed_target h DepthAt.entry hboundary

omit heff in
theorem placed_trail {k : ℕ} {i : RawInstr} {g : Group} {front back : List ILInstr}
    {before base depth : ℕ} (hi : is[k]? = some i) (hg : gs[k]? = some g)
    (hbefore : DepthAt effect body is i.offset before)
    (heffect : effect.of i.opcode i.operand before = some base) (hfalls : i.FallsThrough)
    (htrail : Stays effect (g.trail.map ILInstr.content) 3) (hsplit : g.trail = front ++ back)
    (hdepth : effect.behind (front.map ILInstr.content) base = some depth) :
    Placed effect body is enter gs (back ++ groupsFrom gs (k + 1)) depth := by
  cases back with
  | cons n back => exact Placed.trail hi hg hbefore heffect hfalls hsplit hdepth
  | nil =>
      rw [List.append_nil] at hsplit
      rw [← hsplit, htrail.behind] at hdepth
      obtain rfl := Option.some.inj hdepth
      exact hr.placed_next h hi hbefore heffect hfalls

omit h in
/-- The probes around an instruction leave the depth as it was. -/
theorem group_stays {k : ℕ} {g : Group} (hg : gs[k]? = some g) :
    Stays effect (g.lead.map ILInstr.content) 3 ∧ Stays effect (g.trail.map ILInstr.content) 3 := by
  obtain ⟨i, -, hgroup⟩ := forall₂_exists_left (hr.groups.forall₂ (R := fun _ g =>
    Stays effect (g.lead.map ILInstr.content) 3 ∧ Stays effect (g.trail.map ILInstr.content) 3)
    fun _ _ _ _ hgroup => ⟨heff.stays_padding hgroup.lead, heff.stays_padding hgroup.trail⟩)
    (List.mem_of_getElem? hg)
  exact hgroup

/-- **One step** leads from such a place to another one. -/
theorem placed_step {n : ILInstr} {rest rest' : List ILInstr} {depth depth' p : ℕ}
    (hplaced : Placed effect body is enter gs (n :: rest) depth)
    (hsuffix : ∃ front, s'.m_IL = front ++ n :: rest)
    (heffect : effect.of n.m_opcode n.m_Arg64 depth = some depth') (hp : p ∈ listSuccessors n rest)
    (hrest : RestAt s' p rest') : Placed effect body is enter gs rest' depth' := by
  obtain ⟨front₀, hIL⟩ := hsuffix
  -- behind an inserted node control is in front of the next one
  have hnext : IsInserted n.m_opcode → rest.dropWhile ILInstr.isSlot = rest → rest' = rest := by
    intro hinserted hslots
    rw [listSuccessors_inserted hinserted hslots, List.mem_singleton] at hp
    refine hr.linked.restAt_unique hrest ⟨⟨front₀ ++ [n], ?_⟩, hp.symm⟩
    rw [hIL, List.append_assoc, List.singleton_append]
  obtain ⟨o, henter⟩ := hr.enter_eq
  generalize hl : n :: rest = l at hplaced
  cases hplaced with
  | @enter front back x _ hsplit hdepth =>
      obtain ⟨rfl, rfl⟩ := List.cons.inj hl
      have hinserted : ∀ m ∈ n :: back, IsInserted m.m_opcode := fun m hm =>
        enter_inserted henter (hsplit ▸ List.mem_append_right front hm)
      rw [hnext (hinserted n List.mem_cons_self) (dropWhile_inserted
        (fun m hm => hinserted m (List.mem_cons_of_mem n hm)) (hr.groupsFrom_dropWhile h 0))]
      exact hr.placed_enter h heff (by rw [hsplit, List.append_assoc, List.singleton_append])
        (StackEffect.behind_concat hdepth heffect)
  | @lead k i g front back base _ hi hg hbase hsplit hdepth =>
      obtain ⟨g', hg', hstands⟩ := hr.getElem?_group hi
      obtain rfl := Option.some.inj (hg.symm.trans hg')
      cases back with
      | cons x back =>
          obtain ⟨rfl, rfl⟩ := List.cons.inj hl
          have hinserted : ∀ m ∈ n :: back, IsInserted m.m_opcode := fun m hm =>
            hstands.lead m (hsplit ▸ List.mem_append_right front hm)
          rw [hnext (hinserted n List.mem_cons_self) (dropWhile_inserted
            (fun m hm => hinserted m (List.mem_cons_of_mem n hm)) (not_isSlot h hi hstands _))]
          exact Placed.lead hi hg hbase (by rw [hsplit, List.append_assoc, List.singleton_append])
            (StackEffect.behind_concat hdepth heffect)
      | nil =>
          obtain ⟨rfl, rfl⟩ := List.cons.inj hl
          rw [List.append_nil] at hsplit
          obtain ⟨hlead, htrail⟩ := hr.group_stays heff hg
          rw [← hsplit, hlead.behind] at hdepth
          obtain rfl := Option.some.inj hdepth
          rw [hstands.operation.effect_eq] at heffect
          have hmem := List.mem_of_getElem? hi
          have hslots := dropWhile_inserted hstands.trail (hr.groupsFrom_dropWhile h (k + 1))
          rw [hstands.successors_eq (h.decoded.opcode_lt hmem) hslots] at hp
          rcases List.mem_append.mp hp with hp | hp
          · split at hp
            · rename_i hfalls
              have hbehind : rest' = g.trail ++ groupsFrom gs (k + 1) := by
                refine hr.linked.restAt_unique hrest ⟨⟨front₀ ++ g.instr :: g.slots, ?_⟩, ?_⟩
                · rw [hIL]
                  simp
                · exact (List.mem_singleton.mp hp).symm
              rw [hbehind]
              exact hr.placed_trail h hi hg hbase heffect hfalls htrail
                (List.nil_append g.trail).symm rfl
            · exact absurd hp List.not_mem_nil
          · obtain ⟨o, ho, rfl⟩ := List.mem_map.mp hp
            exact hr.placed_target h (hbase.step hmem heffect (List.mem_append_right _ ho)) hrest
  | @trail k i g front back x before base _ hi hg hbefore hbase hfalls hsplit hdepth =>
      obtain ⟨rfl, rfl⟩ := List.cons.inj hl
      obtain ⟨g', hg', hstands⟩ := hr.getElem?_group hi
      obtain rfl := Option.some.inj (hg.symm.trans hg')
      have hinserted : ∀ m ∈ n :: back, IsInserted m.m_opcode := fun m hm =>
        hstands.trail m (hsplit ▸ List.mem_append_right front hm)
      rw [hnext (hinserted n List.mem_cons_self) (dropWhile_inserted
        (fun m hm => hinserted m (List.mem_cons_of_mem n hm)) (hr.groupsFrom_dropWhile h (k + 1)))]
      exact hr.placed_trail h hi hg hbefore hbase hfalls (hr.group_stays heff hg).2
        (by rw [hsplit, List.append_assoc, List.singleton_append])
        (StackEffect.behind_concat hdepth heffect)

/-- **Every run** goes through such places. -/
theorem placed {rest : List ILInstr} {depth : ℕ} (hdepth : ListDepth effect s' rest depth) :
    Placed effect body is enter gs rest depth := by
  obtain ⟨ends, hclauses, -⟩ := hr.clauses_eq
  induction hdepth with
  | entry =>
      rw [hr.list_eq]
      exact hr.placed_enter h heff (List.nil_append enter).symm rfl
  | handler hc hrest =>
      rw [hclauses] at hc
      obtain ⟨c, hclause, rfl⟩ := List.mem_map.mp hc
      exact hr.placed_target h (DepthAt.handler hclause) hrest
  | filter hc hfilter hrest =>
      rw [hclauses] at hc
      obtain ⟨c, hclause, rfl⟩ := List.mem_map.mp hc
      have hflags : isFilterFlags c.flags = true := hfilter
      change RestAt s' (if isFilterFlags c.flags = true then _ else _) _ at hrest
      rw [if_pos hflags] at hrest
      exact hr.placed_target h (DepthAt.filter hclause hflags) hrest
  | step hdepth heffect hp hrest ih => exact hr.placed_step h heff ih hdepth.suffix heffect hp hrest

end RewrittenBody

/-! ### All of it is reached -/

/-- Control goes through inserted nodes. -/
theorem ListDepth.walk {s : ILRewriter} {nodes rest : List ILInstr} {depth depth' : ℕ}
    (hdepth : ListDepth effect s (nodes ++ rest) depth) (hnodes : ∀ n ∈ nodes, IsInserted n.m_opcode)
    (hrest : rest.dropWhile ILInstr.isSlot = rest)
    (hbehind : effect.behind (nodes.map ILInstr.content) depth = some depth') :
    ListDepth effect s rest depth' := by
  induction nodes generalizing depth with
  | nil =>
      obtain rfl := Option.some.inj hbehind
      exact hdepth
  | cons n nodes ih =>
      have htail : ∀ m ∈ nodes, IsInserted m.m_opcode := fun m hm =>
        hnodes m (List.mem_cons_of_mem n hm)
      rw [List.cons_append] at hdepth
      rw [List.map_cons, ILInstr.content, StackEffect.behind] at hbehind
      obtain ⟨middle, heffect, hbehind⟩ := Option.bind_eq_some_iff.mp hbehind
      obtain ⟨front, hIL⟩ := hdepth.suffix
      refine ih (hdepth.step heffect (p := headAddr ILInstr.addr pIL (nodes ++ rest)) ?_
        ⟨⟨front ++ [n], ?_⟩, rfl⟩) htail hbehind
      · rw [listSuccessors_inserted (hnodes n List.mem_cons_self) (dropWhile_inserted htail hrest)]
        exact List.mem_singleton_self _
      · rw [hIL, List.append_assoc, List.singleton_append]

namespace RewrittenBody

variable (hr : RewrittenBody covProb methodId isMain body is s' enter gs) (h : ValidBody body is)
  (heff : ProbeEffects covProb effect)

include hr

/-- The groups from an instruction on stand at its address. -/
theorem restAt_instr {i : RawInstr} {k : ℕ} (hi : is[k]? = some i) :
    RestAt s' (targetOf is body.code.size i.offset) (groupsFrom gs k) := by
  obtain ⟨hlt, -⟩ := List.getElem?_eq_some_iff.mp hi
  have hboundary := hr.restAt_boundary (le_of_lt hlt)
  rwa [boundaryAt_of_getElem? hi] at hboundary

include h heff

/-- Through the probes in front of an instruction. -/
theorem listDepth_instr {k : ℕ} {i : RawInstr} {g : Group} {depth : ℕ} (hi : is[k]? = some i)
    (hg : gs[k]? = some g) (hdepth : ListDepth effect s' (groupsFrom gs k) depth) :
    ListDepth effect s' (g.instr :: (g.slots ++ (g.trail ++ groupsFrom gs (k + 1)))) depth := by
  obtain ⟨g', hg', hstands⟩ := hr.getElem?_group hi
  obtain rfl := Option.some.inj (hg.symm.trans hg')
  rw [groupsFrom_eq hg] at hdepth
  exact hdepth.walk hstands.lead (not_isSlot h hi hstands _) ((hr.group_stays heff hg).1.behind depth)

/-- Past the slots of an instruction. -/
theorem listDepth_trail {k : ℕ} {i : RawInstr} {g : Group} {depth depth' : ℕ} (hi : is[k]? = some i)
    (hg : gs[k]? = some g) (hdepth : ListDepth effect s' (groupsFrom gs k) depth)
    (heffect : effect.of i.opcode i.operand depth = some depth') (hfalls : i.FallsThrough) :
    ListDepth effect s' (g.trail ++ groupsFrom gs (k + 1)) depth' := by
  obtain ⟨g', hg', hstands⟩ := hr.getElem?_group hi
  obtain rfl := Option.some.inj (hg.symm.trans hg')
  have hinstr := hr.listDepth_instr h heff hi hg hdepth
  obtain ⟨front, hIL⟩ := hinstr.suffix
  have hslots := dropWhile_inserted hstands.trail (hr.groupsFrom_dropWhile h (k + 1))
  rw [← hstands.operation.effect_eq] at heffect
  refine hinstr.step heffect (p := headAddr ILInstr.addr pIL (g.trail ++ groupsFrom gs (k + 1))) ?_
    ⟨⟨front ++ g.instr :: g.slots, ?_⟩, rfl⟩
  · rw [hstands.successors_eq (h.decoded.opcode_lt (List.mem_of_getElem? hi)) hslots, if_pos hfalls]
    exact List.mem_append_left _ (List.mem_singleton_self _)
  · rw [hIL]
    simp

/-- **Every depth of the original code** is reached in front of the group of its instruction. -/
theorem listDepth_groups {o depth : ℕ} (hdepth : DepthAt effect body is o depth) :
    ∀ k i, is[k]? = some i → i.offset = o → ListDepth effect s' (groupsFrom gs k) depth := by
  obtain ⟨ends, hclauses, -⟩ := hr.clauses_eq
  induction hdepth with
  | entry =>
      intro k i hi hoffset
      obtain ⟨j, is', hcons⟩ := List.exists_cons_of_ne_nil h.nonempty
      have hfirst : is[0]? = some j := by rw [hcons]; rfl
      have hzero : j.offset = 0 := by
        have hstart := h.decoded.consecutive
        rw [hcons] at hstart
        exact hstart.1
      have hrest := hr.restAt_instr hi
      rw [hoffset, ← hzero] at hrest
      rw [hr.linked.restAt_unique hrest (hr.restAt_instr hfirst)]
      obtain ⟨o, henter⟩ := hr.enter_eq
      have hentry : ListDepth effect s' s'.m_IL 0 := ListDepth.entry
      rw [hr.list_eq] at hentry
      exact hentry.walk (fun n hn => enter_inserted henter hn) (hr.groupsFrom_dropWhile h 0)
        ((heff.stays_enter henter).behind 0)
  | @handler c hc =>
      intro k i hi hoffset
      have hrest := hr.restAt_instr hi
      rw [hoffset] at hrest
      have hclause : _ ∈ s'.m_pEH := hclauses ▸ List.mem_map_of_mem hc
      exact ListDepth.handler hclause hrest
  | @filter c hc hfilter =>
      intro k i hi hoffset
      have hrest := hr.restAt_instr hi
      rw [hoffset] at hrest
      have hclause : _ ∈ s'.m_pEH := hclauses ▸ List.mem_map_of_mem hc
      refine ListDepth.filter hclause hfilter ?_
      show RestAt s' (if isFilterFlags c.flags = true then _ else _) _
      rw [if_pos hfilter]
      exact hrest
  | @step j before _ o hbefore hj heffect ho ih =>
      intro k i hi hoffset
      obtain ⟨l, hl⟩ := List.getElem?_of_mem hj
      obtain ⟨g, hg, hstands⟩ := hr.getElem?_group hl
      have hrest := hr.restAt_instr hi
      rw [hoffset] at hrest
      have hgroups := ih l j hl rfl
      rcases List.mem_append.mp ho with ho | ho
      · split at ho
        · rename_i hfalls
          obtain ⟨hlt, -⟩ := List.getElem?_eq_some_iff.mp hl
          have hnext := hr.restAt_boundary (Nat.succ_le_of_lt hlt)
          rw [h.decoded.consecutive.boundaryAt_succ hl, ← List.mem_singleton.mp ho] at hnext
          rw [hr.linked.restAt_unique hrest hnext]
          exact (hr.listDepth_trail h heff hl hg hgroups heffect hfalls).walk hstands.trail
            (hr.groupsFrom_dropWhile h (l + 1)) ((hr.group_stays heff hg).2.behind _)
        · exact absurd ho List.not_mem_nil
      · have hslots := dropWhile_inserted hstands.trail (hr.groupsFrom_dropWhile h (l + 1))
        rw [← hstands.operation.effect_eq] at heffect
        refine (hr.listDepth_instr h heff hl hg hgroups).step heffect ?_ hrest
        rw [hstands.successors_eq (h.decoded.opcode_lt hj) hslots]
        exact List.mem_append_right _ (List.mem_map_of_mem ho)

end RewrittenBody

/-! ### The field of the header -/

/-- The header allows for every depth that the rewritten code reaches. -/
def MaxStackSufficient (effect : StackEffect) (s' : ILRewriter) (out : ExportedBody) : Prop :=
  ∀ rest depth, ListDepth effect s' rest depth → depth ≤ out.maxStack

/-- The original code and its probes need no more than `m`: four slots for the probe at the entry,
and three above the depth of the code for every other one. -/
structure StackFits (effect : StackEffect) (isMain : Bool) (body : MethodBody) (is : List RawInstr)
    (m : ℕ) : Prop where
  entry : 4 ≤ m
  code : ∀ o depth, DepthAt effect body is o depth → depth ≤ m
  before : ∀ pre i post, is = pre ++ i :: post → (annotate (ILRewriter.leaveMethod isMain) body.eh
    (branchTargets is) pre i post).before ≠ [] →
      ∀ depth, DepthAt effect body is i.offset depth → depth + 3 ≤ m
  after : ∀ pre i post, is = pre ++ i :: post → (annotate (ILRewriter.leaveMethod isMain) body.eh
    (branchTargets is) pre i post).after ≠ none → i.FallsThrough →
      ∀ depth depth', DepthAt effect body is i.offset depth →
        effect.of i.opcode i.operand depth = some depth' → depth' + 3 ≤ m

theorem exportBody_maxStack {s : ILRewriter} (hfat : s.m_fGenerateTinyHeader = false) {rounds : ℕ}
    {out : ExportedBody} (h : s.exportBody rounds = some (.ok out)) :
    out.maxStack = s.m_maxStack % 2 ^ 16 := by
  rw [exportBody] at h
  cases hrounds : exportRounds s.maxSize rounds s.m_IL with
  | none => rw [hrounds] at h; cases h
  | some result =>
      cases result with
      | error e => rw [hrounds] at h; cases h
      | ok result =>
          rw [hrounds] at h
          have hheader : { s with m_IL := result.1 }.exportHeader result.2 = .ok out :=
            Option.some.inj h
          rw [exportHeader, if_neg (by rw [hfat]; exact Bool.false_ne_true)] at hheader
          cases hclauses : s.m_pEH.mapM ({ s with m_IL := result.1 }.exportClause result.2.length) with
          | error e => rw [hclauses] at hheader; cases hheader
          | ok clauses =>
              rw [hclauses] at hheader
              obtain rfl := Except.ok.inj hheader
              rfl

namespace RewrittenBody

variable (hr : RewrittenBody covProb methodId isMain body is s' enter gs) (h : ValidBody body is)
  (heff : ProbeEffects covProb effect)

include hr h heff

/-- **What is reached** fits if the original code and its probes do. -/
theorem listDepth_le {m : ℕ} (hfits : StackFits effect isMain body is m) {rest : List ILInstr}
    {depth : ℕ} (hdepth : ListDepth effect s' rest depth) : depth ≤ m := by
  obtain ⟨o, henter⟩ := hr.enter_eq
  cases hr.placed h heff hdepth with
  | enter hsplit hbehind =>
      obtain ⟨depth', hbehind', hle⟩ := (heff.stays_enter henter).between _ _
        (by rw [hsplit, List.map_append]) 0
      obtain rfl := Option.some.inj (hbehind.symm.trans hbehind')
      exact hle.trans (by rw [Nat.zero_add]; exact hfits.entry)
  | @lead k i g front back base _ hi hg hbase hsplit hbehind =>
      obtain ⟨his, hgroup⟩ := hr.groupOf_getElem? hi hg
      by_cases hnone : (annotate (ILRewriter.leaveMethod isMain) body.eh (branchTargets is)
          (is.take k) i (is.drop (k + 1))).before = []
      · obtain ⟨rfl, -⟩ := List.append_eq_nil_iff.mp (hsplit.symm.trans (hgroup.lead.eq_nil hnone))
        obtain rfl := Option.some.inj hbehind
        exact hfits.code _ _ hbase
      · obtain ⟨depth', hbehind', hle⟩ := (heff.stays_padding hgroup.lead).between _ _
          (by rw [hsplit, List.map_append]) _
        obtain rfl := Option.some.inj (hbehind.symm.trans hbehind')
        exact hle.trans (hfits.before _ _ _ his hnone _ hbase)
  | @trail k i g front back n before base _ hi hg hbefore heffect hfalls hsplit hbehind =>
      obtain ⟨his, hgroup⟩ := hr.groupOf_getElem? hi hg
      by_cases hnone : (annotate (ILRewriter.leaveMethod isMain) body.eh (branchTargets is)
          (is.take k) i (is.drop (k + 1))).after = none
      · have hnil := hgroup.trail.eq_nil (by rw [hnone]; rfl)
        rw [hsplit] at hnil
        exact absurd hnil (List.append_ne_nil_of_right_ne_nil _ (List.cons_ne_nil _ _))
      · obtain ⟨depth', hbehind', hle⟩ := (heff.stays_padding hgroup.trail).between _ _
          (by rw [hsplit, List.map_append]) _
        obtain rfl := Option.some.inj (hbehind.symm.trans hbehind')
        exact hle.trans (hfits.after _ _ _ his hnone hfalls _ _ hbefore heffect)

/-- **What the original code and its probes need** is reached. -/
theorem stackFits {m : ℕ} (hle : ∀ rest depth, ListDepth effect s' rest depth → depth ≤ m) :
    StackFits effect isMain body is m := by
  refine ⟨?_, fun o depth hdepth => ?_, fun pre i post his hsome depth hdepth => ?_,
    fun pre i post his hsome hfalls depth depth' hdepth heffect => ?_⟩
  · obtain ⟨o, henter⟩ := hr.enter_eq
    have hsplit : enter.map ILInstr.content = [(ceeLdcI4, o % 2 ^ 32),
        (ceeLdcI4, methodId.toBitVec.toNat % 2 ^ 32), (ceeLdcI40, 0),
        (ceeLdcI8, (covProb (ILRewriter.enterMethod isMain)).addr)]
        ++ [(ceeCalli, (covProb (ILRewriter.enterMethod isMain)).sig)] := henter
    obtain ⟨constants, calls, rfl, hconstants, hcalls⟩ := List.map_eq_append_iff.mp hsplit
    have hinserted : ∀ n ∈ constants ++ calls, IsInserted n.m_opcode := fun n hn =>
      enter_inserted henter hn
    have hentry : ListDepth effect s' s'.m_IL 0 := ListDepth.entry
    rw [hr.list_eq, List.append_assoc] at hentry
    refine hle _ 4 (hentry.walk (fun n hn => hinserted n (List.mem_append_left _ hn))
      (dropWhile_inserted (fun n hn => hinserted n (List.mem_append_right _ hn))
        (hr.groupsFrom_dropWhile h 0)) ?_)
    rw [hconstants, heff.behind_constants (by simp)]
    rfl
  · obtain ⟨i, hi, hoffset⟩ := h.isStart_of_reachable hdepth.reachable
    obtain ⟨k, hk⟩ := List.getElem?_of_mem hi
    exact hle _ _ (hr.listDepth_groups h heff hdepth k i hk hoffset)
  · obtain ⟨g, hi, hg, hgroup⟩ := hr.groupOf his
    obtain ⟨g', hg', hstands⟩ := hr.getElem?_group hi
    obtain rfl := Option.some.inj (hg.symm.trans hg')
    have hgroups := hr.listDepth_groups h heff hdepth _ i hi rfl
    obtain ⟨front, n, back, hsplit, hpeak⟩ := heff.padding_peak hgroup.lead hsome
    have hinserted : ∀ m ∈ front ++ n :: back, IsInserted m.m_opcode := fun m hm =>
      hstands.lead m (hsplit ▸ hm)
    rw [groupsFrom_eq hg, hsplit, List.append_assoc] at hgroups
    exact hle _ _ (hgroups.walk (fun m hm => hinserted m (List.mem_append_left _ hm))
      (dropWhile_inserted (fun m hm => hinserted m (List.mem_append_right _ hm))
        (not_isSlot h hi hstands _)) (hpeak depth))
  · obtain ⟨g, hi, hg, hgroup⟩ := hr.groupOf his
    obtain ⟨g', hg', hstands⟩ := hr.getElem?_group hi
    obtain rfl := Option.some.inj (hg.symm.trans hg')
    have htrail := hr.listDepth_trail h heff hi hg
      (hr.listDepth_groups h heff hdepth _ i hi rfl) heffect hfalls
    have hprobe : (annotate (ILRewriter.leaveMethod isMain) body.eh (branchTargets is) pre i
        post).after.toList ≠ [] := fun hnil => hsome (Option.toList_eq_nil_iff.mp hnil)
    obtain ⟨front, n, back, hsplit, hpeak⟩ := heff.padding_peak hgroup.trail hprobe
    have hinserted : ∀ m ∈ front ++ n :: back, IsInserted m.m_opcode := fun m hm =>
      hstands.trail m (hsplit ▸ hm)
    rw [hsplit, List.append_assoc] at htrail
    exact hle _ _ (htrail.walk (fun m hm => hinserted m (List.mem_append_left _ hm))
      (dropWhile_inserted (fun m hm => hinserted m (List.mem_append_right _ hm))
        (hr.groupsFrom_dropWhile h _)) (hpeak depth'))

end RewrittenBody

/-- A header as large as the counter is enough, if the old one was. -/
theorem StackFits.of_untruncated
    (hheader : ∀ o depth, DepthAt effect body is o depth → depth ≤ body.maxStack) :
    StackFits effect isMain body is (untruncatedMaxStack isMain body is) := by
  have hroom : body.maxStack + 5 ≤ untruncatedMaxStack isMain body is := by
    have hpushes : enterPushes = 5 := by decide
    rw [untruncatedMaxStack, hpushes]
    omega
  refine ⟨by omega, fun o depth hdepth => ?_, fun pre i post _ _ depth hdepth => ?_,
    fun pre i post his _ hfalls depth depth' hdepth heffect => ?_⟩
  · have hle := hheader o depth hdepth
    omega
  · have hle := hheader i.offset depth hdepth
    omega
  · have hi : i ∈ is := by rw [his]; simp
    have hnext : i.next ∈ i.successors := by
      rw [RawInstr.successors, if_pos hfalls]
      exact List.mem_append_left _ List.mem_cons_self
    have hle := hheader i.next depth' (hdepth.step hi heffect hnext)
    omega

end Depths

/-- The header of the exported body has the counter cut to 16 bits, and that is enough if the code
and the probes fit into it. -/
theorem ValidBody.exists_maxStack {body : MethodBody} {is : List RawInstr} (h : ValidBody body is)
    {covProb : Probe → ProbeCall} (methodId : Int32) (isMain : Bool) {effect : StackEffect}
    (heff : ProbeEffects covProb effect) :
    ∃ s s', importBody body = .ok s ∧ s.rewriteIL covProb methodId isMain = .ok s'
      ∧ (s'.m_nInstrs * 10 < 2 ^ 32 → ∃ rounds out, s'.exportBody rounds = some (.ok out))
      ∧ ∀ rounds out, s'.exportBody rounds = some (.ok out) →
        out.maxStack = untruncatedMaxStack isMain body is % 2 ^ 16
        ∧ (MaxStackSufficient effect s' out ↔ StackFits effect isMain body is out.maxStack) := by
  obtain ⟨s, s', enter, gs, ends, hs, hrewrite, hr, hends, hcounter⟩ :=
    h.exists_counted covProb methodId isMain
  refine ⟨s, s', hs, hrewrite, hr.exists_export h hends, fun rounds out hout => ⟨?_, ?_⟩⟩
  · calc out.maxStack = s'.m_maxStack % 2 ^ 16 := exportBody_maxStack hr.fat hout
      _ = s'.m_maxStack % 2 ^ 32 % 2 ^ 16 := (Nat.mod_mod_of_dvd _ (by decide)).symm
      _ = untruncatedMaxStack isMain body is % 2 ^ 32 % 2 ^ 16 := by rw [hcounter]
      _ = untruncatedMaxStack isMain body is % 2 ^ 16 := Nat.mod_mod_of_dvd _ (by decide)
  · constructor
    · intro hsufficient
      exact hr.stackFits h heff hsufficient
    · intro hfits rest depth hdepth
      exact hr.listDepth_le h heff hfits hdepth

/-- **When `MaxStack` is sufficient.**  If the header allows for the original code, then that of the
exported body allows for the rewritten code exactly if the counter, cut to 16 bits, still has room
for the original code and for its probes; it has as long as the counter is not cut. -/
theorem maxStack_sufficient_iff {body : MethodBody} {is : List RawInstr} (h : ValidBody body is)
    {covProb : Probe → ProbeCall} (methodId : Int32) (isMain : Bool) {effect : StackEffect}
    (heff : ProbeEffects covProb effect)
    (hheader : ∀ o depth, DepthAt effect body is o depth → depth ≤ body.maxStack) :
    ∃ s s', importBody body = .ok s ∧ s.rewriteIL covProb methodId isMain = .ok s'
      ∧ (s'.m_nInstrs * 10 < 2 ^ 32 → ∃ rounds out, s'.exportBody rounds = some (.ok out))
      ∧ ∀ rounds out, s'.exportBody rounds = some (.ok out) →
        (MaxStackSufficient effect s' out
          ↔ StackFits effect isMain body is (untruncatedMaxStack isMain body is % 2 ^ 16))
        ∧ (untruncatedMaxStack isMain body is < 2 ^ 16 → MaxStackSufficient effect s' out) := by
  obtain ⟨s, s', hs, hrewrite, hexports, hmax⟩ := h.exists_maxStack methodId isMain heff
  refine ⟨s, s', hs, hrewrite, hexports, fun rounds out hout => ?_⟩
  obtain ⟨heq, hiff⟩ := hmax rounds out hout
  rw [heq] at hiff
  refine ⟨hiff, fun hlt => hiff.mpr ?_⟩
  rw [Nat.mod_eq_of_lt hlt]
  exact StackFits.of_untruncated hheader

/-! ### A method that returns -/

/-- The probes find their parameters by their signature. -/
def parameterCalls (p : Probe) : ProbeCall := ⟨0, p.parameters⟩

/-- The effects of the inserted instructions; the others leave the stack alone. -/
def insertedEffect : StackEffect := fun opcode arg depth =>
  if opcode = ceeLdcI4 ∨ opcode = ceeLdcI8 ∨ opcode = ceeLdcI40 then some (depth + 1)
  else if opcode = ceeCalli then if arg + 1 ≤ depth then some (depth - (arg + 1)) else none
  else some depth

theorem insertedEffect_probes : ProbeEffects parameterCalls insertedEffect := by
  refine ⟨fun arg depth => rfl, fun opcode hop arg depth => if_pos hop, fun p depth => ?_⟩
  show (if p.parameters + 1 ≤ depth + (p.parameters + 1)
    then some (depth + (p.parameters + 1) - (p.parameters + 1)) else none) = some depth
  rw [if_pos (Nat.le_add_left _ _), Nat.add_sub_cancel]

theorem retMethod_length_lt : ([0x2A] : List UInt8).length < 2 ^ 31 := by decide

def retMethod (maxStack : ℕ) : MethodBody := ⟨0, maxStack, 0, ⟨[0x2A], retMethod_length_lt⟩, []⟩

def retInstrs : List RawInstr := [⟨0, ceeRet, 0, []⟩]

theorem retMethod_valid (maxStack : ℕ) : ValidBody (retMethod maxStack) retInstrs := by
  have hclosed : ∀ i ∈ retInstrs, i.offset ∈ [0] → ∀ t ∈ i.successors, t ∈ [0] := by decide
  have hdecode : decodeAll ⟨[0x2A], by decide⟩ 1 0 = .ok retInstrs := by decide +kernel
  have htargets : ∀ i ∈ retInstrs, ∀ t ∈ i.targets, IsStart retInstrs t ∨ t = 1 := by decide
  refine ⟨hdecode, fun eh heh => absurd heh List.not_mem_nil, htargets,
    fun eh heh => absurd heh List.not_mem_nil, by decide, by decide,
    fun i _ _ _ eh heh => absurd heh List.not_mem_nil, ?_⟩
  exact not_reachable_of_closed [0] (fun r hr => hr) hclosed (by decide : (1 : ℕ) ∉ [0])

/-- The stack is empty in front of the instruction. -/
theorem retMethod_depth {maxStack o depth : ℕ}
    (h : DepthAt insertedEffect (retMethod maxStack) retInstrs o depth) : depth ≤ maxStack := by
  cases h with
  | entry => exact Nat.zero_le _
  | handler hc => exact absurd hc List.not_mem_nil
  | filter hc => exact absurd hc List.not_mem_nil
  | step _ hi _ ho =>
      obtain rfl := List.mem_singleton.mp hi
      exact absurd ho List.not_mem_nil

/-- `ldc.i4 5; ret`, with room for the constant. -/
def constMethod : MethodBody := ⟨0, 1, 0, ⟨[0x20, 0x05, 0x00, 0x00, 0x00, 0x2A], by decide⟩, []⟩

def constInstrs : List RawInstr := [⟨0, ceeLdcI4, 5, []⟩, ⟨5, ceeRet, 0, []⟩]

theorem constMethod_valid : ValidBody constMethod constInstrs := by
  have hclosed : ∀ i ∈ constInstrs, i.offset ∈ [0, 5] → ∀ t ∈ i.successors, t ∈ [0, 5] := by decide
  have htargets : ∀ i ∈ constInstrs, ∀ t ∈ i.targets, IsStart constInstrs t ∨ t = 6 := by decide
  refine ⟨by decide +kernel, fun eh heh => absurd heh List.not_mem_nil, htargets,
    fun eh heh => absurd heh List.not_mem_nil, by decide, by decide,
    fun i _ _ _ eh heh => absurd heh List.not_mem_nil, ?_⟩
  exact not_reachable_of_closed [0, 5] (by decide) hclosed (by decide : (6 : ℕ) ∉ [0, 5])

/-- The constant is on the stack where the method is left. -/
theorem constMethod_depthAt {o depth : ℕ}
    (h : DepthAt insertedEffect constMethod constInstrs o depth) :
    (o = 0 ∧ depth = 0) ∨ (o = 5 ∧ depth = 1) := by
  induction h with
  | entry => exact Or.inl ⟨rfl, rfl⟩
  | handler hc => exact absurd hc List.not_mem_nil
  | filter hc => exact absurd hc List.not_mem_nil
  | @step i depth depth' o _ hi heffect ho ih =>
      rcases List.mem_cons.mp hi with rfl | hi
      · obtain rfl := List.mem_singleton.mp ho
        have hdepth : depth = 0 := by
          rcases ih with ⟨-, hdepth⟩ | ⟨hoffset, -⟩
          · exact hdepth
          · cases hoffset
        rw [hdepth] at heffect
        exact Or.inr ⟨rfl, (Option.some.inj heffect).symm⟩
      · obtain rfl := List.mem_singleton.mp hi
        exact absurd ho List.not_mem_nil

theorem constMethod_depth (o depth : ℕ)
    (h : DepthAt insertedEffect constMethod constInstrs o depth) : depth ≤ constMethod.maxStack := by
  have hroom : constMethod.maxStack = 1 := rfl
  have hdepth := constMethod_depthAt h
  omega

theorem maxStack_sufficient_iff_const : DepthAt insertedEffect constMethod constInstrs 5 1
    ∧ ∃ s s', importBody constMethod = .ok s ∧ s.rewriteIL parameterCalls 0 false = .ok s'
      ∧ (s'.m_nInstrs * 10 < 2 ^ 32 → ∃ rounds out, s'.exportBody rounds = some (.ok out))
      ∧ ∀ rounds out, s'.exportBody rounds = some (.ok out) →
        (MaxStackSufficient insertedEffect s' out ↔ StackFits insertedEffect false constMethod
          constInstrs (untruncatedMaxStack false constMethod constInstrs % 2 ^ 16))
        ∧ (untruncatedMaxStack false constMethod constInstrs < 2 ^ 16 →
          MaxStackSufficient insertedEffect s' out) :=
  ⟨.step (i := ⟨0, ceeLdcI4, 5, []⟩) .entry (by decide) rfl (by decide),
    maxStack_sufficient_iff constMethod_valid 0 false insertedEffect_probes constMethod_depth⟩

/-- With 65527 slots in the header, the counter is 65536, and the exported header has none. -/
theorem ret_maxStack_insufficient : ValidBody (retMethod 65527) retInstrs
    ∧ ProbeEffects parameterCalls insertedEffect
    ∧ (∀ o depth, DepthAt insertedEffect (retMethod 65527) retInstrs o depth → depth ≤ 65527)
    ∧ ∃ s s' rounds out, importBody (retMethod 65527) = .ok s
      ∧ s.rewriteIL parameterCalls 0 false = .ok s' ∧ s'.exportBody rounds = some (.ok out)
      ∧ ¬MaxStackSufficient insertedEffect s' out := by
  refine ⟨retMethod_valid _, insertedEffect_probes, fun _ _ => retMethod_depth, ?_⟩
  obtain ⟨s, s', hs, hrewrite, hexports, hmax⟩ :=
    (retMethod_valid 65527).exists_maxStack 0 false insertedEffect_probes
  have hcount : ((importBody (retMethod 65527)).toOption.bind fun s =>
      (s.rewriteIL parameterCalls 0 false).toOption.map ILRewriter.m_nInstrs) = some 11 := by
    decide +kernel
  rw [hs] at hcount
  have hcount' : (s.rewriteIL parameterCalls 0 false).toOption.map ILRewriter.m_nInstrs = some 11 :=
    hcount
  rw [hrewrite] at hcount'
  have hcount'' : s'.m_nInstrs = 11 := Option.some.inj hcount'
  obtain ⟨rounds, out, hout⟩ := hexports (by rw [hcount'']; decide)
  refine ⟨s, s', rounds, out, hs, hrewrite, hout, fun hsufficient => ?_⟩
  obtain ⟨heq, hiff⟩ := hmax rounds out hout
  have hzero : untruncatedMaxStack false (retMethod 65527) retInstrs % 2 ^ 16 = 0 := by decide +kernel
  have hentry := (hiff.mp hsufficient).entry
  rw [heq, hzero] at hentry
  exact absurd hentry (by decide)

end TestExecutor
