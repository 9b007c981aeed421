import TestExecutor.Rewriter.Insertions
import TestExecutor.Rewriter.ReadBack

/-!
# What the scan collects

The scan of `RewriteIL` as functions of the list that it goes through.

* `scanned` — the list behind the scan, in which every `tail.` has become two nodes;
* `priorities` — the probes of the instructions themselves;
* `predecessors` — the nodes in front of branch targets;
* `TailsFollowed`, `TargetsFound` — what the scan relies on: behind every `tail.` come two more
  nodes, and targets are in the list;
* `scanFrom_eq` — the scan computes these functions.
-/

namespace TestExecutor

open TestExecutor.Library

/-! ### The functions -/

/-- The offset of the node at a position, as `m_offset` of what the links lead to. -/
def offsetOf (ws : List ILInstr) (k : ℕ) : ℕ := (ws[k]?.map ILInstr.m_offset).getD 0

/-- The old node of a `tail.`, with the offset of the `ret`. -/
def oldTail (w : ILInstr) (ws : List ILInstr) : ILInstr :=
  { w with m_opcode := ceeNop, m_offset := offsetOf ws 1 }

/-- The new node of a `tail.`, with the offset of the call. -/
def newTail (fresh : ℕ) (ws : List ILInstr) : ILInstr := ⟨fresh, ceeTailcall, offsetOf ws 0, 0⟩

def scanned : ℕ → List ILInstr → List ILInstr
  | _, [] => []
  | fresh, w :: ws =>
      if w.m_opcode = ceeTailcall then oldTail w ws :: newTail fresh ws :: scanned (fresh + 1) ws
      else w :: scanned fresh ws

/-- `call`, `calli`, `callvirt` and `newobj`. -/
def IsCallOpcode (opcode : ℕ) : Prop :=
  opcode = ceeCall ∨ opcode = ceeCalli ∨ opcode = ceeCallvirt ∨ opcode = ceeNewobj

instance (opcode : ℕ) : Decidable (IsCallOpcode opcode) := by unfold IsCallOpcode; infer_instance

/-- The probe that an instruction gets for itself, unless it is `stsfld`, a `tail.` or a part of a
tail call, and the side. -/
def ownProbe (leaveMethod : Probe) (opcode : ℕ) : Option (Probe × Bool) :=
  if opcodeIsBranch opcode then some (.branch, true)
  else if IsCallOpcode opcode then some (.call, false)
  else if opcode = ceeRet then some (leaveMethod, true)
  else if opcode = ceeEndfinally ∨ opcode = ceeEndfilter then some (.coverage, true)
  else if opcode = ceeThrow ∨ opcode = ceeRethrow then some (.throw, true)
  else none

/-- The node that the probe of a `stsfld` goes to: its prefix, or the node itself. -/
def stsfldTarget (prev : Option ILInstr) (w : ILInstr) : ℕ :=
  match prev with
  | none => w.addr
  | some v => if IsPrefix v.m_opcode then v.addr else w.addr

/-- The probes that a node other than a `tail.` asks for, and the flag behind it; `prev` is the node
in front of it. -/
def ownInsertions (leaveMethod : Probe) (prev : Option ILInstr) (isTailCall : Bool) (w : ILInstr) :
    List ProbeInsertion × Bool :=
  if w.m_opcode = ceeStsfld then ([⟨stsfldTarget prev w, nullPtr, .stsfld, true⟩], isTailCall)
  else if isTailCall ∧ IsCallOpcode w.m_opcode then ([], true)
  else if isTailCall ∧ w.m_opcode = ceeRet then ([], false)
  else ((ownProbe leaveMethod w.m_opcode).toList.map fun p => ⟨w.addr, nullPtr, p.1, p.2⟩,
    isTailCall)

/-- The probes of the instructions themselves. -/
def priorities (leaveMethod : Probe) : ℕ → Option ILInstr → Bool → List ILInstr →
    List ProbeInsertion
  | _, _, _, [] => []
  | fresh, prev, isTailCall, w :: ws =>
      if w.m_opcode = ceeTailcall then
        ⟨fresh, nullPtr, .tailcall, true⟩ :: ⟨w.addr, nullPtr, .coverage, true⟩
          :: priorities leaveMethod (fresh + 1) (some (newTail fresh ws)) true ws
      else
        (ownInsertions leaveMethod prev isTailCall w).1 ++ priorities leaveMethod fresh (some w)
          (ownInsertions leaveMethod prev isTailCall w).2 ws

/-- A branch, or a slot of a switch. -/
def HasTarget (opcode : ℕ) : Prop := (opCodeFlags opcode).branchTarget = true

instance (opcode : ℕ) : Decidable (HasTarget opcode) := by unfold HasTarget; infer_instance

/-- The nodes in front of the branch targets, of which `prevOf` gives the one. -/
def predecessors (prevOf : ℕ → ℕ) (ws : List ILInstr) : List ℕ :=
  (ws.filter fun w => decide (HasTarget w.m_opcode)).map fun w => prevOf w.m_pTarget

/-! ### What the scan relies on -/

/-- Behind every `tail.` come two more nodes. -/
inductive TailsFollowed : List ILInstr → Prop where
  | nil : TailsFollowed []
  | plain {w : ILInstr} {ws : List ILInstr} (hne : w.m_opcode ≠ ceeTailcall)
      (rest : TailsFollowed ws) : TailsFollowed (w :: ws)
  | tail {w c r : ILInstr} {ws : List ILInstr} (htail : w.m_opcode = ceeTailcall)
      (rest : TailsFollowed (c :: r :: ws)) : TailsFollowed (w :: c :: r :: ws)

/-- The node with the address stands directly behind a `tail.`. -/
def BehindTail (ws : List ILInstr) (p : ℕ) : Prop :=
  ∃ pre w c post, ws = pre ++ w :: c :: post ∧ w.m_opcode = ceeTailcall ∧ c.addr = p

/-- The targets of the nodes that are still to be scanned are linked, none of them directly behind a
`tail.`, and `prevOf` gives the node in front of each. -/
def TargetsFound (s : ILRewriter) (prevOf : ℕ → ℕ) (rest : List ILInstr) : Prop :=
  ∀ v ∈ rest, HasTarget v.m_opcode → v.m_pTarget ≠ nullPtr ∧ v.m_pTarget < s.fresh
    ∧ ¬ BehindTail rest v.m_pTarget ∧ s.m_pPrev v.m_pTarget = prevOf v.m_pTarget

theorem opcodeIsBranch_iff {opcode : ℕ} (hlt : opcode < ceeCount) : opcodeIsBranch opcode = true
    ↔ HasTarget opcode ∨ opcode = ceeSwitch := by
  have hall : ∀ opcode < ceeCount, opcodeIsBranch opcode = true
      ↔ HasTarget opcode ∨ opcode = ceeSwitch := by decide +kernel
  exact hall opcode hlt

/-! ### One round -/

section Rounds

variable {s : ILRewriter} {done rest : List ILInstr} {w : ILInstr} {leaveMethod : Probe}
  {isTailCall : Bool} {P T : List ProbeInsertion}

theorem ILRewriter.Linked.next_eq (h : s.Linked) (hIL : s.m_IL = done ++ w :: rest) :
    s.m_pNext w.addr = headAddr ILInstr.addr pIL rest := by
  obtain ⟨hpre, hne, -⟩ := h.split hIL
  rw [ILRewriter.m_pNext, if_neg hne, hIL, nextAddr_split rfl hpre]

theorem ILRewriter.Linked.prev_eq (h : s.Linked) (hIL : s.m_IL = done ++ w :: rest) :
    s.m_pPrev w.addr = lastAddr ILInstr.addr pIL done := by
  rw [ILRewriter.m_pPrev, hIL, prevAddr_split rfl (h.split hIL).1]

/-- The last node of a list, by its address. -/
theorem ILRewriter.Linked.last_node (h : s.Linked) (hIL : s.m_IL = done ++ rest) :
    (done = [] ∧ lastAddr ILInstr.addr pIL done = pIL ∧ s.node pIL = none)
      ∨ ∃ v, done.getLast? = some v ∧ lastAddr ILInstr.addr pIL done = v.addr
        ∧ s.node v.addr = some v := by
  rcases List.eq_nil_or_concat done with rfl | ⟨front, v, rfl⟩
  · exact Or.inl ⟨rfl, rfl, findNode_of_notMem h.pIL_notMem⟩
  · rw [List.concat_eq_append] at hIL ⊢
    rw [List.append_assoc, List.singleton_append] at hIL
    exact Or.inr ⟨v, List.getLast?_concat, lastAddr_concat front v, h.node_eq hIL⟩

/-- A `stsfld` looks at the node in front of it. -/
theorem stsfldTarget_eq (h : s.Linked) (hIL : s.m_IL = done ++ w :: rest) :
    (if s.isPrefixAt (s.m_pPrev w.addr) then s.m_pPrev w.addr else w.addr)
      = stsfldTarget done.getLast? w := by
  rw [h.prev_eq hIL]
  rcases h.last_node hIL with ⟨rfl, hlast, hnode⟩ | ⟨v, hv, hlast, hnode⟩
  · rw [hlast, ILRewriter.isPrefixAt, ILRewriter.opcodeAt, hnode]
    rfl
  · rw [hlast, ILRewriter.isPrefixAt, ILRewriter.opcodeAt, hnode, hv]
    by_cases hpre : IsPrefix v.m_opcode
    · simp [stsfldTarget, hpre]
    · simp [stsfldTarget, hpre]

/-- The probe behind the node in front of the target of `w`. -/
def targetInsertion (prevOf : ℕ → ℕ) (branch : ℕ) (w : ILInstr) : ProbeInsertion :=
  ⟨prevOf w.m_pTarget, branch, .coverage, false⟩

theorem ownInsertions_of_plain (hsf : w.m_opcode ≠ ceeStsfld) (hcall : ¬ IsCallOpcode w.m_opcode)
    (hret : w.m_opcode ≠ ceeRet) : ownInsertions leaveMethod done.getLast? isTailCall w
      = ((ownProbe leaveMethod w.m_opcode).toList.map fun p => ⟨w.addr, nullPtr, p.1, p.2⟩,
        isTailCall) := by
  rw [ownInsertions, if_neg hsf, if_neg (fun h => hcall h.2), if_neg (fun h => hret h.2)]

/-- A node that is no `tail.` and no `switch` is left as it is. -/
theorem scanInstr_plain (leaveMethod : Probe) (isTailCall : Bool) (h : s.Linked)
    (hIL : s.m_IL = done ++ w :: rest) (hlt : w.m_opcode < ceeCount) (htail : w.m_opcode ≠ ceeTailcall)
    (hswitch : w.m_opcode ≠ ceeSwitch) (htarget : HasTarget w.m_opcode → w.m_pTarget ≠ nullPtr) :
    Scan.scanInstr leaveMethod w.addr w ⟨s, isTailCall, P, T⟩
      = .ok (⟨s, (ownInsertions leaveMethod done.getLast? isTailCall w).2,
        P ++ (ownInsertions leaveMethod done.getLast? isTailCall w).1,
        T ++ if HasTarget w.m_opcode then [targetInsertion s.m_pPrev w.addr w] else []⟩,
        w.addr) := by
  by_cases hbranch : opcodeIsBranch w.m_opcode = true
  · have hhas : HasTarget w.m_opcode :=
      ((opcodeIsBranch_iff hlt).mp hbranch).resolve_right hswitch
    have hno : ∀ opcode, opcodeIsBranch opcode = false → w.m_opcode ≠ opcode := by
      rintro opcode hfalse rfl
      exact absurd hbranch (by rw [hfalse]; exact Bool.false_ne_true)
    have hcall : ¬ IsCallOpcode w.m_opcode := by
      rintro (h | h | h | h) <;> exact hno _ (by decide) h
    rw [ownInsertions_of_plain (hno _ (by decide)) hcall (hno _ (by decide)), ownProbe,
      if_pos hbranch, if_pos hhas, Scan.scanInstr, if_pos hbranch, if_neg hswitch, Scan.target,
      if_neg (htarget hhas)]
    rfl
  · have hno : ¬ HasTarget w.m_opcode := fun h => hbranch ((opcodeIsBranch_iff hlt).mpr (Or.inl h))
    rw [if_neg hno, List.append_nil, Scan.scanInstr, if_neg hbranch]
    by_cases hsf : w.m_opcode = ceeStsfld
    · rw [if_pos hsf, ownInsertions, if_pos hsf, stsfldTarget_eq h hIL]
      rfl
    · rw [if_neg hsf, if_neg htail]
      by_cases hcall : IsCallOpcode w.m_opcode
      · have hfour := hcall
        unfold IsCallOpcode at hfour
        rw [if_pos hfour]
        cases isTailCall with
        | true =>
            have hown : ownInsertions leaveMethod done.getLast? true w = ([], true) := by
              rw [ownInsertions, if_neg hsf, if_pos ⟨rfl, hcall⟩]
            rw [hown, List.append_nil]
            rfl
        | false =>
            have hown : ownInsertions leaveMethod done.getLast? false w
                = ([⟨w.addr, nullPtr, .call, false⟩], false) := by
              rw [ownInsertions, if_neg hsf, if_neg (by simp), if_neg (by simp), ownProbe,
                if_neg hbranch, if_pos hcall]
              rfl
            rw [hown]
            rfl
      · have hfour := hcall
        unfold IsCallOpcode at hfour
        rw [if_neg hfour]
        by_cases hret : w.m_opcode = ceeRet
        · rw [if_pos hret]
          cases isTailCall with
          | true =>
              have hown : ownInsertions leaveMethod done.getLast? true w = ([], false) := by
                rw [ownInsertions, if_neg hsf, if_neg (fun h => hcall h.2), if_pos ⟨rfl, hret⟩]
              rw [hown, List.append_nil]
              rfl
          | false =>
              have hown : ownInsertions leaveMethod done.getLast? false w
                  = ([⟨w.addr, nullPtr, leaveMethod, true⟩], false) := by
                rw [ownInsertions, if_neg hsf, if_neg (by simp), if_neg (by simp), ownProbe,
                  if_neg hbranch, if_neg hcall, if_pos hret]
                rfl
              rw [hown]
              rfl
        · rw [if_neg hret, ownInsertions_of_plain hsf hcall hret, ownProbe, if_neg hbranch,
            if_neg hcall, if_neg hret]
          split
          · rfl
          · split
            · rfl
            · rw [Option.toList_none, List.map_nil, List.append_nil]

/-- A slot of a switch asks for nothing; its target was looked up with the switch. -/
theorem scanInstr_slot (hslot : w.m_opcode = ceeSwitchArg) (st : Scan) :
    Scan.scanInstr leaveMethod w.addr w st = .ok (st, w.addr) := by
  unfold Scan.scanInstr
  rw [hslot]
  rfl

theorem offsetAt_split (h : s.Linked) (hIL : s.m_IL = done ++ w :: rest) :
    s.offsetAt w.addr = w.m_offset := by
  rw [ILRewriter.offsetAt, h.node_eq hIL]
  rfl

theorem modify_split (h : s.Linked) (hIL : s.m_IL = done ++ w :: rest) (f : ILInstr → ILInstr) :
    (s.modify w.addr f).m_IL = done ++ f w :: rest := by
  rw [ILRewriter.modify_m_IL, hIL, modifyNode_split rfl (h.split hIL).1]

/-- A `tail.` becomes two nodes, which take over the offsets of the two nodes behind it. -/
theorem scanInstr_tail (leaveMethod : Probe) (isTailCall : Bool) {c r : ILInstr} (h : s.Linked)
    (hIL : s.m_IL = done ++ w :: c :: r :: rest) (htail : w.m_opcode = ceeTailcall) :
    ∃ s', Scan.scanInstr leaveMethod w.addr w ⟨s, isTailCall, P, T⟩
        = .ok (⟨s', true, P ++ [⟨s.fresh, nullPtr, .tailcall, true⟩,
          ⟨w.addr, nullPtr, .coverage, true⟩], T⟩, s.fresh)
      ∧ s'.m_IL = done ++ oldTail w (c :: r :: rest) :: newTail s.fresh (c :: r :: rest)
        :: c :: r :: rest
      ∧ s'.Linked ∧ s'.fresh = s.fresh + 1 ∧ s'.m_pEH = s.m_pEH := by
  -- the new node
  have h₁ : (s.modify w.addr fun i => { i with m_opcode := ceeNop }).Linked :=
    h.modify w.addr fun _ => rfl
  have e₁ := modify_split h hIL fun i => { i with m_opcode := ceeNop }
  have hsplit : w.addr ∉ done.map ILInstr.addr := (h.split hIL).1
  have h₂ := h₁.newAfter e₁ hsplit (h.split hIL).2.1 ceeTailcall 0
  have e₂ := ILRewriter.newAfter_split e₁ hsplit (h.split hIL).2.1 ceeTailcall 0
  obtain ⟨s₂, hs₂⟩ : ∃ s₂, s₂ = (s.modify w.addr fun i => { i with m_opcode := ceeNop }).newAfter
    w.addr ceeTailcall 0 := ⟨_, rfl⟩
  have hfresh : s₂.fresh = s.fresh + 1 := by rw [hs₂]; rfl
  change ILRewriter.m_IL (ILRewriter.newAfter _ w.addr _ _) = _ at e₂
  change ILRewriter.Linked (ILRewriter.newAfter _ w.addr _ _) at h₂
  rw [← hs₂] at h₂ e₂
  -- the offset of the call
  have e₂' := e₂
  rw [List.append_cons] at e₂'
  have hnext : s₂.m_pNext s.fresh = c.addr := h₂.next_eq e₂'
  have h₃ : (s₂.modify s.fresh fun i => { i with m_offset := s₂.offsetAt c.addr }).Linked :=
    h₂.modify s.fresh fun _ => rfl
  have e₃ := modify_split h₂ e₂' fun i => { i with m_offset := s₂.offsetAt c.addr }
  have hcall : s₂.offsetAt c.addr = c.m_offset := by
    rw [List.append_cons] at e₂'
    exact offsetAt_split h₂ e₂'
  rw [hcall] at h₃ e₃
  -- the offset of the `ret`
  have e₃' := e₃
  rw [List.append_cons] at e₃'
  have hnext' := h₃.next_eq e₃'
  have e₃'' := e₃'
  rw [List.append_cons] at e₃''
  have hret := offsetAt_split h₃ e₃''
  rw [← List.append_cons] at e₃
  have e₄ := modify_split h₃ e₃ fun i => { i with m_offset := r.m_offset }
  refine ⟨_, ?_, e₄, h₃.modify w.addr fun _ => rfl, ?_, ?_⟩
  · rw [Scan.scanInstr, htail, if_neg (by decide), if_neg (by decide), if_pos rfl]
    dsimp only
    rw [← hs₂, hnext, hcall, hnext']
    dsimp only [headAddr]
    rw [hret, Scan.priority, Scan.priority, List.append_assoc]
    rfl
  · exact hfresh
  · rw [hs₂]
    rfl

/-- The targets of all slots are looked up. -/
theorem switchTargets_eq (h : s.Linked) {branch : ℕ} {slots : List ILInstr}
    (hIL : s.m_IL = done ++ (slots ++ rest)) (htargets : ∀ j ∈ slots, j.m_pTarget ≠ nullPtr) :
    Scan.switchTargets branch slots.length (headAddr ILInstr.addr pIL (slots ++ rest))
        ⟨s, isTailCall, P, T⟩
      = .ok ⟨s, isTailCall, P, T ++ slots.map (targetInsertion s.m_pPrev branch)⟩ := by
  induction slots generalizing done T with
  | nil => rw [List.map_nil, List.append_nil]; rfl
  | cons j slots ih =>
      have hnode : s.node j.addr = some j := h.node_eq hIL
      have hnext : s.m_pNext j.addr = headAddr ILInstr.addr pIL (slots ++ rest) := h.next_eq hIL
      rw [List.cons_append, List.append_cons] at hIL
      rw [List.length_cons, List.cons_append, headAddr, Scan.switchTargets]
      dsimp only
      rw [hnode]
      dsimp only
      rw [Scan.target, if_neg (htargets j List.mem_cons_self)]
      show Scan.switchTargets branch slots.length (s.m_pNext j.addr)
        ⟨s, isTailCall, P, T ++ [targetInsertion s.m_pPrev branch j]⟩ = _
      rw [hnext]
      refine (ih hIL fun k hk => htargets k (List.mem_cons_of_mem j hk)).trans ?_
      rw [List.append_assoc]
      rfl

/-- A `switch` asks for the probe in front of it and for one at every target of its slots. -/
theorem scanInstr_switch (leaveMethod : Probe) (isTailCall : Bool) {slots : List ILInstr}
    (h : s.Linked) (hIL : s.m_IL = done ++ w :: (slots ++ rest)) (hop : w.m_opcode = ceeSwitch)
    (hlen : slots.length = w.m_Arg32) (hsmall : w.m_Arg32 < 2 ^ 31)
    (htargets : ∀ j ∈ slots, j.m_pTarget ≠ nullPtr) :
    Scan.scanInstr leaveMethod w.addr w ⟨s, isTailCall, P, T⟩
      = .ok (⟨s, isTailCall, P ++ [⟨w.addr, nullPtr, .branch, true⟩],
        T ++ slots.map (targetInsertion s.m_pPrev w.addr)⟩, w.addr) := by
  have hbound : Scan.loopBound w.m_Arg32 = slots.length := by
    rw [Scan.loopBound, if_pos hsmall, hlen]
  have hnext : s.m_pNext w.addr = headAddr ILInstr.addr pIL (slots ++ rest) := h.next_eq hIL
  rw [List.append_cons] at hIL
  rw [Scan.scanInstr, hop, if_pos (by decide), if_pos rfl]
  dsimp only
  rw [hbound, hnext]
  show (Scan.switchTargets _ _ _ ⟨s, isTailCall, _, T⟩ >>= _) = _
  rw [switchTargets_eq h hIL htargets]
  rfl

/-- A round leaves the scan behind the node that `scanInstr` answers. -/
theorem scanFrom_round {st st' : Scan} {fuel p : ℕ} (h : st.rewriter.Linked)
    (hIL : st.rewriter.m_IL = done ++ w :: rest)
    (hround : Scan.scanInstr leaveMethod w.addr w st = .ok (st', p)) :
    Scan.scanFrom leaveMethod (fuel + 1) w.addr st
      = Scan.scanFrom leaveMethod fuel (st'.rewriter.m_pNext p) st' := by
  have hnode : st.rewriter.node w.addr = some w := h.node_eq hIL
  rw [Scan.scanFrom, if_neg (h.split hIL).2.1]
  dsimp only
  rw [hnode]
  dsimp only
  rw [hround]
  rfl

/-- The scan goes through the slots of a switch. -/
theorem scanFrom_slots (h : s.Linked) {slots : List ILInstr} {fuel : ℕ}
    (hIL : s.m_IL = done ++ (slots ++ rest)) (hslots : ∀ j ∈ slots, j.m_opcode = ceeSwitchArg) :
    Scan.scanFrom leaveMethod (fuel + slots.length) (headAddr ILInstr.addr pIL (slots ++ rest))
        ⟨s, isTailCall, P, T⟩
      = Scan.scanFrom leaveMethod fuel (headAddr ILInstr.addr pIL rest) ⟨s, isTailCall, P, T⟩ := by
  induction slots generalizing done with
  | nil => rfl
  | cons j slots ih =>
      have hround : Scan.scanInstr leaveMethod j.addr j ⟨s, isTailCall, P, T⟩ = _ :=
        scanInstr_slot (hslots j List.mem_cons_self) _
      have hnext : s.m_pNext j.addr = headAddr ILInstr.addr pIL (slots ++ rest) := h.next_eq hIL
      rw [List.length_cons, List.cons_append, headAddr, ← Nat.add_assoc,
        scanFrom_round h hIL hround, hnext]
      rw [List.cons_append, List.append_cons] at hIL
      exact ih hIL fun k hk => hslots k (List.mem_cons_of_mem j hk)

end Rounds

/-! ### The whole scan -/

section WholeScan

variable {s : ILRewriter} {prevOf : ℕ → ℕ} {w : ILInstr} {ws : List ILInstr}

theorem BehindTail.cons {p : ℕ} (h : BehindTail ws p) : BehindTail (w :: ws) p := by
  obtain ⟨pre, v, c, post, rfl, hv, hc⟩ := h
  exact ⟨w :: pre, v, c, post, rfl, hv, hc⟩

theorem TargetsFound.tail (h : TargetsFound s prevOf (w :: ws)) : TargetsFound s prevOf ws := by
  intro v hv hhas
  obtain ⟨hne, hlt, hbehind, hprev⟩ := h v (List.mem_cons_of_mem w hv) hhas
  exact ⟨hne, hlt, fun hp => hbehind hp.cons, hprev⟩

theorem TargetsFound.append (vs : List ILInstr) (h : TargetsFound s prevOf (vs ++ ws)) :
    TargetsFound s prevOf ws := by
  induction vs with
  | nil => exact h
  | cons v vs ih => exact ih h.tail

/-- A new node behind a `tail.` hides no target. -/
theorem TargetsFound.afterTail {s' : ILRewriter} {done : List ILInstr} {w' x c : ILInstr}
    (h : TargetsFound s prevOf (w :: c :: ws)) (htail : w.m_opcode = ceeTailcall)
    (hIL : s.m_IL = done ++ w :: c :: ws) (hIL' : s'.m_IL = done ++ w' :: x :: c :: ws)
    (haddr : w'.addr = w.addr) (hx : x.addr = s.fresh) (hfresh : s'.fresh = s.fresh + 1) :
    TargetsFound s' prevOf (c :: ws) := by
  intro v hv hhas
  obtain ⟨hne, hlt, hbehind, hprev⟩ := h v (List.mem_cons_of_mem w hv) hhas
  refine ⟨hne, by omega, fun hp => hbehind hp.cons, ?_⟩
  rw [← hprev, ILRewriter.m_pPrev, ILRewriter.m_pPrev, hIL, hIL']
  refine prevAddr_inserted haddr (by omega) fun hc => ?_
  exact hbehind ⟨[], w, c, ws, rfl, htail, hc⟩

theorem TailsFollowed.of_plain (h : TailsFollowed (w :: ws)) (hne : w.m_opcode ≠ ceeTailcall) :
    TailsFollowed ws := by
  cases h with
  | plain _ rest => exact rest
  | tail htail _ => exact absurd htail hne

theorem TailsFollowed.of_slots {slots : List ILInstr} (h : TailsFollowed (slots ++ ws))
    (hslots : ∀ j ∈ slots, j.m_opcode = ceeSwitchArg) : TailsFollowed ws := by
  induction slots with
  | nil => exact h
  | cons j slots ih =>
      refine ih (h.of_plain ?_) fun k hk => hslots k (List.mem_cons_of_mem j hk)
      rw [hslots j List.mem_cons_self]
      decide

theorem scanned_slots {slots : List ILInstr} (hslots : ∀ j ∈ slots, j.m_opcode = ceeSwitchArg)
    (fresh : ℕ) : scanned fresh (slots ++ ws) = slots ++ scanned fresh ws := by
  induction slots with
  | nil => rfl
  | cons j slots ih =>
      rw [List.cons_append, scanned, if_neg (by rw [hslots j List.mem_cons_self]; decide),
        ih fun k hk => hslots k (List.mem_cons_of_mem j hk), List.cons_append]

/-- The slots of a switch ask for no probes of their own; behind them stands the last one. -/
theorem priorities_slots {leaveMethod : Probe} {slots : List ILInstr}
    (hslots : ∀ j ∈ slots, j.m_opcode = ceeSwitchArg) (fresh : ℕ) (done : List ILInstr)
    (isTailCall : Bool) :
    priorities leaveMethod fresh done.getLast? isTailCall (slots ++ ws)
      = priorities leaveMethod fresh (done ++ slots).getLast? isTailCall ws := by
  induction slots generalizing done with
  | nil => rw [List.append_nil]; rfl
  | cons j slots ih =>
      have hop := hslots j List.mem_cons_self
      have hcall : ¬ IsCallOpcode j.m_opcode := by rw [hop]; decide
      have hown : ownInsertions leaveMethod done.getLast? isTailCall j = ([], isTailCall) := by
        rw [ownInsertions_of_plain (by rw [hop]; decide) hcall (by rw [hop]; decide), hop]
        rfl
      rw [List.cons_append, priorities, if_neg (by rw [hop]; decide), hown, List.nil_append,
        List.append_cons, ← ih (fun k hk => hslots k (List.mem_cons_of_mem j hk)),
        List.getLast?_concat]

theorem predecessors_cons_of_has (hhas : HasTarget w.m_opcode) :
    predecessors prevOf (w :: ws) = prevOf w.m_pTarget :: predecessors prevOf ws := by
  rw [predecessors, List.filter_cons_of_pos (by simpa using hhas)]
  rfl

theorem predecessors_cons_of_not (hno : ¬ HasTarget w.m_opcode) :
    predecessors prevOf (w :: ws) = predecessors prevOf ws := by
  rw [predecessors, List.filter_cons_of_neg (by simpa using hno)]
  rfl

theorem predecessors_slots {slots : List ILInstr}
    (hslots : ∀ j ∈ slots, j.m_opcode = ceeSwitchArg) :
    predecessors prevOf (slots ++ ws)
      = (slots.map fun j => prevOf j.m_pTarget) ++ predecessors prevOf ws := by
  rw [predecessors, List.filter_append, List.map_append, List.filter_eq_self.mpr]
  · rfl
  · intro j hj
    rw [hslots j hj]
    decide

/-- What the scan yields from a list of which it has `done` behind it. -/
structure ScanResult (leaveMethod : Probe) (prevOf : ℕ → ℕ) (done ws : List ILInstr)
    (st st' : Scan) : Prop where
  list_eq : st'.rewriter.m_IL = done ++ scanned st.rewriter.fresh ws
  linked : st'.rewriter.Linked
  clauses_eq : st'.rewriter.m_pEH = st.rewriter.m_pEH
  priority_eq : st'.addPriorityProbe = st.addPriorityProbe
    ++ priorities leaveMethod st.rewriter.fresh done.getLast? st.isTailCall ws
  target_eq : ∃ T, st'.addTargetProbe = st.addTargetProbe ++ T
    ∧ T.map ProbeInsertion.target = predecessors prevOf ws
    ∧ ∀ x ∈ T, x.probe = .coverage ∧ x.isBeforeInstr = false

section Results

variable {leaveMethod : Probe} {i : ILInstr} {done is : List ILInstr} {isTailCall : Bool}
  {P T : List ProbeInsertion} {st' : Scan}

/-- In front of what the scan yields behind a `tail.` stand the two nodes made of it. -/
theorem ScanResult.tail {s₁ : ILRewriter} (htail : i.m_opcode = ceeTailcall)
    (hfresh : s₁.fresh = s.fresh + 1) (heh : s₁.m_pEH = s.m_pEH)
    (h : ScanResult leaveMethod prevOf (done ++ [oldTail i is, newTail s.fresh is]) is
      ⟨s₁, true, P ++ [⟨s.fresh, nullPtr, .tailcall, true⟩,
        ⟨i.addr, nullPtr, .coverage, true⟩], T⟩ st') :
    ScanResult leaveMethod prevOf done (i :: is) ⟨s, isTailCall, P, T⟩ st' := by
  refine ⟨?_, h.linked, h.clauses_eq.trans heh, ?_, ?_⟩
  · have hscanned : scanned s.fresh (i :: is) = _ := if_pos htail
    rw [h.list_eq, hfresh, hscanned]
    simp
  · have hown : priorities leaveMethod s.fresh done.getLast? isTailCall (i :: is) = _ :=
      if_pos htail
    rw [h.priority_eq, hfresh, hown, List.append_assoc]
    congr 2
    simp
  · obtain ⟨T', hT', hmap, hall⟩ := h.target_eq
    have hno : ¬ HasTarget i.m_opcode := by rw [htail]; decide
    exact ⟨T', hT', hmap.trans (predecessors_cons_of_not hno).symm, hall⟩

/-- An instruction that is no `tail.` stays, and its insertions come first. -/
theorem ScanResult.plain (htail : i.m_opcode ≠ ceeTailcall)
    (hprev : HasTarget i.m_opcode → s.m_pPrev i.m_pTarget = prevOf i.m_pTarget)
    (h : ScanResult leaveMethod prevOf (done ++ [i]) is
      ⟨s, (ownInsertions leaveMethod done.getLast? isTailCall i).2,
        P ++ (ownInsertions leaveMethod done.getLast? isTailCall i).1,
        T ++ if HasTarget i.m_opcode then [targetInsertion s.m_pPrev i.addr i] else []⟩ st') :
    ScanResult leaveMethod prevOf done (i :: is) ⟨s, isTailCall, P, T⟩ st' := by
  refine ⟨?_, h.linked, h.clauses_eq, ?_, ?_⟩
  · rw [h.list_eq, scanned, if_neg htail, List.append_assoc]
    rfl
  · rw [h.priority_eq, priorities, if_neg htail, List.append_assoc, List.getLast?_concat]
  · obtain ⟨T', hT', hmap, hall⟩ := h.target_eq
    rw [List.append_assoc] at hT'
    refine ⟨_, hT', ?_, ?_⟩
    · rw [List.map_append, hmap]
      by_cases hhas : HasTarget i.m_opcode
      · rw [if_pos hhas, predecessors_cons_of_has hhas]
        exact congrArg (· :: _) (hprev hhas)
      · rw [if_neg hhas, predecessors_cons_of_not hhas]
        rfl
    · intro x hx
      rcases List.mem_append.mp hx with hx | hx
      · split at hx
        · rw [List.mem_singleton.mp hx]
          exact ⟨rfl, rfl⟩
        · exact absurd hx List.not_mem_nil
      · exact hall x hx

/-- A `switch` and its slots stay; the insertions for the targets are those of the slots. -/
theorem ScanResult.switch {slots : List ILInstr} (hop : i.m_opcode = ceeSwitch)
    (hslots : ∀ j ∈ slots, j.m_opcode = ceeSwitchArg)
    (hprev : ∀ j ∈ slots, s.m_pPrev j.m_pTarget = prevOf j.m_pTarget)
    (h : ScanResult leaveMethod prevOf (done ++ [i] ++ slots) is
      ⟨s, isTailCall, P ++ [⟨i.addr, nullPtr, .branch, true⟩],
        T ++ slots.map (targetInsertion s.m_pPrev i.addr)⟩ st') :
    ScanResult leaveMethod prevOf done (i :: (slots ++ is)) ⟨s, isTailCall, P, T⟩ st' := by
  have htail : i.m_opcode ≠ ceeTailcall := by rw [hop]; decide
  refine ⟨?_, h.linked, h.clauses_eq, ?_, ?_⟩
  · rw [h.list_eq, scanned, if_neg htail, scanned_slots hslots]
    simp
  · have hown : ownInsertions leaveMethod done.getLast? isTailCall i
        = ([⟨i.addr, nullPtr, .branch, true⟩], isTailCall) := by
      have hcall : ¬ IsCallOpcode i.m_opcode := by rw [hop]; decide
      rw [ownInsertions_of_plain (by rw [hop]; decide) hcall (by rw [hop]; decide), hop]
      rfl
    rw [h.priority_eq, priorities, if_neg htail, hown, List.append_assoc,
      ← List.getLast?_concat (l := done), priorities_slots hslots]
  · obtain ⟨T', hT', hmap, hall⟩ := h.target_eq
    rw [List.append_assoc] at hT'
    refine ⟨_, hT', ?_, ?_⟩
    · have hno : ¬ HasTarget i.m_opcode := by rw [hop]; decide
      rw [List.map_append, hmap, predecessors_cons_of_not hno, predecessors_slots hslots,
        List.map_map]
      congr 1
      exact List.map_congr_left hprev
    · intro x hx
      rcases List.mem_append.mp hx with hx | hx
      · obtain ⟨j, -, rfl⟩ := List.mem_map.mp hx
        exact ⟨rfl, rfl⟩
      · exact hall x hx

end Results

/-- **The scan** of a list with switch tables, from any instruction on. -/
theorem scanFrom_eq {leaveMethod : Probe} (htables : SwitchTables ws) :
    ∀ (st : Scan) {done : List ILInstr} {fuel : ℕ}, st.rewriter.Linked →
      st.rewriter.m_IL = done ++ ws → ws.length ≤ fuel → TailsFollowed ws →
      (∀ w ∈ ws, w.m_opcode = ceeSwitch → w.m_Arg32 < 2 ^ 31) →
      TargetsFound st.rewriter prevOf ws →
      ∃ st', Scan.scanFrom leaveMethod fuel (headAddr ILInstr.addr pIL ws) st = .ok st'
        ∧ ScanResult leaveMethod prevOf done ws st st' := by
  induction htables with
  | nil =>
      intro st done fuel hlinked hIL _ _ _ _
      refine ⟨st, ?_, hIL, hlinked, rfl, (List.append_nil _).symm, [], (List.append_nil _).symm,
        rfl, by simp⟩
      cases fuel with
      | zero => rfl
      | succ fuel => exact if_pos rfl
  | @instr i is himportable hne _ ih =>
      rintro ⟨s, isTailCall, P, T⟩ done fuel hlinked hIL hfuel htails hsmall hfound
      dsimp only at hlinked hIL hfound
      obtain ⟨fuel, rfl⟩ : ∃ n, fuel = n + 1 :=
        ⟨fuel - 1, by rw [List.length_cons] at hfuel; omega⟩
      have hfuel' : is.length ≤ fuel := Nat.le_of_succ_le_succ hfuel
      have hsmall' : ∀ w ∈ is, w.m_opcode = ceeSwitch → w.m_Arg32 < 2 ^ 31 :=
        fun w hw => hsmall w (List.mem_cons_of_mem i hw)
      by_cases htail : i.m_opcode = ceeTailcall
      · obtain ⟨c, r, vs, rfl, htails'⟩ : ∃ c r vs, is = c :: r :: vs ∧ TailsFollowed is := by
          cases htails with
          | plain hplain _ => exact absurd htail hplain
          | tail _ rest => exact ⟨_, _, _, rfl, rest⟩
        obtain ⟨s₁, hround, hIL₁, hlinked₁, hfresh₁, heh₁⟩ := scanInstr_tail
          leaveMethod isTailCall (P := P) (T := T) hlinked hIL htail
        have hnew : s₁.m_IL = (done ++ [oldTail i (c :: r :: vs), newTail s.fresh (c :: r :: vs)])
            ++ c :: r :: vs := by
          rw [hIL₁]
          simp
        have hnext : s₁.m_pNext s.fresh = headAddr ILInstr.addr pIL (c :: r :: vs) := by
          have hIL₁' := hIL₁
          rw [List.append_cons] at hIL₁'
          exact hlinked₁.next_eq hIL₁'
        obtain ⟨st', hscan, hres⟩ := ih ⟨s₁, true, P ++ [⟨s.fresh, nullPtr, .tailcall, true⟩,
            ⟨i.addr, nullPtr, .coverage, true⟩], T⟩ hlinked₁ hnew hfuel' htails' hsmall'
          (hfound.afterTail htail hIL hIL₁ rfl rfl hfresh₁)
        refine ⟨st', ?_, hres.tail htail hfresh₁ heh₁⟩
        rw [headAddr, scanFrom_round hlinked hIL hround, hnext]
        exact hscan
      · have hround := scanInstr_plain leaveMethod isTailCall (P := P) (T := T) hlinked hIL
          himportable.1 htail hne fun hhas => (hfound i List.mem_cons_self hhas).1
        have hnew := hIL
        rw [List.append_cons] at hnew
        obtain ⟨st', hscan, hres⟩ := ih ⟨s, (ownInsertions leaveMethod done.getLast?
            isTailCall i).2, P ++ (ownInsertions leaveMethod done.getLast? isTailCall i).1,
            T ++ if HasTarget i.m_opcode then [targetInsertion s.m_pPrev i.addr i] else []⟩ hlinked
          hnew hfuel' (htails.of_plain htail) hsmall' hfound.tail
        refine ⟨st', ?_, hres.plain htail fun hhas => (hfound i List.mem_cons_self hhas).2.2.2⟩
        rw [headAddr, scanFrom_round hlinked hIL hround, hlinked.next_eq hIL]
        exact hscan
  | @switch i slots is hop hlen hslots _ ih =>
      rintro ⟨s, isTailCall, P, T⟩ done fuel hlinked hIL hfuel htails hsmall hfound
      dsimp only at hlinked hIL hfound
      obtain ⟨fuel, rfl⟩ : ∃ n, fuel = n + slots.length + 1 :=
        ⟨fuel - slots.length - 1, by
          rw [List.length_cons, List.length_append] at hfuel
          omega⟩
      have hfuel' : is.length ≤ fuel := by
        rw [List.length_cons, List.length_append] at hfuel
        omega
      have htail : i.m_opcode ≠ ceeTailcall := by rw [hop]; decide
      have hnew := hIL
      rw [List.append_cons] at hnew
      have hrest := hnew
      rw [← List.append_assoc] at hrest
      have hslot : ∀ j ∈ slots, j.m_pTarget ≠ nullPtr
          ∧ s.m_pPrev j.m_pTarget = prevOf j.m_pTarget := by
        intro j hj
        obtain ⟨hnull, -, -, hprev⟩ :=
          hfound.tail j (List.mem_append_left is hj) (by rw [hslots j hj]; decide)
        exact ⟨hnull, hprev⟩
      have hround := scanInstr_switch leaveMethod isTailCall (P := P) (T := T) hlinked hIL hop hlen
        (hsmall i List.mem_cons_self hop) fun j hj => (hslot j hj).1
      obtain ⟨st', hscan, hres⟩ := ih ⟨s, isTailCall, P ++ [⟨i.addr, nullPtr, .branch, true⟩],
          T ++ slots.map (targetInsertion s.m_pPrev i.addr)⟩ hlinked hrest
        hfuel' ((htails.of_plain htail).of_slots hslots)
        (fun w hw => hsmall w (List.mem_cons_of_mem i (List.mem_append_right slots hw)))
        (hfound.tail.append slots)
      refine ⟨st', ?_, hres.switch hop hslots fun j hj => (hslot j hj).2⟩
      rw [headAddr, scanFrom_round hlinked hIL hround, hlinked.next_eq hIL,
        scanFrom_slots hlinked hnew hslots]
      exact hscan

end WholeScan


end TestExecutor
