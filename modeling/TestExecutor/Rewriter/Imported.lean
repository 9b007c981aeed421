import TestExecutor.IL.ControlFlow
import TestExecutor.Rewriter.Edits
import TestExecutor.Rewriter.Rewritten

/-!
# Valid bodies in the rewriter

What `Import` and `countOffsets` make out of a valid body, and why its list can be rewritten.

* `importedNodes` — the nodes of the decoded instructions, with their byte offsets and targets;
* `addrBehindAll` — the address of the instruction behind some others;
* `startAddr_split` — instructions by their offsets;
* `importBody_of_valid`, `rewritable_of_valid` — valid bodies are imported and can be rewritten.
-/

namespace TestExecutor

open TestExecutor.Library

/-! ### The imported nodes -/

/-- The node of an instruction; `t` resolves byte offsets. -/
def instrNode (t : ℕ → ℕ) (a : ℕ) (i : RawInstr) : ILInstr :=
  resolveNode t ⟨a, i.opcode, i.offset, i.argWord⟩

/-- The nodes of a switch table. -/
def tableNodes (t : ℕ → ℕ) : ℕ → ℕ → List ℕ → List ILInstr
  | _, _, [] => []
  | a, o, target :: targets =>
      ⟨a, ceeSwitchArg, o, t target⟩ :: tableNodes t (a + 1) (o + 4) targets

def RawInstr.tableNodes (t : ℕ → ℕ) (a : ℕ) (i : RawInstr) : List ILInstr :=
  TestExecutor.tableNodes t (a + 1) (i.operandOffset + operandSize i.opcode) i.slotTargets

def importedNodes (t : ℕ → ℕ) : ℕ → List RawInstr → List ILInstr
  | _, [] => []
  | a, i :: is => instrNode t a i :: (i.tableNodes t a ++ importedNodes t (addrBehind a i) is)

/-- The address behind the nodes of some instructions. -/
def addrBehindAll (a : ℕ) (is : List RawInstr) : ℕ := is.foldl addrBehind a

theorem importedNodes_append (t : ℕ → ℕ) (is js : List RawInstr) (a : ℕ) :
    importedNodes t a (is ++ js)
      = importedNodes t a is ++ importedNodes t (addrBehindAll a is) js := by
  induction is generalizing a with
  | nil => rfl
  | cons i is ih =>
      rw [List.cons_append, importedNodes, ih, importedNodes, List.cons_append, List.append_assoc]
      rfl

theorem tableNodes_opcode {t : ℕ → ℕ} {targets : List ℕ} {a o : ℕ} {j : ILInstr}
    (hj : j ∈ tableNodes t a o targets) : j.m_opcode = ceeSwitchArg := by
  induction targets generalizing a o with
  | nil => exact absurd hj List.not_mem_nil
  | cons target targets ih =>
      rcases List.mem_cons.mp hj with rfl | hj
      · rfl
      · exact ih hj

theorem tableNodes_length (t : ℕ → ℕ) (targets : List ℕ) (a o : ℕ) :
    (tableNodes t a o targets).length = targets.length := by
  induction targets generalizing a o with
  | nil => rfl
  | cons target targets ih => rw [tableNodes, List.length_cons, ih, List.length_cons]

theorem tableNodes_addr (t : ℕ → ℕ) (targets : List ℕ) (a o : ℕ) :
    (tableNodes t a o targets).map ILInstr.addr = List.range' a targets.length := by
  induction targets generalizing a o with
  | nil => rfl
  | cons target targets ih =>
      rw [tableNodes, List.map_cons, ih, List.length_cons, List.range'_succ]

/-- The table of a decoded instruction is counted through. -/
theorem countOffsetsFrom_slotNodes {t : ℕ → ℕ} {targets : List ℕ}
    (hlt : ∀ target ∈ targets, target < 2 ^ 32) (a o : ℕ) :
    countOffsetsFrom o ((slotNodes a targets).map (resolveNode t)) = tableNodes t a o targets := by
  induction targets generalizing a o with
  | nil => rfl
  | cons target targets ih =>
      have hmod : target % 2 ^ 32 = target := Nat.mod_eq_of_lt (hlt target List.mem_cons_self)
      have hnode : resolveNode t ⟨a, ceeSwitchArg, 0, target⟩
          = ⟨a, ceeSwitchArg, 0, t target⟩ := by
        show (if _ then (⟨a, ceeSwitchArg, 0, t (target % 2 ^ 32)⟩ : ILInstr) else _) = _
        rw [hmod]
        rfl
      rw [slotNodes, List.map_cons, hnode, countOffsetsFrom, byteSize_slot rfl,
        ih (fun u hu => hlt u (List.mem_cons_of_mem target hu))]
      rfl

theorem slotTargets_lt {i : RawInstr} {target : ℕ} (h : target ∈ i.slotTargets) :
    target < 2 ^ 32 := by
  obtain ⟨raw, -, rfl⟩ := List.mem_map.mp h
  exact Nat.mod_lt _ (by decide)

theorem totalSize_slotNodes (t : ℕ → ℕ) (targets : List ℕ) (a : ℕ) :
    totalSize ((slotNodes a targets).map (resolveNode t)) = 4 * targets.length := by
  induction targets generalizing a with
  | nil => rfl
  | cons target targets ih =>
      have hnode : (resolveNode t ⟨a, ceeSwitchArg, 0, target⟩).byteSize = 4 :=
        byteSize_slot (resolveNode_m_opcode t _)
      rw [slotNodes, List.map_cons, totalSize_cons, hnode, ih, List.length_cons]
      omega

/-- **Byte offsets**: the counted offset of every instruction is its offset in the body. -/
theorem countOffsetsFrom_nodesFrom {t : ℕ → ℕ} {is : List RawInstr} {o stop : ℕ}
    (hcons : Consecutive o is stop) (hlt : ∀ i ∈ is, i.opcode < ceeCount) (a : ℕ) :
    countOffsetsFrom o ((nodesFrom a is).map (resolveNode t)) = importedNodes t a is := by
  induction is generalizing o a with
  | nil => rfl
  | cons i is ih =>
      obtain ⟨rfl, hrest⟩ := hcons
      have hop := resolveNode_m_opcode t ⟨a, i.opcode, 0, i.argWord⟩
      have hsize : (resolveNode t ⟨a, i.opcode, 0, i.argWord⟩).byteSize
          = opcodeSize i.opcode + operandSize i.opcode := by
        rw [ILInstr.byteSize, hop]
        show (if i.opcode < ceeCount then _ else _) + _ = _
        rw [if_pos (hlt i List.mem_cons_self)]
      have htable : i.offset + (opcodeSize i.opcode + operandSize i.opcode)
          + 4 * i.slotTargets.length = i.next := by
        rw [RawInstr.slotTargets, List.length_map, RawInstr.next, RawInstr.operandOffset]
        omega
      have hnode : { resolveNode t ⟨a, i.opcode, 0, i.argWord⟩ with m_offset := i.offset }
          = instrNode t a i := by
        unfold instrNode resolveNode
        split <;> rfl
      have hslots : countOffsetsFrom (i.offset + (opcodeSize i.opcode + operandSize i.opcode))
          ((slotNodes (a + 1) i.slotTargets).map (resolveNode t)) = i.tableNodes t a := by
        rw [countOffsetsFrom_slotNodes fun _ => slotTargets_lt, RawInstr.tableNodes,
          RawInstr.operandOffset, Nat.add_assoc]
      rw [nodesFrom, instrNodes, List.cons_append, List.map_cons, countOffsetsFrom, hnode, hsize,
        List.map_append, countOffsetsFrom_append, hslots, totalSize_slotNodes, htable,
        ih hrest (fun j hj => hlt j (List.mem_cons_of_mem i hj)), importedNodes]

/-! ### Addresses and offsets -/

theorem instrNode_addr (t : ℕ → ℕ) (a : ℕ) (i : RawInstr) : (instrNode t a i).addr = a :=
  resolveNode_addr t _

theorem instrNode_opcode (t : ℕ → ℕ) (a : ℕ) (i : RawInstr) :
    (instrNode t a i).m_opcode = i.opcode := resolveNode_m_opcode t _

theorem instrNode_offset (t : ℕ → ℕ) (a : ℕ) (i : RawInstr) :
    (instrNode t a i).m_offset = i.offset := by
  unfold instrNode resolveNode
  split <;> rfl

theorem argWord_lt {i : RawInstr} (h : HasTarget i.opcode) : i.argWord < 2 ^ 32 := by
  unfold HasTarget at h
  unfold RawInstr.argWord
  cases hflags : opCodeFlags i.opcode with
  | branch8 => exact Nat.mod_lt _ (by decide)
  | branch32 => exact Nat.mod_lt _ (by decide)
  | _ => rw [hflags] at h; cases h

/-- The operand of a branch is the node that its target refers to. -/
theorem instrNode_target {t : ℕ → ℕ} {a : ℕ} {i : RawInstr} (h : HasTarget i.opcode) :
    (instrNode t a i).m_pTarget = t i.argWord := by
  have hnode : instrNode t a i = ⟨a, i.opcode, i.offset, t (i.argWord % 2 ^ 32)⟩ := if_pos h
  rw [hnode, Nat.mod_eq_of_lt (argWord_lt h)]
  rfl

/-- Other operands are kept. -/
theorem instrNode_arg {t : ℕ → ℕ} {a : ℕ} {i : RawInstr} (h : ¬ HasTarget i.opcode) :
    (instrNode t a i).m_Arg64 = i.operand := by
  have hnode : instrNode t a i = ⟨a, i.opcode, i.offset, i.argWord⟩ := if_neg h
  rw [hnode]
  show i.argWord = i.operand
  unfold HasTarget at h
  unfold RawInstr.argWord
  cases hflags : opCodeFlags i.opcode with
  | branch8 => rw [hflags] at h; exact absurd rfl h
  | branch32 => rw [hflags] at h; exact absurd rfl h
  | _ => rfl

theorem tableNodes_offset {t : ℕ → ℕ} {targets : List ℕ} {a o : ℕ} {j : ILInstr}
    (hj : j ∈ tableNodes t a o targets) :
    o ≤ j.m_offset ∧ j.m_offset < o + 4 * targets.length := by
  induction targets generalizing a o with
  | nil => exact absurd hj List.not_mem_nil
  | cons target targets ih =>
      rw [List.length_cons]
      rcases List.mem_cons.mp hj with rfl | hj
      · dsimp only
        omega
      · have := ih hj
        omega

theorem tableNodes_offsets_pairwise (t : ℕ → ℕ) (targets : List ℕ) (a o : ℕ) :
    ((tableNodes t a o targets).map ILInstr.m_offset).Pairwise (· < ·) := by
  induction targets generalizing a o with
  | nil => exact List.Pairwise.nil
  | cons target targets ih =>
      refine List.Pairwise.cons (fun o' ho' => ?_) (ih (a + 1) (o + 4))
      obtain ⟨j, hj, rfl⟩ := List.mem_map.mp ho'
      have := (tableNodes_offset hj).1
      show o < j.m_offset
      omega

/-- The nodes of an instruction lie between it and the next one. -/
theorem RawInstr.nodes_offset {t : ℕ → ℕ} {a : ℕ} {i : RawInstr} {j : ILInstr}
    (hj : j ∈ i.tableNodes t a) : i.offset < j.m_offset ∧ j.m_offset < i.next := by
  have hbounds := tableNodes_offset hj
  have hpos := opcodeSize_pos i.opcode
  rw [RawInstr.slotTargets, List.length_map] at hbounds
  unfold RawInstr.next RawInstr.operandOffset at *
  omega

theorem importedNodes_offset {t : ℕ → ℕ} {is : List RawInstr} {o stop : ℕ}
    (hcons : Consecutive o is stop) {a : ℕ} {j : ILInstr} (hj : j ∈ importedNodes t a is) :
    o ≤ j.m_offset ∧ j.m_offset < stop := by
  induction is generalizing o a with
  | nil => exact absurd hj List.not_mem_nil
  | cons i is ih =>
      obtain ⟨rfl, hrest⟩ := hcons
      have hlt := i.offset_lt_next
      have hle := hrest.le
      rcases List.mem_cons.mp hj with rfl | hj
      · rw [instrNode_offset]
        omega
      · rcases List.mem_append.mp hj with hj | hj
        · have := RawInstr.nodes_offset hj
          omega
        · have := ih hrest hj
          omega

theorem importedNodes_offsets_pairwise {t : ℕ → ℕ} {is : List RawInstr} {o stop : ℕ}
    (hcons : Consecutive o is stop) (a : ℕ) :
    ((importedNodes t a is).map ILInstr.m_offset).Pairwise (· < ·) := by
  induction is generalizing o a with
  | nil => exact List.Pairwise.nil
  | cons i is ih =>
      obtain ⟨rfl, hrest⟩ := hcons
      have hlt := i.offset_lt_next
      rw [importedNodes, List.map_cons, List.map_append, instrNode_offset]
      refine List.Pairwise.cons (fun o' ho' => ?_) (List.pairwise_append.mpr
        ⟨tableNodes_offsets_pairwise t _ _ _, ih hrest _, fun o₁ ho₁ o₂ ho₂ => ?_⟩)
      · rcases List.mem_append.mp ho' with ho' | ho'
        · obtain ⟨j, hj, rfl⟩ := List.mem_map.mp ho'
          exact (RawInstr.nodes_offset hj).1
        · obtain ⟨j, hj, rfl⟩ := List.mem_map.mp ho'
          have := (importedNodes_offset hrest hj).1
          omega
      · obtain ⟨j, hj, rfl⟩ := List.mem_map.mp ho₁
        obtain ⟨k, hk, rfl⟩ := List.mem_map.mp ho₂
        have := (RawInstr.nodes_offset hj).2
        have := (importedNodes_offset hrest hk).1
        omega

/-- The address of an instruction, by its offset. -/
theorem startAddr_split {pre post : List RawInstr} {i : RawInstr} {o stop : ℕ}
    (hcons : Consecutive o (pre ++ i :: post) stop) (a : ℕ) :
    startAddr a (pre ++ i :: post) i.offset = some (addrBehindAll a pre) := by
  induction pre generalizing o a with
  | nil => exact if_pos rfl
  | cons k pre ih =>
      obtain ⟨rfl, hrest⟩ := hcons
      have hlt := k.offset_lt_next
      have hle := (hrest.bounds (i := i) (by simp)).1
      rw [List.cons_append, startAddr, if_neg (by omega), ih hrest]
      rfl

/-- Instructions at the start of lists. -/
theorem importedNodes_head (t : ℕ → ℕ) (a : ℕ) (is : List RawInstr) :
    (importedNodes t a is).head?.map ILInstr.m_opcode = is.head?.map RawInstr.opcode := by
  cases is with
  | nil => rfl
  | cons i is =>
      rw [importedNodes, List.head?_cons, Option.map_some, instrNode_opcode]
      rfl

theorem importedNodes_tables {t : ℕ → ℕ} {is : List RawInstr}
    (himportable : ∀ i ∈ is, Importable i.opcode)
    (hslots : ∀ i ∈ is, i.slots.length = if i.opcode = ceeSwitch then i.operand else 0)
    (hsmall : ∀ i ∈ is, i.operand < 2 ^ 32 ∨ i.opcode ≠ ceeSwitch) (a : ℕ) :
    SwitchTables (importedNodes t a is) := by
  induction is generalizing a with
  | nil => exact SwitchTables.nil
  | cons i is ih =>
      have hrest := ih (fun j hj => himportable j (List.mem_cons_of_mem i hj))
        (fun j hj => hslots j (List.mem_cons_of_mem i hj))
        (fun j hj => hsmall j (List.mem_cons_of_mem i hj)) (addrBehind a i)
      have hlength := hslots i List.mem_cons_self
      have hop := instrNode_opcode t a i
      by_cases hswitch : i.opcode = ceeSwitch
      · refine SwitchTables.switch (hop.trans hswitch) ?_ (fun j hj => tableNodes_opcode hj) hrest
        have hnode : (instrNode t a i).m_Arg64 = i.operand :=
          instrNode_arg (by rw [hswitch]; decide)
        rw [RawInstr.tableNodes, tableNodes_length, RawInstr.slotTargets, List.length_map, hlength,
          if_pos hswitch, ILInstr.m_Arg32, hnode]
        exact (Nat.mod_eq_of_lt ((hsmall i List.mem_cons_self).resolve_right
          fun hne => hne hswitch)).symm
      · rw [if_neg hswitch] at hlength
        have hnone : i.tableNodes t a = [] := by
          rw [RawInstr.tableNodes, RawInstr.slotTargets, List.eq_nil_of_length_eq_zero hlength]
          rfl
        rw [importedNodes, hnone, List.nil_append]
        exact SwitchTables.instr (hop ▸ himportable i List.mem_cons_self)
          (fun h => hswitch (hop.symm.trans h)) hrest

/-- A node that is no switch slot is that of an instruction. -/
theorem importedNodes_split {t : ℕ → ℕ} {is : List RawInstr} {a : ℕ} {pre post : List ILInstr}
    {w : ILInstr} (hsplit : importedNodes t a is = pre ++ w :: post)
    (hw : w.m_opcode ≠ ceeSwitchArg) :
    ∃ is₁ i is₂, is = is₁ ++ i :: is₂ ∧ pre = importedNodes t a is₁
      ∧ w = instrNode t (addrBehindAll a is₁) i
      ∧ post = i.tableNodes t (addrBehindAll a is₁)
        ++ importedNodes t (addrBehind (addrBehindAll a is₁) i) is₂ := by
  induction is generalizing a pre with
  | nil => simp [importedNodes] at hsplit
  | cons k is ih =>
      rw [importedNodes] at hsplit
      cases pre with
      | nil =>
          obtain ⟨rfl, rfl⟩ := List.cons.inj hsplit
          exact ⟨[], k, is, rfl, rfl, rfl, rfl⟩
      | cons v pre =>
          obtain ⟨rfl, hrest⟩ := List.cons.inj hsplit
          -- the node is not one of the slots
          obtain ⟨pre', rfl, hrest'⟩ : ∃ pre', pre = k.tableNodes t a ++ pre'
              ∧ importedNodes t (addrBehind a k) is = pre' ++ w :: post := by
            rcases List.append_eq_append_iff.mp hrest with ⟨pre', h₁, h₂⟩ | ⟨rest, h₁, h₂⟩
            · exact ⟨pre', h₁, h₂⟩
            · cases rest with
              | nil => exact ⟨[], by simpa using h₁.symm, by simpa using h₂.symm⟩
              | cons w' rest =>
                  obtain ⟨rfl, -⟩ := List.cons.inj h₂
                  exact absurd (tableNodes_opcode (h₁ ▸ List.mem_append_right _
                    List.mem_cons_self)) hw
          obtain ⟨is₁, i, is₂, rfl, rfl, rfl, rfl⟩ := ih hrest'
          exact ⟨k :: is₁, i, is₂, rfl, rfl, rfl, rfl⟩

theorem TailCalls.of_split : ∀ {ws : List ILInstr}, (∀ pre w post, ws = pre ++ w :: post →
    w.m_opcode = ceeTailcall → ∃ c r rest, post = c :: r :: rest
      ∧ (c.m_opcode = ceeCall ∨ c.m_opcode = ceeCalli ∨ c.m_opcode = ceeCallvirt)
      ∧ r.m_opcode = ceeRet) → TailCalls ws
  | [], _ => TailCalls.nil
  | w :: ws, h => by
      by_cases htail : w.m_opcode = ceeTailcall
      · obtain ⟨c, r, rest, rfl, hcall, hret⟩ := h [] w ws rfl htail
        refine TailCalls.tail htail hcall hret (TailCalls.of_split fun pre v post hsplit hv => ?_)
        exact h (w :: c :: r :: pre) v post (by rw [hsplit]; rfl) hv
      · refine TailCalls.plain htail (TailCalls.of_split fun pre v post hsplit hv => ?_)
        exact h (w :: pre) v post (by rw [hsplit]; rfl) hv
  termination_by ws => ws.length

/-! ### Valid bodies -/

theorem hasTarget_targets {i : RawInstr} (hlt : i.opcode < ceeCount) (h : HasTarget i.opcode) :
    i.targets = [i.argWord] := by
  have hall : ∀ opcode < ceeCount, HasTarget opcode → opCtrl opcode = .ctrlBranch
      ∨ opCtrl opcode = .ctrlCondBranch ∧ opcode ≠ ceeSwitch := by decide +kernel
  rw [RawInstr.targets]
  rcases hall i.opcode hlt h with hctrl | ⟨hctrl, hne⟩
  · rw [hctrl]
  · rw [hctrl]
    exact if_neg hne

/-- The records of a body, from its first byte to its last. -/
structure Decoded (code : IlCode) (is : List RawInstr) : Prop where
  consecutive : Consecutive 0 is code.size
  decodedAt : ∀ {i : RawInstr}, i ∈ is → DecodedAt code i.offset i

theorem decoded_of_decodeAll {code : IlCode} {is : List RawInstr}
    (h : decodeAll code code.size 0 = .ok is) : Decoded code is := by
  obtain ⟨hcons, hall⟩ := decodeAll_spec code.size 0 is h (Nat.zero_le _) (by omega)
  exact ⟨hcons, fun hi => hall _ hi⟩

namespace Decoded

variable {code : IlCode} {is : List RawInstr} (h : Decoded code is)

include h

/-- The instruction that follows another one at its end. -/
theorem next_eq {pre post : List RawInstr} {p c : RawInstr} (his : is = pre ++ p :: post)
    (hc : c ∈ is) (hnext : c.offset = p.next) : ∃ rest, post = c :: rest := by
  have hcons := h.consecutive
  rw [his] at hcons
  obtain ⟨middle, -, -, hrest⟩ := hcons.split
  cases post with
  | nil =>
      have hend : p.next = code.size := hrest
      have hle := (h.consecutive.bounds hc).2
      have hlt := c.offset_lt_next
      omega
  | cons k post =>
      have hk : k ∈ is := by rw [his]; simp
      obtain rfl := h.consecutive.eq_of_offset hc hk (hnext.trans hrest.1.symm)
      exact ⟨post, rfl⟩

theorem opcode_lt {i : RawInstr} (hi : i ∈ is) : i.opcode < ceeCount := (h.decodedAt hi).opcode_lt

/-- An instruction is where its offset says. -/
theorem targetOf_split {pre post : List RawInstr} {i : RawInstr} (his : is = pre ++ i :: post) :
    targetOf is code.size i.offset = addrBehindAll (pIL + 1) pre := by
  have hi : i ∈ is := by rw [his]; simp
  have hle := (h.consecutive.bounds hi).2
  have hlt := i.offset_lt_next
  have hcons := h.consecutive
  rw [targetOf, if_neg (by omega)]
  rw [his] at hcons ⊢
  rw [startAddr_split hcons]
  rfl

/-- Instruction starts resolve to nodes of the list. -/
theorem targetOf_mem {o : ℕ} (ho : IsStart is o) (t : ℕ → ℕ) :
    targetOf is code.size o ∈ (importedNodes t (pIL + 1) is).map ILInstr.addr := by
  obtain ⟨i, hi, rfl⟩ := ho
  obtain ⟨pre, post, his⟩ := List.append_of_mem hi
  rw [h.targetOf_split his, his, importedNodes_append, importedNodes, List.map_append,
    List.map_cons, instrNode_addr]
  exact List.mem_append_right _ List.mem_cons_self

theorem targetOf_start {o : ℕ} (ho : IsStart is o) :
    startAddr (pIL + 1) is o = some (targetOf is code.size o)
      ∧ pIL < targetOf is code.size o := by
  obtain ⟨i, hi, rfl⟩ := ho
  obtain ⟨pre, post, his⟩ := List.append_of_mem hi
  have hcons := h.consecutive
  rw [his] at hcons
  have hstart := startAddr_split hcons (pIL + 1)
  rw [h.targetOf_split his]
  rw [← his] at hstart
  exact ⟨hstart, startAddr_lt hstart⟩

/-- Different offsets resolve to different nodes. -/
theorem targetOf_injective {o o' : ℕ} (ho : IsStart is o ∨ o = code.size)
    (ho' : IsStart is o') (heq : targetOf is code.size o = targetOf is code.size o') :
    o = o' := by
  obtain ⟨hstart', hlt'⟩ := h.targetOf_start ho'
  rcases ho with ho | rfl
  · obtain ⟨hstart, -⟩ := h.targetOf_start ho
    rw [← heq] at hstart'
    exact startAddr_injective hstart hstart'
  · rw [← heq, targetOf, if_pos rfl] at hlt'
    exact absurd hlt' (lt_irrefl _)

theorem tableNodes_eq_nil {i : RawInstr} (hi : i ∈ is) (hne : i.opcode ≠ ceeSwitch) (t : ℕ → ℕ)
    (a : ℕ) : i.tableNodes t a = [] := by
  have hslots := (h.decodedAt hi).slots_length
  rw [if_neg hne] at hslots
  rw [RawInstr.tableNodes, RawInstr.slotTargets, List.eq_nil_of_length_eq_zero hslots]
  rfl

theorem importable {i : RawInstr} (hi : i ∈ is) : Importable i.opcode := by
  have hdecoded := h.decodedAt hi
  refine ⟨hdecoded.opcode_lt, hdecoded.not_prefix, ?_⟩
  have hop := hdecoded.opcode_eq
  intro heq
  rw [heq, decodeOpcode] at hop
  split at hop
  · split at hop
    · cases hop
    · have := Except.ok.inj hop
      unfold ceePrefix1 at this
      omega
  · rename_i hne
    exact hne (Except.ok.inj hop)

theorem operand_lt {i : RawInstr} (hi : i ∈ is) : i.operand < 2 ^ 32 ∨ i.opcode ≠ ceeSwitch := by
  by_cases hswitch : i.opcode = ceeSwitch
  · left
    rw [(h.decodedAt hi).operand_eq, hswitch, operandSize_switch]
    exact code.word_lt _ 4
  · exact Or.inr hswitch

/-- The number of slots is bounded by the size of the body. -/
theorem slots_lt {i : RawInstr} (hi : i ∈ is) : i.slots.length < 2 ^ 31 := by
  have hle := (h.decodedAt hi).next_le
  have hsize := code.length_lt
  unfold RawInstr.next IlCode.size at *
  omega

theorem slots_switch {i : RawInstr} (hi : i ∈ is) (hslots : i.slots ≠ []) :
    i.opcode = ceeSwitch := by
  by_contra hne
  have hlength := (h.decodedAt hi).slots_length
  rw [if_neg hne] at hlength
  exact hslots (List.eq_nil_of_length_eq_zero hlength)

/-- What the branch nodes and the slots of the list refer to. -/
theorem node_target {v : ILInstr}
    (hv : v ∈ importedNodes (targetOf is code.size) (pIL + 1) is)
    (hhas : HasTarget v.m_opcode) :
    ∃ i ∈ is, ∃ o ∈ i.targets, v.m_pTarget = targetOf is code.size o := by
  have hall : ∀ (js : List RawInstr) (a : ℕ), (∀ i ∈ js, i ∈ is) →
      v ∈ importedNodes (targetOf is code.size) a js →
      ∃ i ∈ js, ∃ o ∈ i.targets, v.m_pTarget = targetOf is code.size o := by
    intro js
    induction js with
    | nil => exact fun a _ hmem => absurd hmem List.not_mem_nil
    | cons i js ih =>
        intro a hjs hmem
        have hi := hjs i List.mem_cons_self
        rcases List.mem_cons.mp hmem with rfl | hmem
        · rw [instrNode_opcode] at hhas
          refine ⟨i, List.mem_cons_self, i.argWord, ?_, ?_⟩
          · rw [hasTarget_targets (h.opcode_lt hi) hhas]
            exact List.mem_cons_self
          · exact instrNode_target hhas
        · rcases List.mem_append.mp hmem with hmem | hmem
          · have htable : ∀ (targets : List ℕ) (a o : ℕ),
                v ∈ tableNodes (targetOf is code.size) a o targets →
                ∃ o ∈ targets, v.m_pTarget = targetOf is code.size o := by
              intro targets
              induction targets with
              | nil => exact fun a o hmem => absurd hmem List.not_mem_nil
              | cons target targets ih =>
                  intro a o hmem
                  rcases List.mem_cons.mp hmem with rfl | hmem
                  · exact ⟨target, List.mem_cons_self, rfl⟩
                  · obtain ⟨o', ho', heq⟩ := ih _ _ hmem
                    exact ⟨o', List.mem_cons_of_mem target ho', heq⟩
            obtain ⟨o, ho, heq⟩ := htable _ _ _ hmem
            have hswitch : i.opcode = ceeSwitch := by
              by_contra hne
              have hnone := (h.decodedAt hi).slots_length
              rw [if_neg hne] at hnone
              rw [RawInstr.slotTargets, List.eq_nil_of_length_eq_zero hnone] at ho
              exact absurd ho List.not_mem_nil
            refine ⟨i, List.mem_cons_self, o, ?_, heq⟩
            have htargets : i.targets = i.slotTargets := by
              rw [RawInstr.targets, hswitch]
              rfl
            rw [htargets]
            exact ho
          · obtain ⟨j, hj, rest⟩ := ih _ (fun k hk => hjs k (List.mem_cons_of_mem i hk)) hmem
            exact ⟨j, List.mem_cons_of_mem i hj, rest⟩
  exact hall is (pIL + 1) (fun _ hi => hi) hv

theorem target_node {i : RawInstr} (hi : i ∈ is) {o : ℕ} (ho : o ∈ i.targets) :
    ∃ v ∈ importedNodes (targetOf is code.size) (pIL + 1) is, HasTarget v.m_opcode
      ∧ v.m_pTarget = targetOf is code.size o := by
  have hall : ∀ opcode < ceeCount, opCtrl opcode = .ctrlBranch
      ∨ opCtrl opcode = .ctrlCondBranch ∧ opcode ≠ ceeSwitch → HasTarget opcode := by
    decide +kernel
  obtain ⟨pre, post, his⟩ := List.append_of_mem hi
  have hnodes : ∀ v, (v = instrNode (targetOf is code.size) (addrBehindAll (pIL + 1) pre) i
      ∨ v ∈ i.tableNodes (targetOf is code.size) (addrBehindAll (pIL + 1) pre)) →
      v ∈ importedNodes (targetOf is code.size) (pIL + 1) is := by
    intro v hv
    rw [his, importedNodes_append, importedNodes, ← his]
    rcases hv with rfl | hv
    · simp
    · simp [hv]
  have hbranch : HasTarget i.opcode → o = i.argWord →
      ∃ v ∈ importedNodes (targetOf is code.size) (pIL + 1) is, HasTarget v.m_opcode
        ∧ v.m_pTarget = targetOf is code.size o := by
    rintro hhas rfl
    refine ⟨_, hnodes _ (Or.inl rfl), ?_, instrNode_target hhas⟩
    rw [instrNode_opcode]
    exact hhas
  have hlt := h.opcode_lt hi
  unfold RawInstr.targets at ho
  split at ho
  · rename_i hctrl
    exact hbranch (hall i.opcode hlt (Or.inl hctrl)) (List.mem_singleton.mp ho)
  · rename_i hctrl
    by_cases hswitch : i.opcode = ceeSwitch
    · rw [if_pos hswitch] at ho
      have htable : ∀ (targets : List ℕ) (a o' : ℕ), o ∈ targets →
          ∃ v ∈ tableNodes (targetOf is code.size) a o' targets, HasTarget v.m_opcode
            ∧ v.m_pTarget = targetOf is code.size o := by
        intro targets
        induction targets with
        | nil => exact fun a o' hmem => absurd hmem List.not_mem_nil
        | cons target targets ih =>
            intro a o' hmem
            rcases List.mem_cons.mp hmem with rfl | hmem
            · have hslot : HasTarget ceeSwitchArg := by decide
              exact ⟨_, List.mem_cons_self, hslot, rfl⟩
            · obtain ⟨v, hv, hrest⟩ := ih (a + 1) (o' + 4) hmem
              exact ⟨v, List.mem_cons_of_mem _ hv, hrest⟩
      obtain ⟨v, hv, hrest⟩ := htable _ _ _ ho
      exact ⟨v, hnodes v (Or.inr hv), hrest⟩
    · rw [if_neg hswitch] at ho
      exact hbranch (hall i.opcode hlt (Or.inr ⟨hctrl, hswitch⟩)) (List.mem_singleton.mp ho)
  · exact absurd ho List.not_mem_nil

/-- The node behind an instruction is where its end offset leads. -/
theorem headAddr_nodes {pre post : List RawInstr} {i : RawInstr} (his : is = pre ++ i :: post)
    (t : ℕ → ℕ) : headAddr ILInstr.addr pIL
        (importedNodes t (addrBehind (addrBehindAll (pIL + 1) pre) i) post)
      = targetOf is code.size i.next := by
  have hcons := h.consecutive
  rw [his] at hcons
  obtain ⟨_, -, -, hrest⟩ := hcons.split
  cases post with
  | nil =>
      have hend : i.next = code.size := hrest
      rw [hend, targetOf, if_pos rfl]
      rfl
  | cons k post =>
      have his' : is = (pre ++ [i]) ++ k :: post := by rw [his]; simp
      rw [← hrest.1, h.targetOf_split his', importedNodes, headAddr, instrNode_addr, addrBehindAll,
        addrBehindAll, List.foldl_append]
      rfl

end Decoded

/-- The list of a body that `ImportIL` accepts. -/
theorem importIL_accounted {code : IlCode} {s : ILRewriter}
    (h : ILRewriter.new.importIL code = .ok s) : ∃ is, instructions code = .ok is
      ∧ Decoded code is ∧ s.m_CodeSize = code.size
      ∧ s.getInstrFromOffset = targetOf is code.size
      ∧ s.countOffsets.Linked
      ∧ s.countOffsets.m_IL = importedNodes (targetOf is code.size) (pIL + 1) is := by
  obtain ⟨is, hdecode, hcons, hdec, hlinked, hsize, hlookup, hIL⟩ := importIL_spec rfl rfl h
  refine ⟨is, hdecode, ⟨hcons, fun hi => hdec _ hi⟩, hsize, funext hlookup,
    hlinked.of_addr rfl (countOffsetsFrom_map_addr _ 0), ?_⟩
  show countOffsetsFrom 0 s.m_IL = _
  rw [hIL]
  exact countOffsetsFrom_nodesFrom hcons (fun i hi => (hdec i hi).opcode_lt) _

namespace ValidBody

variable {body : MethodBody} {is : List RawInstr} (h : ValidBody body is)

include h

theorem decoded : Decoded body.code is := decoded_of_decodeAll h.decodes

/-- A `tail.` with its call and its `ret`. -/
theorem tail_split {pre post : List RawInstr} {p : RawInstr} (his : is = pre ++ p :: post)
    (htail : p.opcode = ceeTailcall) : ∃ c r rest, post = c :: r :: rest
      ∧ (c.opcode = ceeCall ∨ c.opcode = ceeCalli ∨ c.opcode = ceeCallvirt)
      ∧ r.opcode = ceeRet := by
  obtain ⟨c, hc, hnext, hcall, r, hr, hnext', hret⟩ := h.tails p (by rw [his]; simp) htail
  obtain ⟨rest, rfl⟩ := h.decoded.next_eq his hc hnext
  have his' : is = (pre ++ [p]) ++ c :: rest := by rw [his]; simp
  obtain ⟨rest', rfl⟩ := h.decoded.next_eq his' hr hnext'
  exact ⟨c, r, rest', rfl, hcall, hret⟩

end ValidBody

/-- An imported clause, whose boundaries are resolved. -/
def clauseOf (t prevOf : ℕ → ℕ) (eh : EhInfo) : EHClause where
  m_Flags := eh.flags
  m_pTryBegin := t eh.tryOffset
  m_pTryEnd := t ((eh.tryOffset + eh.tryLength) % 2 ^ 32)
  m_pHandlerBegin := t eh.handlerOffset
  m_pHandlerEnd := prevOf (t ((eh.handlerOffset + eh.handlerLength) % 2 ^ 32))
  m_ClassTokenOrFilter :=
    if isFilterFlags eh.flags then t eh.classTokenOrFilterOffset else eh.classTokenOrFilterOffset

theorem importEH_eq {s : ILRewriter} {t : ℕ → ℕ} (ht : ∀ o, s.getInstrFromOffset o = t o)
    (eh : List EhInfo)
    (hend : ∀ c ∈ eh, t ((c.handlerOffset + c.handlerLength) % 2 ^ 32) ≠ nullPtr) :
    s.importEH eh = .ok { s with m_pEH := eh.map (clauseOf t s.m_pPrev) } := by
  have hclauses : eh.mapM s.importClause = .ok (eh.map (clauseOf t s.m_pPrev)) := by
    induction eh with
    | nil => rfl
    | cons c eh ih =>
        have hclause : s.importClause c = .ok (clauseOf t s.m_pPrev c) := by
          rw [ILRewriter.importClause]
          simp only [ht]
          exact if_neg (hend c List.mem_cons_self)
        rw [List.mapM_cons, hclause, ih fun d hd => hend d (List.mem_cons_of_mem c hd)]
        rfl
  rw [ILRewriter.importEH, hclauses]
  rfl

/-- The list of an imported and counted body. -/
structure ImportedFrom (body : MethodBody) (is : List RawInstr) (s : ILRewriter) : Prop where
  linked : s.Linked
  list_eq : s.m_IL
    = importedNodes (targetOf is body.code.size) (pIL + 1) is
  clauses_eq : s.m_pEH = body.eh.map (clauseOf (targetOf is body.code.size) s.m_pPrev)

namespace ValidBody

variable {body : MethodBody} {is : List RawInstr} (h : ValidBody body is)

include h

theorem targetOf_ne_null {o : ℕ} (ho : IsStart is o ∨ o = body.code.size) :
    targetOf is body.code.size o ≠ nullPtr := by
  have hpos : nullPtr < pIL := by decide
  rcases ho with ho | rfl
  · have := (h.decoded.targetOf_start ho).2
    omega
  · rw [targetOf, if_pos rfl]
    omega

/-- **Valid bodies are imported.** -/
theorem imported : ∃ s, ILRewriter.importBody body = .ok s
    ∧ ImportedFrom body is s.countOffsets := by
  obtain ⟨s₀, hs₀⟩ : ∃ s₀, s₀ = { ILRewriter.new with
    m_tkLocalVarSig := body.localVarSigTok
    m_maxStack := body.maxStack
    m_flags := ILRewriter.initLocalsFlag body.flags } := ⟨_, rfl⟩
  obtain ⟨s₁, hs₁⟩ : ∃ s₁, s₀.importIL body.code = .ok s₁ := by
    rw [ILRewriter.importIL_eq, h.decodes]
    exact ⟨_, rfl⟩
  have hfresh : s₀.fresh = pIL + 1 := by rw [hs₀]; rfl
  have hIL : s₀.m_IL = [] := by rw [hs₀]; rfl
  obtain ⟨is', hdecode, -, -, hlinked, -, hlookup, hnodes⟩ := importIL_spec hfresh hIL hs₁
  obtain rfl : is = is' := Except.ok.inj (h.decodes.symm.trans hdecode)
  have heh := importEH_eq hlookup body.eh fun c hc =>
    h.targetOf_ne_null (h.boundaries c hc _ (by simp [EhInfo.boundaries]))
  refine ⟨{ s₁ with m_pEH := body.eh.map (clauseOf (targetOf is body.code.size) s₁.m_pPrev) },
    ?_, ?_, ?_, ?_⟩
  · rw [ILRewriter.importBody, ← hs₀]
    show (s₀.importIL body.code >>= _) = _
    rw [hs₁]
    exact heh
  · exact hlinked.of_addr rfl (countOffsetsFrom_map_addr _ 0)
  · show countOffsetsFrom 0 s₁.m_IL = _
    rw [hnodes]
    exact countOffsetsFrom_nodesFrom h.consecutive (fun i hi => h.decoded.opcode_lt hi) _
  · refine congrArg (fun prevOf => body.eh.map (clauseOf (targetOf is body.code.size) prevOf)) ?_
    funext p
    exact prevAddr_congr (countOffsetsFrom_map_addr s₁.m_IL 0).symm

theorem nonempty : is ≠ [] := by
  rintro rfl
  have hcons : 0 = body.code.size := h.consecutive
  exact h.inside (hcons ▸ Reachable.entry List.mem_cons_self)

/-- A handler starts at an instruction. -/
theorem handler_isStart {eh : EhInfo} (heh : eh ∈ body.eh) : IsStart is eh.handlerOffset := by
  refine h.isStart_of_reachable (Reachable.entry (List.mem_cons_of_mem _ ?_))
  exact List.mem_flatMap.mpr ⟨eh, heh, List.mem_cons_self⟩

/-- **The list of a valid body can be rewritten.** -/
theorem rewritable {s : ILRewriter} (hs : ImportedFrom body is s) : Rewritable s := by
  have htails : TailCalls s.m_IL := by
    refine TailCalls.of_split fun pre w post hsplit htail => ?_
    rw [hs.list_eq] at hsplit
    obtain ⟨is₁, i, is₂, his, -, rfl, rfl⟩ := importedNodes_split hsplit (by rw [htail]; decide)
    rw [instrNode_opcode] at htail
    obtain ⟨c, r, rest, rfl, hcall, hret⟩ := h.tail_split his htail
    have hc : c.opcode ≠ ceeSwitch := by rcases hcall with hc | hc | hc <;> rw [hc] <;> decide
    rw [h.decoded.tableNodes_eq_nil (by rw [his]; simp) (by rw [htail]; decide), List.nil_append,
      importedNodes, h.decoded.tableNodes_eq_nil (by rw [his]; simp) hc, List.nil_append, importedNodes]
    refine ⟨_, _, _, rfl, ?_, ?_⟩
    · rw [instrNode_opcode]
      exact hcall
    · rw [instrNode_opcode]
      exact hret
  refine ⟨hs.linked, ?_, ?_, htails, ?_, ?_, ?_, ?_⟩
  · obtain ⟨i, rest, his⟩ := List.exists_cons_of_ne_nil h.nonempty
    rw [hs.list_eq, his, importedNodes]
    exact List.cons_ne_nil _ _
  · rw [hs.list_eq]
    exact importedNodes_tables (fun i hi => h.decoded.importable hi)
      (fun i hi => (h.decodedAt hi).slots_length) (fun i hi => h.decoded.operand_lt hi) _
  · intro w hw hswitch
    rw [hs.list_eq] at hw
    obtain ⟨pre, post, hsplit⟩ := List.append_of_mem hw
    obtain ⟨is₁, i, is₂, his, -, rfl, -⟩ := importedNodes_split hsplit (by rw [hswitch]; decide)
    rw [instrNode_opcode] at hswitch
    have hi : i ∈ is := by rw [his]; simp
    have hslots := (h.decodedAt hi).slots_length
    rw [if_pos hswitch] at hslots
    have hlt := h.decoded.slots_lt hi
    rw [ILInstr.m_Arg32, instrNode_arg (by rw [hswitch]; decide)]
    omega
  · intro v hv hhas
    rw [hs.list_eq] at hv ⊢
    obtain ⟨i, hi, o, ho, htarget⟩ := h.decoded.node_target hv hhas
    have hstart := h.targets i hi o ho
    refine ⟨?_, ?_⟩
    · rw [htarget]
      rcases hstart with hstart | hend
      · exact Or.inr (h.decoded.targetOf_mem hstart _)
      · rw [hend]
        exact Or.inl (if_pos rfl)
    · rintro ⟨pre, w, c, post, hsplit, htail, hc⟩
      obtain ⟨is₁, p, is₂, his, -, rfl, hpost⟩ :=
        importedNodes_split hsplit (by rw [htail]; decide)
      rw [instrNode_opcode] at htail
      obtain ⟨k, r, rest, rfl, -, -⟩ := h.tail_split his htail
      have hk : k ∈ is := by rw [his]; simp
      rw [h.decoded.tableNodes_eq_nil (by rw [his]; simp) (by rw [htail]; decide), List.nil_append,
        importedNodes] at hpost
      obtain ⟨rfl, -⟩ := List.cons.inj hpost
      -- the target is the offset of the call
      have hnext : k.offset = p.next := by
        have hcons := h.consecutive
        rw [his] at hcons
        obtain ⟨_, -, -, hrest⟩ := hcons.split
        exact hrest.1
      have haddr : targetOf is body.code.size k.offset
          = addrBehind (addrBehindAll (pIL + 1) is₁) p := by
        have his' : is = (is₁ ++ [p]) ++ k :: r :: rest := by rw [his]; simp
        rw [h.decoded.targetOf_split his', addrBehindAll, List.foldl_append]
        rfl
      rw [instrNode_addr, htarget, ← haddr] at hc
      obtain rfl := h.decoded.targetOf_injective hstart ⟨k, hk, rfl⟩ hc.symm
      refine h.prefixes p (by rw [his]; simp) ?_ i hi (hnext ▸ ho)
      rw [htail]
      decide
  · intro c hc
    rw [hs.clauses_eq] at hc
    obtain ⟨eh, heh, rfl⟩ := List.mem_map.mp hc
    rw [hs.list_eq]
    exact h.decoded.targetOf_mem (h.handler_isStart heh) _
  · rw [hs.list_eq]
    exact (importedNodes_offsets_pairwise h.consecutive _).imp fun hlt => ne_of_lt hlt

end ValidBody

end TestExecutor
