import TestExecutor.Rewriter.ILInstr

/-!
# Importing a method body

`ILRewriter::ImportIL`, `ImportEH` and `Import`.

* `decodeInstr` — one round of the decoding loop, up to the operand and the switch table;
* `importInstr` — the nodes that the round appends;
* `importIL` — the loop, then the resolution of branch targets;
* `importEH`, `importBody` — the exception clauses, and everything together;
* `decodeAll`, `importLoop_eq` — the loop as a list of instruction records, and the nodes as a
  function of that list;
* `decodeAll_consecutive` — the records follow one another from the first byte to the last.
-/

namespace TestExecutor

open TestExecutor.Library

/-! ### One instruction -/

/-- The slots of a switch table; every one must fit. -/
def decodeSlots (code : IlCode) : ℕ → ℕ → Except RewriteError (List ℕ)
  | 0, _ => .ok []
  | n + 1, offset =>
      if offset + 4 > code.size then .error .corEInvalidProgram
      else do
        let slots ← decodeSlots code n (offset + 4)
        pure (code.word offset 4 :: slots)

/-- The opcode at `startOffset`: a byte, or the lead byte and another one. -/
def decodeOpcode (code : IlCode) (startOffset : ℕ) : Except RewriteError ℕ :=
  let opcode := code.word startOffset 1
  if opcode = ceePrefix1 then
    if startOffset + 1 ≥ code.size then .error .corEInvalidProgram
    else .ok (0x100 + code.word (startOffset + 1) 1)
  else .ok opcode

/-- One round of the decoding loop. -/
def decodeInstr (code : IlCode) (startOffset : ℕ) : Except RewriteError RawInstr := do
  let opcode ← decodeOpcode code startOffset
  let offset := startOffset + opcodeSize opcode
  -- prefix2 to prefix7 are not supported
  if ceePrefix7 ≤ opcode ∧ opcode ≤ ceePrefix2 then .error .corEInvalidProgram
  else if opcode ≥ ceeCount then .error .corEInvalidProgram
  else
    let flags := opCodeFlags opcode
    if offset + flags.sizeMask > code.size then .error .corEInvalidProgram
    else if flags = .switch then
      if offset + 4 > code.size then .error .corEInvalidProgram
      else do
        let nTargets := code.word offset 4
        let slots ← decodeSlots code nTargets (offset + 4)
        pure ⟨startOffset, opcode, nTargets, slots⟩
    else pure ⟨startOffset, opcode, code.word offset flags.sizeMask, []⟩

/-! ### Its nodes -/

/-- A signed byte, modulo `2 ^ 32`. -/
def signExtend8 (b : ℕ) : ℕ := if b < 2 ^ 7 then b else b + (2 ^ 32 - 2 ^ 8)

namespace RawInstr

/-- The byte offset that the branch, or the slot with the word `raw`, refers to. -/
def argWord (i : RawInstr) : ℕ :=
  match opCodeFlags i.opcode with
  | .branch8 => (i.operandOffset + 1 + signExtend8 i.operand) % 2 ^ 32
  | .branch32 => (i.operandOffset + 4 + i.operand) % 2 ^ 32
  | _ => i.operand

/-- The byte offsets that the switch slots refer to, all relative to the end of the table. -/
def slotTargets (i : RawInstr) : List ℕ :=
  i.slots.map fun raw => (i.operandOffset + 4 + 4 * i.operand + raw) % 2 ^ 32

end RawInstr

namespace ILRewriter

/-- A new node in front of the sentinel. -/
def appendNode (s : ILRewriter) (opcode arg : ℕ) : ILRewriter :=
  let (pInstr, s) := s.newILInstr
  s.insertBefore pIL ⟨pInstr, opcode, 0, arg⟩

/-- The nodes of one instruction, the first of which is entered in the offset table. -/
def importInstr (s : ILRewriter) (i : RawInstr) : ILRewriter :=
  let pInstr := s.fresh
  let s := s.appendNode i.opcode i.argWord
  let s := { s with m_pOffsetToInstr := Function.update s.m_pOffsetToInstr i.offset pInstr }
  i.slotTargets.foldl (fun s target => s.appendNode ceeSwitchArg target) s

/-- The decoding loop: every round takes at least one byte, so `fuel` rounds are enough for the
`fuel` bytes behind `offset`. -/
def importLoop (code : IlCode) : ℕ → ℕ → ILRewriter → Except RewriteError ILRewriter
  | 0, _, s => .ok s
  | fuel + 1, offset, s =>
      if offset < code.size then do
        let i ← decodeInstr code offset
        importLoop code fuel i.next (s.importInstr i)
      else .ok s

/-- Replaces the byte offset in a branch or slot node by the address of the node there. -/
def resolveTarget (s : ILRewriter) (i : ILInstr) : ILInstr :=
  if (opCodeFlags i.m_opcode).branchTarget then
    { i with m_Arg64 := s.getInstrFromOffset i.m_Arg32 }
  else i

def resolveTargets (s : ILRewriter) : ILRewriter := { s with m_IL := s.m_IL.map s.resolveTarget }

/-- `ImportIL`.  Without a branch node the resolution changes nothing, so it need not be guarded. -/
def importIL (s : ILRewriter) (code : IlCode) : Except RewriteError ILRewriter := do
  let s := { s with
    m_CodeSize := code.size
    m_pOffsetToInstr := Function.update (fun _ => nullPtr) code.size pIL }
  let s ← importLoop code code.size 0 s
  pure s.resolveTargets

def importClause (s : ILRewriter) (ehInfo : EhInfo) : Except RewriteError EHClause :=
  let handlerEnd :=
    s.getInstrFromOffset ((ehInfo.handlerOffset + ehInfo.handlerLength) % 2 ^ 32)
  if handlerEnd = nullPtr then .error .nullDereference
  else .ok {
    m_Flags := ehInfo.flags
    m_pTryBegin := s.getInstrFromOffset ehInfo.tryOffset
    m_pTryEnd := s.getInstrFromOffset ((ehInfo.tryOffset + ehInfo.tryLength) % 2 ^ 32)
    m_pHandlerBegin := s.getInstrFromOffset ehInfo.handlerOffset
    m_pHandlerEnd := s.m_pPrev handlerEnd
    m_ClassTokenOrFilter :=
      if isFilterFlags ehInfo.flags then s.getInstrFromOffset ehInfo.classTokenOrFilterOffset
      else ehInfo.classTokenOrFilterOffset }

def importEH (s : ILRewriter) (eh : List EhInfo) : Except RewriteError ILRewriter := do
  let clauses ← eh.mapM s.importClause
  pure { s with m_pEH := clauses }

/-- `CorILMethod_InitLocals`, the only header flag that is kept. -/
def initLocalsFlag (flags : ℕ) : ℕ := if flags / 16 % 2 = 1 then 16 else 0

/-- `Import`. -/
def importBody (body : MethodBody) : Except RewriteError ILRewriter := do
  let s := { ILRewriter.new with
    m_tkLocalVarSig := body.localVarSigTok
    m_maxStack := body.maxStack
    m_flags := initLocalsFlag body.flags }
  let s ← s.importIL body.code
  s.importEH body.eh

end ILRewriter

/-! ### What one round decodes -/

variable {code : IlCode} {offset : ℕ}

theorem decodeSlots_spec {n : ℕ} {slots : List ℕ} (h : decodeSlots code n offset = .ok slots) :
    slots.length = n ∧ (0 < n → offset + 4 * n ≤ code.size)
      ∧ ∀ k (hk : k < slots.length), slots[k] = code.word (offset + 4 * k) 4 := by
  induction n generalizing offset slots with
  | zero =>
      obtain rfl : [] = slots := Except.ok.inj h
      simp
  | succ n ih =>
      rw [decodeSlots] at h
      split at h
      · cases h
      · rename_i hfits
        cases hrest : decodeSlots code n (offset + 4) with
        | error e => rw [hrest] at h; cases h
        | ok rest =>
            rw [hrest] at h
            obtain rfl : code.word offset 4 :: rest = slots := Except.ok.inj h
            obtain ⟨hlen, hbound, hword⟩ := ih hrest
            refine ⟨by simp [hlen], fun _ => ?_, ?_⟩
            · rcases Nat.eq_zero_or_pos n with rfl | hn
              · omega
              · have := hbound hn
                omega
            · rintro (_ | k) hk
              · rfl
              · rw [List.getElem_cons_succ, hword k (by simpa using hk)]
                congr 1
                ring

/-- The facts about a decoded instruction: all its bytes are in the body. -/
structure DecodedAt (code : IlCode) (offset : ℕ) (i : RawInstr) : Prop where
  offset_eq : i.offset = offset
  opcode_eq : decodeOpcode code offset = .ok i.opcode
  not_prefix : ¬(ceePrefix7 ≤ i.opcode ∧ i.opcode ≤ ceePrefix2)
  opcode_lt : i.opcode < ceeCount
  next_le : i.next ≤ code.size
  operand_eq : i.operand = code.word i.operandOffset (operandSize i.opcode)
  slots_length : i.slots.length = if i.opcode = ceeSwitch then i.operand else 0
  slots_eq : ∀ k (hk : k < i.slots.length),
    i.slots[k] = code.word (i.operandOffset + 4 + 4 * k) 4

theorem operandSize_switch : operandSize ceeSwitch = 4 := by decide

theorem operandSize_of_ne_switch {opcode : ℕ} (h : opCodeFlags opcode ≠ .switch) :
    operandSize opcode = (opCodeFlags opcode).sizeMask := by
  unfold operandSize
  split
  · rename_i hflags
    exact absurd hflags h
  · rfl

/-- What a round of the decoding loop decodes. -/
theorem decodeInstr_spec {i : RawInstr} (h : decodeInstr code offset = .ok i) :
    DecodedAt code offset i := by
  rw [decodeInstr] at h
  cases hop : decodeOpcode code offset with
  | error e => rw [hop] at h; cases h
  | ok opcode =>
      rw [hop] at h
      change (if ceePrefix7 ≤ opcode ∧ opcode ≤ ceePrefix2 then _ else _) = _ at h
      split at h
      · cases h
      · rename_i hpre
        split at h
        · cases h
        · rename_i hcount
          dsimp only at h
          split at h
          · cases h
          · rename_i hfits
            split at h
            · rename_i hflags
              have hswitch : opcode = ceeSwitch := opCodeFlags_eq_switch_iff.mp hflags
              split at h
              · cases h
              · rename_i hcountFits
                cases hslots : decodeSlots code
                    (code.word (offset + opcodeSize opcode) 4) (offset + opcodeSize opcode + 4) with
                | error e => rw [hslots] at h; cases h
                | ok slots =>
                    rw [hslots] at h
                    obtain rfl := (Except.ok.inj h).symm
                    obtain ⟨hlen, hbound, hword⟩ := decodeSlots_spec hslots
                    refine ⟨rfl, hop, hpre, not_le.mp hcount, ?_, ?_, ?_, hword⟩
                    · show offset + opcodeSize opcode + operandSize opcode + 4 * slots.length
                        ≤ code.size
                      rw [hswitch, operandSize_switch, hlen, ← hswitch]
                      rcases Nat.eq_zero_or_pos (code.word (offset + opcodeSize opcode) 4) with h0 | hp
                      · omega
                      · have := hbound hp
                        omega
                    · show _ = code.word (offset + opcodeSize opcode) (operandSize opcode)
                      rw [hswitch, operandSize_switch]
                    · rw [if_pos hswitch]
                      exact hlen
            · rename_i hflags
              obtain rfl := (Except.ok.inj h).symm
              have hsize := operandSize_of_ne_switch hflags
              refine ⟨rfl, hop, hpre, not_le.mp hcount, ?_, ?_, ?_, by simp⟩
              · show offset + opcodeSize opcode + operandSize opcode + 4 * 0 ≤ code.size
                omega
              · show _ = code.word (offset + opcodeSize opcode) (operandSize opcode)
                rw [hsize]
              · rw [if_neg fun hswitch => hflags (opCodeFlags_eq_switch_iff.mpr hswitch)]
                rfl

/-! ### The loop as a list of records -/

/-- The decoding loop without its nodes. -/
def decodeAll (code : IlCode) : ℕ → ℕ → Except RewriteError (List RawInstr)
  | 0, _ => .ok []
  | fuel + 1, offset =>
      if offset < code.size then do
        let i ← decodeInstr code offset
        let is ← decodeAll code fuel i.next
        pure (i :: is)
      else .ok []

theorem importLoop_eq (fuel : ℕ) : ∀ (offset : ℕ) (s : ILRewriter),
    ILRewriter.importLoop code fuel offset s
      = (decodeAll code fuel offset).map fun is => is.foldl ILRewriter.importInstr s := by
  induction fuel with
  | zero => intro offset s; rfl
  | succ fuel ih =>
      intro offset s
      rw [ILRewriter.importLoop, decodeAll]
      split
      · cases hi : decodeInstr code offset with
        | error e => rfl
        | ok i =>
            show ILRewriter.importLoop code fuel i.next (s.importInstr i) = _
            rw [ih]
            cases hrest : decodeAll code fuel i.next with
            | error e => simp [hrest, bind, Except.bind, Except.map]
            | ok is => simp [hrest, bind, Except.bind, Except.map, pure, Except.pure]
      · rfl

/-- The records follow one another up to the end of the body, and each is what a round decodes at
its offset. -/
theorem decodeAll_spec (fuel : ℕ) : ∀ (offset : ℕ) (is : List RawInstr),
    decodeAll code fuel offset = .ok is → offset ≤ code.size → code.size - offset ≤ fuel →
      Consecutive offset is code.size ∧ ∀ i ∈ is, DecodedAt code i.offset i := by
  induction fuel with
  | zero =>
      intro offset is h hle hfuel
      obtain rfl : [] = is := Except.ok.inj h
      exact ⟨by unfold Consecutive; omega, by simp⟩
  | succ fuel ih =>
      intro offset is h hle hfuel
      rw [decodeAll] at h
      split at h
      · cases hi : decodeInstr code offset with
        | error e => rw [hi] at h; cases h
        | ok i =>
            have hdec := decodeInstr_spec hi
            have hlt := i.offset_lt_next
            have hoff := hdec.offset_eq
            have hnext := hdec.next_le
            rw [hi] at h
            cases hrest : decodeAll code fuel i.next with
            | error e =>
                change (do let is ← decodeAll code fuel i.next; pure (i :: is)) = _ at h
                rw [hrest] at h
                cases h
            | ok rest =>
                change (do let is ← decodeAll code fuel i.next; pure (i :: is)) = _ at h
                rw [hrest] at h
                obtain rfl : i :: rest = is := Except.ok.inj h
                obtain ⟨hcons, hall⟩ := ih i.next rest hrest hnext (by omega)
                refine ⟨⟨hoff, hcons⟩, ?_⟩
                intro j hj
                rcases List.mem_cons.mp hj with rfl | hj
                · rw [hoff]
                  exact hdec
                · exact hall j hj
      · obtain rfl : [] = is := Except.ok.inj h
        exact ⟨by unfold Consecutive; omega, by simp⟩

/-! ### The nodes as a function of the records -/

/-- The nodes of switch slots, from the address `a` on. -/
def slotNodes : ℕ → List ℕ → List ILInstr
  | _, [] => []
  | a, target :: targets => ⟨a, ceeSwitchArg, 0, target⟩ :: slotNodes (a + 1) targets

/-- The nodes of one instruction, before its targets are resolved. -/
def instrNodes (a : ℕ) (i : RawInstr) : List ILInstr :=
  ⟨a, i.opcode, 0, i.argWord⟩ :: slotNodes (a + 1) i.slotTargets

/-- The address behind the nodes of an instruction. -/
def addrBehind (a : ℕ) (i : RawInstr) : ℕ := a + 1 + i.slots.length

def nodesFrom : ℕ → List RawInstr → List ILInstr
  | _, [] => []
  | a, i :: is => instrNodes a i ++ nodesFrom (addrBehind a i) is

/-- The address of the instruction that starts at a byte offset. -/
def startAddr : ℕ → List RawInstr → ℕ → Option ℕ
  | _, [], _ => none
  | a, i :: is, o => if i.offset = o then some a else startAddr (addrBehind a i) is o

/-- The node that a byte offset of the body refers to. -/
def targetOf (is : List RawInstr) (size o : ℕ) : ℕ :=
  if o = size then pIL else (startAddr (pIL + 1) is o).getD nullPtr

theorem startAddr_eq_none {is : List RawInstr} {o : ℕ} (h : ∀ i ∈ is, i.offset ≠ o) (a : ℕ) :
    startAddr a is o = none := by
  induction is generalizing a with
  | nil => rfl
  | cons i is ih =>
      rw [startAddr, if_neg (h i List.mem_cons_self)]
      exact ih (fun j hj => h j (List.mem_cons_of_mem i hj)) _

/-- Only the instruction starts have an address. -/
theorem startAddr_isSome_iff {is : List RawInstr} {o a : ℕ} :
    (startAddr a is o).isSome ↔ ∃ i ∈ is, i.offset = o := by
  induction is generalizing a with
  | nil => simp [startAddr]
  | cons i is ih =>
      rw [startAddr]
      split
      · rename_i ho
        simp [ho]
      · rename_i ho
        rw [ih]
        simp [ho]

namespace ILRewriter

variable {s : ILRewriter}

theorem appendNode_linked (h : s.Linked) (opcode arg : ℕ) :
    (s.appendNode opcode arg).Linked
      ∧ (s.appendNode opcode arg).m_IL = s.m_IL ++ [⟨s.fresh, opcode, 0, arg⟩] := by
  have hIL : (s.appendNode opcode arg).m_IL = s.m_IL ++ [⟨s.fresh, opcode, 0, arg⟩] :=
    spliceBefore_of_notMem h.pIL_notMem
  refine ⟨⟨?_, ?_, ?_⟩, hIL⟩
  · rw [hIL, List.map_append, List.nodup_append]
    refine ⟨h.nodup, by simp, ?_⟩
    rintro a ha b hb rfl
    obtain rfl : a = s.fresh := by simpa using hb
    exact h.fresh_notMem ha
  · intro i hi
    rw [hIL, List.mem_append, List.mem_singleton] at hi
    show pIL < i.addr ∧ i.addr < s.fresh + 1
    rcases hi with hi | rfl
    · have := h.allocated i hi
      omega
    · have := h.sentinel_lt
      exact ⟨this, Nat.lt_succ_self _⟩
  · exact Nat.lt_succ_of_lt h.sentinel_lt

theorem foldl_appendNode (targets : List ℕ) : ∀ {s : ILRewriter}, s.Linked →
    (targets.foldl (fun s target => s.appendNode ceeSwitchArg target) s).Linked
      ∧ (targets.foldl (fun s target => s.appendNode ceeSwitchArg target) s).m_IL
        = s.m_IL ++ slotNodes s.fresh targets
      ∧ (targets.foldl (fun s target => s.appendNode ceeSwitchArg target) s).fresh
        = s.fresh + targets.length
      ∧ (targets.foldl (fun s target => s.appendNode ceeSwitchArg target) s).m_pOffsetToInstr
        = s.m_pOffsetToInstr
      ∧ (targets.foldl (fun s target => s.appendNode ceeSwitchArg target) s).m_CodeSize
        = s.m_CodeSize := by
  induction targets with
  | nil => intro s h; exact ⟨h, by simp [slotNodes], rfl, rfl, rfl⟩
  | cons target targets ih =>
      intro s h
      obtain ⟨hlinked, hIL⟩ := appendNode_linked h ceeSwitchArg target
      obtain ⟨h₁, h₂, h₃, h₄, h₅⟩ := ih hlinked
      refine ⟨h₁, ?_, ?_, h₄, h₅⟩
      · rw [List.foldl_cons, h₂, hIL, List.append_assoc]
        rfl
      · rw [List.foldl_cons, h₃, List.length_cons]
        show s.fresh + 1 + targets.length = s.fresh + (targets.length + 1)
        omega

/-- One instruction appends its nodes and enters its first one in the offset table. -/
theorem importInstr_spec (h : s.Linked) (i : RawInstr) :
    (s.importInstr i).Linked
      ∧ (s.importInstr i).m_IL = s.m_IL ++ instrNodes s.fresh i
      ∧ (s.importInstr i).fresh = addrBehind s.fresh i
      ∧ (s.importInstr i).m_pOffsetToInstr
        = Function.update s.m_pOffsetToInstr i.offset s.fresh
      ∧ (s.importInstr i).m_CodeSize = s.m_CodeSize := by
  obtain ⟨hlinked, hIL⟩ := appendNode_linked h i.opcode i.argWord
  have hentered : { s.appendNode i.opcode i.argWord with
      m_pOffsetToInstr := Function.update (s.appendNode i.opcode i.argWord).m_pOffsetToInstr
        i.offset s.fresh }.Linked := ⟨hlinked.nodup, hlinked.allocated, hlinked.sentinel_lt⟩
  obtain ⟨h₁, h₂, h₃, h₄, h₅⟩ := foldl_appendNode i.slotTargets hentered
  refine ⟨h₁, ?_, ?_, h₄, h₅⟩
  · refine h₂.trans ?_
    show (s.appendNode i.opcode i.argWord).m_IL ++ slotNodes (s.fresh + 1) i.slotTargets = _
    rw [hIL, List.append_assoc]
    rfl
  · refine h₃.trans ?_
    show s.fresh + 1 + i.slotTargets.length = _
    rw [RawInstr.slotTargets, List.length_map]
    rfl

theorem foldl_importInstr (is : List RawInstr) : ∀ {s : ILRewriter}, s.Linked →
    (is.map RawInstr.offset).Pairwise (· < ·) →
    (is.foldl importInstr s).Linked
      ∧ (is.foldl importInstr s).m_IL = s.m_IL ++ nodesFrom s.fresh is
      ∧ (∀ o, (is.foldl importInstr s).m_pOffsetToInstr o
        = (startAddr s.fresh is o).getD (s.m_pOffsetToInstr o))
      ∧ (is.foldl importInstr s).m_CodeSize = s.m_CodeSize := by
  induction is with
  | nil => intro s h _; exact ⟨h, by simp [nodesFrom], fun o => rfl, rfl⟩
  | cons i is ih =>
      intro s h hsorted
      obtain ⟨hhead, htail⟩ := List.pairwise_cons.mp hsorted
      obtain ⟨hlinked, hIL, hfresh, htable, hsize⟩ := importInstr_spec h i
      obtain ⟨h₁, h₂, h₃, h₄⟩ := ih hlinked htail
      rw [List.foldl_cons]
      refine ⟨h₁, ?_, ?_, h₄.trans hsize⟩
      · rw [h₂, hIL, hfresh, List.append_assoc, nodesFrom]
      · intro o
        rw [h₃, htable, hfresh, startAddr]
        by_cases ho : i.offset = o
        · subst ho
          have hlater : ∀ j ∈ is, j.offset ≠ i.offset := fun j hj =>
            (ne_of_lt (hhead j.offset (List.mem_map_of_mem hj))).symm
          rw [startAddr_eq_none hlater, if_pos rfl]
          simp
        · rw [if_neg ho, Function.update_of_ne (Ne.symm ho)]

end ILRewriter

/-- The node with its byte offset replaced by what it refers to. -/
def resolveNode (target : ℕ → ℕ) (i : ILInstr) : ILInstr :=
  if (opCodeFlags i.m_opcode).branchTarget then { i with m_Arg64 := target i.m_Arg32 } else i

@[simp] theorem resolveNode_addr (target : ℕ → ℕ) (i : ILInstr) :
    (resolveNode target i).addr = i.addr := by unfold resolveNode; split <;> rfl

@[simp] theorem resolveNode_m_opcode (target : ℕ → ℕ) (i : ILInstr) :
    (resolveNode target i).m_opcode = i.m_opcode := by unfold resolveNode; split <;> rfl

/-- **What an import yields**: the nodes of the decoded instructions, with the targets resolved
through the table of instruction starts. -/
theorem importIL_spec {s₀ s : ILRewriter} {code : IlCode} (hfresh : s₀.fresh = pIL + 1)
    (hIL : s₀.m_IL = []) (h : s₀.importIL code = .ok s) :
    ∃ is, decodeAll code code.size 0 = .ok is
      ∧ Consecutive 0 is code.size ∧ (∀ i ∈ is, DecodedAt code i.offset i)
      ∧ s.Linked ∧ s.m_CodeSize = code.size
      ∧ (∀ o, s.getInstrFromOffset o = targetOf is code.size o)
      ∧ s.m_IL = (nodesFrom (pIL + 1) is).map (resolveNode (targetOf is code.size)) := by
  rw [ILRewriter.importIL, importLoop_eq] at h
  cases hdec : decodeAll code code.size 0 with
  | error e => rw [hdec] at h; cases h
  | ok is =>
      rw [hdec] at h
      obtain ⟨hcons, hall⟩ := decodeAll_spec code.size 0 is hdec (Nat.zero_le _) (by omega)
      have hstart : { s₀ with
          m_CodeSize := code.size
          m_pOffsetToInstr := Function.update (fun _ => nullPtr) code.size pIL }.Linked := by
        refine ⟨by simp [hIL], by simp [hIL], ?_⟩
        show pIL < s₀.fresh
        omega
      obtain ⟨h₁, h₂, h₃, h₄⟩ := ILRewriter.foldl_importInstr is hstart hcons.offsets_pairwise
      obtain rfl := (Except.ok.inj h).symm
      have hlookup : ∀ o, (is.foldl ILRewriter.importInstr { s₀ with
          m_CodeSize := code.size
          m_pOffsetToInstr := Function.update (fun _ => nullPtr) code.size
            pIL }).getInstrFromOffset o = targetOf is code.size o := by
        intro o
        rw [ILRewriter.getInstrFromOffset, h₃, h₄, hfresh, targetOf]
        dsimp only
        cases hs : startAddr (pIL + 1) is o with
        | none =>
            simp only [Option.getD_none]
            by_cases ho : o = code.size
            · rw [if_pos (by omega), if_pos ho, ho, Function.update_self]
            · rw [if_neg ho, Function.update_of_ne ho, ite_self]
        | some a =>
            obtain ⟨i, hi, rfl⟩ := startAddr_isSome_iff.mp (by rw [hs]; rfl)
            have hnext := (hcons.bounds hi).2
            have hlt := i.offset_lt_next
            rw [if_pos (by omega), if_neg (by omega)]
            rfl
      have hmap : ∀ l : List ILInstr, l.map (ILRewriter.resolveTarget _)
          = l.map (resolveNode (targetOf is code.size)) := fun l =>
        List.map_congr_left fun i _ => by rw [ILRewriter.resolveTarget, hlookup]; rfl
      refine ⟨is, rfl, hcons, hall, ⟨?_, ?_, h₁.sentinel_lt⟩, h₄, hlookup, ?_⟩
      · show ((List.map _ _).map ILInstr.addr).Nodup
        rw [hmap, List.map_map]
        have haddr : ILInstr.addr ∘ resolveNode (targetOf is code.size) = ILInstr.addr :=
          funext fun i => resolveNode_addr _ i
        rw [haddr]
        exact h₁.nodup
      · intro i hi
        change i ∈ List.map _ _ at hi
        rw [hmap] at hi
        obtain ⟨j, hj, rfl⟩ := List.mem_map.mp hi
        rw [resolveNode_addr]
        exact h₁.allocated j hj
      · show List.map _ _ = _
        rw [hmap, h₂, hIL, List.nil_append, hfresh]

end TestExecutor
