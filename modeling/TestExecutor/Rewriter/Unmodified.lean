import TestExecutor.Rewriter.Annotation
import TestExecutor.Rewriter.DanglingTargets
import TestExecutor.Rewriter.ExportRoundTrip

/-!
# Exporting an unmodified body

`Import` directly followed by `Export`, byte by byte.

* `IlCode.slice` — consecutive bytes, and what the decoded words say about them;
* `encodeFrom_nodesFrom` — the imported nodes are encoded as the bytes they were decoded from, and
  no short branch is far;
* `layoutOffset_targetOf` — the nodes are laid out where their instructions were;
* `ExportsUnmodified`, `exportsUnmodified_iff` — the body comes back, unless the size of the output
  buffer wraps around below it;
* `nopBody` — a body that is too large.
-/

namespace TestExecutor

open TestExecutor.Library ILRewriter

/-! ### Bytes of decoded words -/

namespace IlCode

variable {code : IlCode} {o : ℕ}

/-- `n` bytes from `o` on. -/
def slice (code : IlCode) (o n : ℕ) : List UInt8 := (code.bytes.drop o).take n

theorem slice_zero (code : IlCode) (o : ℕ) : code.slice o 0 = [] := List.take_zero

theorem slice_all (code : IlCode) : code.slice 0 code.size = code.bytes := List.take_length

theorem slice_append (code : IlCode) (o m n : ℕ) :
    code.slice o m ++ code.slice (o + m) n = code.slice o (m + n) := by
  rw [slice, slice, slice, List.take_add, List.drop_drop]

theorem slice_length {n : ℕ} (h : o + n ≤ code.size) : (code.slice o n).length = n := by
  unfold size at h
  rw [slice, List.length_take, List.length_drop]
  omega

/-- Writing a word back. -/
theorem leBytes_word {w : ℕ} (h : o + w ≤ code.size) : leBytes w (code.word o w) = code.slice o w := by
  have hback := leBytes_leNat (code.slice o w)
  rw [slice_length h] at hback
  exact hback

theorem leBytes_words {slots : List ℕ} (h : o + 4 * slots.length ≤ code.size)
    (hslots : ∀ k (hk : k < slots.length), slots[k] = code.word (o + 4 * k) 4) :
    slots.flatMap (leBytes 4) = code.slice o (4 * slots.length) := by
  induction slots generalizing o with
  | nil => exact (code.slice_zero o).symm
  | cons v slots ih =>
      rw [List.length_cons] at h
      have hv : v = code.word o 4 := hslots 0 (Nat.succ_pos _)
      have hrest := ih (o := o + 4) (by omega) fun k hk => by
        rw [show o + 4 + 4 * k = o + 4 * (k + 1) by omega]
        exact hslots (k + 1) (Nat.succ_lt_succ hk)
      rw [List.flatMap_cons, hrest, hv, leBytes_word (by omega), slice_append, List.length_cons]
      congr 1
      omega

/-- Writing an opcode back. -/
theorem opcodeBytes_decoded {opcode : ℕ} (h : decodeOpcode code o = .ok opcode)
    (hlt : opcode < ceeCount) (hsize : o + opcodeSize opcode ≤ code.size) :
    opcodeBytes opcode = code.slice o (opcodeSize opcode) := by
  have hbyte := code.word_one_lt o
  rw [decodeOpcode] at h
  split at h
  · rename_i hlead
    split at h
    · cases h
    · rename_i hfits
      have hop : 0x100 + code.word (o + 1) 1 = opcode := Except.ok.inj h
      have hword : leBytes 1 opcode = leBytes 1 (code.word (o + 1) 1) := by
        rw [← hop, ← leBytes_mod 1 (0x100 + _), ← leBytes_mod 1 (code.word (o + 1) 1)]
        congr 1
        omega
      have htwo : opcodeSize opcode = 1 + 1 := by
        rw [opcodeSize, if_pos (by omega)]
      rw [opcodeBytes_large (by omega) hlt, hword, ← hlead, leBytes_word (by omega),
        leBytes_word (by omega), slice_append, htwo]
  · have hop : code.word o 1 = opcode := Except.ok.inj h
    have hone : opcodeSize opcode = 1 := by
      rw [opcodeSize, if_neg (by omega)]
    rw [opcodeBytes_small (by omega), hone, ← hop, leBytes_word (by omega)]

end IlCode

/-! ### The imported nodes, encoded -/

theorem encodeFrom_countOffsetsFrom (pos : ℕ → ℕ) (il : List ILInstr) (o switchBase o' : ℕ) :
    encodeFrom pos o switchBase (countOffsetsFrom o' il) = encodeFrom pos o switchBase il := by
  induction il generalizing o switchBase o' with
  | nil => rfl
  | cons i is ih =>
      rw [countOffsetsFrom, encodeFrom, encodeFrom, ih]
      rfl

theorem farFrom_countOffsetsFrom (pos : ℕ → ℕ) (il : List ILInstr) (o o' : ℕ) :
    farFrom pos o (countOffsetsFrom o' il) = farFrom pos o il := by
  induction il generalizing o o' with
  | nil => rfl
  | cons i is ih =>
      rw [countOffsetsFrom, farFrom, farFrom, ih]
      rfl

section Encoded

variable {code : IlCode} {t pos : ℕ → ℕ} {i : RawInstr}

theorem instrNode_byteSize (hlt : i.opcode < ceeCount) (a : ℕ) :
    (instrNode t a i).byteSize = opcodeSize i.opcode + operandSize i.opcode := by
  rw [ILInstr.byteSize, instrNode_opcode, if_pos hlt]

/-- The distance to a target is the one that was read. -/
theorem offsetDelta_add {base d target : ℕ} (hd : d < 2 ^ 32) (h : target = (base + d) % 2 ^ 32) :
    offsetDelta target base = d := by
  unfold offsetDelta
  omega

theorem signExtend8_lt {b : ℕ} (h : b < 2 ^ 8) : signExtend8 b < 2 ^ 32 := by
  unfold signExtend8
  split <;> omega

theorem fitsInt8_signExtend8 {b : ℕ} (h : b < 2 ^ 8) : fitsInt8 (signExtend8 b) = true := by
  unfold signExtend8 fitsInt8
  split <;> simp <;> omega

theorem leBytes_signExtend8 (b : ℕ) : leBytes 1 (signExtend8 b) = leBytes 1 b := by
  rw [← leBytes_mod 1 (signExtend8 b), ← leBytes_mod 1 b]
  congr 1
  unfold signExtend8
  split <;> omega

variable (hdec : DecodedAt code i.offset i)

include hdec

theorem operand_lt_pow : i.operand < 256 ^ operandSize i.opcode := by
  rw [hdec.operand_eq]
  exact code.word_lt _ _

/-- The distance that a decoded branch is exported with. -/
theorem branch_delta (hbranch : HasTarget i.opcode) (hpos : pos (t i.argWord) = i.argWord) (a : ℕ) :
    offsetDelta (pos (instrNode t a i).m_pTarget) (i.offset + (instrNode t a i).byteSize)
      = if opCodeFlags i.opcode = .branch8 then signExtend8 i.operand else i.operand := by
  have hlt := operand_lt_pow hdec
  rw [instrNode_target hbranch, hpos, instrNode_byteSize hdec.opcode_lt]
  rcases opCodeFlags_branchTarget_iff.mp hbranch with hflags | hflags
  · have hsize : operandSize i.opcode = 1 := by rw [operandSize, hflags]; rfl
    rw [hsize] at hlt
    rw [if_pos hflags, hsize]
    refine offsetDelta_add (signExtend8_lt (by omega)) ?_
    rw [RawInstr.argWord, hflags]
    show (i.offset + opcodeSize i.opcode + 1 + _) % _ = _
    rw [Nat.add_assoc i.offset]
  · have hsize : operandSize i.opcode = 4 := by rw [operandSize, hflags]; rfl
    rw [hsize] at hlt
    rw [if_neg (by rw [hflags]; decide), hsize]
    refine offsetDelta_add (by omega) ?_
    rw [RawInstr.argWord, hflags]
    show (i.offset + opcodeSize i.opcode + 4 + _) % _ = _
    rw [Nat.add_assoc i.offset]

/-- The operand that is exported is the one that was read. -/
theorem finalOperand_decoded (hpos : HasTarget i.opcode → pos (t i.argWord) = i.argWord)
    (switchBase a : ℕ) : finalOperand pos i.offset switchBase (instrNode t a i)
      = code.slice i.operandOffset (operandSize i.opcode) := by
  have hop := instrNode_opcode t a i
  have hlt := hdec.opcode_lt
  have hle := hdec.next_le
  have hne : (instrNode t a i).m_opcode ≠ ceeSwitchArg := by
    rw [hop]
    rintro heq
    rw [heq] at hlt
    exact absurd hlt (by decide)
  have hword : leBytes (operandSize i.opcode) i.operand
      = code.slice i.operandOffset (operandSize i.opcode) := by
    rw [hdec.operand_eq]
    refine IlCode.leBytes_word ?_
    unfold RawInstr.next at hle
    omega
  rw [finalOperand_eq hne, hop, ← hword]
  by_cases hbranch : HasTarget i.opcode
  · have hdelta := branch_delta hdec hbranch (hpos hbranch) a
    rcases opCodeFlags_branchTarget_iff.mp hbranch with hflags | hflags
    · rw [if_pos hflags] at hdelta
      have hsize : operandSize i.opcode = 1 := by rw [operandSize, hflags]; rfl
      rw [operandWord, hop, hflags, hsize]
      show leBytes 1 (offsetDelta _ _) = _
      rw [hdelta, leBytes_signExtend8]
    · rw [if_neg (by rw [hflags]; decide)] at hdelta
      rw [operandWord, hop, hflags]
      show leBytes _ (offsetDelta _ _) = _
      rw [hdelta]
  · have harg := instrNode_arg (t := t) (a := a) hbranch
    have hnot : opCodeFlags i.opcode ≠ .branch8 ∧ opCodeFlags i.opcode ≠ .branch32 :=
      not_or.mp fun h => hbranch (opCodeFlags_branchTarget_iff.mpr h)
    rw [operandWord, hop]
    cases hflags : opCodeFlags i.opcode with
    | branch8 => exact absurd hflags hnot.1
    | branch32 => exact absurd hflags hnot.2
    | _ => rw [← harg]

/-- Short branches reach. -/
theorem isFar_decoded (hpos : HasTarget i.opcode → pos (t i.argWord) = i.argWord) (a : ℕ) :
    isFar pos i.offset (instrNode t a i) = false := by
  rw [isFar, instrNode_opcode]
  by_cases hflags : opCodeFlags i.opcode = .branch8
  · have hbranch : HasTarget i.opcode := opCodeFlags_branchTarget_iff.mpr (Or.inl hflags)
    have hlt := operand_lt_pow hdec
    rw [operandSize, hflags] at hlt
    rw [branch_delta hdec hbranch (hpos hbranch), if_pos hflags, fitsInt8_signExtend8 hlt]
    exact Bool.and_false _
  · rw [decide_eq_false hflags, Bool.false_and]

omit hdec in
theorem totalSize_tableNodes (a : ℕ) : totalSize (i.tableNodes t a) = 4 * i.slots.length := by
  have hslots : ∀ j ∈ i.tableNodes t a, j.m_opcode = ceeSwitchArg := fun _ => tableNodes_opcode
  rw [totalSize_slots hslots, RawInstr.tableNodes, tableNodes_length, RawInstr.slotTargets,
    List.length_map]

/-- The slots of a table are exported as they were read. -/
theorem slots_decoded (hpos : ∀ u ∈ i.targets, pos (t u) = u) (hswitch : i.opcode = ceeSwitch)
    (a : ℕ) : (i.tableNodes t a).map (fun j => offsetDelta (pos j.m_pTarget)
        ((i.offset + 1 + 4 * (i.operand + 1)) % 2 ^ 32)) = i.slots := by
  have hbase : i.operandOffset = i.offset + 1 := by
    rw [RawInstr.operandOffset, hswitch]
    rfl
  have htargets : i.targets = i.slotTargets := by
    rw [RawInstr.targets, hswitch]
    rfl
  have hwords : ∀ raw ∈ i.slots, raw < 2 ^ 32 := by
    intro raw hraw
    obtain ⟨k, hk, rfl⟩ := List.getElem_of_mem hraw
    rw [hdec.slots_eq k hk]
    exact code.word_lt _ 4
  have hmap : ∀ (targets : List ℕ) (a o : ℕ), (TestExecutor.tableNodes t a o targets).map
      ILInstr.m_pTarget = targets.map t := by
    intro targets
    induction targets with
    | nil => intro a o; rfl
    | cons u targets ih => intro a o; exact congrArg _ (ih _ _)
  have hsplit : (i.tableNodes t a).map (fun j => offsetDelta (pos j.m_pTarget)
      ((i.offset + 1 + 4 * (i.operand + 1)) % 2 ^ 32))
        = ((i.tableNodes t a).map ILInstr.m_pTarget).map fun p => offsetDelta (pos p)
          ((i.offset + 1 + 4 * (i.operand + 1)) % 2 ^ 32) := by
    rw [List.map_map]
    rfl
  rw [hsplit, RawInstr.tableNodes, hmap, List.map_map, RawInstr.slotTargets, List.map_map]
  refine (List.map_congr_left fun raw hraw => ?_).trans (List.map_id _)
  have hmem : (i.operandOffset + 4 + 4 * i.operand + raw) % 2 ^ 32 ∈ i.targets := by
    rw [htargets]
    exact List.mem_map_of_mem hraw
  show offsetDelta (pos (t _)) _ = raw
  rw [hpos _ hmem, hbase]
  refine offsetDelta_add (hwords raw hraw) ?_
  omega

/-- The bytes of one instruction, and where the list goes on. -/
theorem encodeFrom_instr (hpos : ∀ u ∈ i.targets, pos (t u) = u) (switchBase a : ℕ)
    (rest : List ILInstr) : ∃ switchBase',
      encodeFrom pos i.offset switchBase (instrNode t a i :: (i.tableNodes t a ++ rest))
        = code.slice i.offset (i.next - i.offset) ++ encodeFrom pos i.next switchBase' rest := by
  have hlt := hdec.opcode_lt
  have hle := hdec.next_le
  have hbranch : HasTarget i.opcode → pos (t i.argWord) = i.argWord := fun h =>
    hpos _ (by rw [hasTarget_targets hlt h]; exact List.mem_cons_self)
  have hopcode : opcodeBytes (instrNode t a i).m_opcode = code.slice i.offset (opcodeSize i.opcode) := by
    rw [instrNode_opcode]
    refine IlCode.opcodeBytes_decoded hdec.opcode_eq hlt ?_
    unfold RawInstr.next RawInstr.operandOffset at hle
    omega
  have hnext : i.offset + (instrNode t a i).byteSize + totalSize (i.tableNodes t a) = i.next := by
    rw [instrNode_byteSize hlt, totalSize_tableNodes, RawInstr.next, RawInstr.operandOffset]
    omega
  have hbytes : code.slice i.offset (i.next - i.offset)
      = code.slice i.offset (opcodeSize i.opcode) ++ code.slice i.operandOffset (operandSize i.opcode)
        ++ code.slice (i.operandOffset + operandSize i.opcode) (4 * i.slots.length) := by
    rw [RawInstr.operandOffset, IlCode.slice_append, Nat.add_assoc i.offset, IlCode.slice_append]
    congr 1
    unfold RawInstr.next RawInstr.operandOffset
    omega
  have htable : ∀ j ∈ i.tableNodes t a, j.m_opcode = ceeSwitchArg := fun _ => tableNodes_opcode
  refine ⟨switchBaseBehind i.offset switchBase (instrNode t a i), ?_⟩
  rw [encodeFrom, encodeFrom_slots htable, hnext, hopcode, finalOperand_decoded hdec hbranch, hbytes]
  by_cases hswitch : i.opcode = ceeSwitch
  · have hsmall : i.operand < 2 ^ 32 := by
      have := operand_lt_pow hdec
      rwa [hswitch, operandSize_switch] at this
    have harg : (instrNode t a i).m_Arg32 = i.operand := by
      rw [ILInstr.m_Arg32, instrNode_arg (by rw [hswitch]; decide), Nat.mod_eq_of_lt hsmall]
    have hslots : i.slots.flatMap (leBytes 4)
        = code.slice (i.operandOffset + operandSize i.opcode) (4 * i.slots.length) := by
      rw [hswitch, operandSize_switch]
      refine IlCode.leBytes_words ?_ hdec.slots_eq
      unfold RawInstr.next at hle
      rwa [hswitch, operandSize_switch] at hle
    rw [switchBaseBehind, instrNode_opcode, if_pos hswitch, harg, slots_decoded hdec hpos hswitch,
      hslots]
    simp only [List.append_assoc]
  · have hnone := hdec.slots_length
    rw [if_neg hswitch] at hnone
    have hempty : i.tableNodes t a = [] := by
      rw [RawInstr.tableNodes, RawInstr.slotTargets, List.eq_nil_of_length_eq_zero hnone]
      rfl
    rw [hempty, hnone, Nat.mul_zero, IlCode.slice_zero]
    simp only [List.map_nil, List.flatMap_nil, List.append_nil, List.nil_append]

end Encoded

/-- Slots are no short branches. -/
theorem farFrom_slots {pos : ℕ → ℕ} {slots is : List ILInstr}
    (h : ∀ j ∈ slots, j.m_opcode = ceeSwitchArg) (o : ℕ) :
    farFrom pos o (slots ++ is) = farFrom pos (o + totalSize slots) is := by
  induction slots generalizing o with
  | nil => rfl
  | cons j slots ih =>
      have hfar : isFar pos o j = false := by
        rw [isFar, h j List.mem_cons_self, opCodeFlags_switchArg]
        rfl
      rw [List.cons_append, farFrom, hfar, Bool.false_or,
        ih fun k hk => h k (List.mem_cons_of_mem j hk), totalSize_cons, Nat.add_assoc]

/-- **The imported nodes are encoded as the bytes that they were decoded from**, when every target
is laid out where it was; and no short branch is far. -/
theorem encodeFrom_importedNodes {code : IlCode} {t pos : ℕ → ℕ} {is : List RawInstr} {o stop : ℕ}
    (hcons : Consecutive o is stop) (hdec : ∀ i ∈ is, DecodedAt code i.offset i)
    (hpos : ∀ i ∈ is, ∀ u ∈ i.targets, pos (t u) = u) (switchBase a : ℕ) :
    encodeFrom pos o switchBase (importedNodes t a is) = code.slice o (stop - o)
      ∧ farFrom pos o (importedNodes t a is) = false := by
  induction is generalizing o switchBase a with
  | nil =>
      obtain rfl : o = stop := hcons
      rw [Nat.sub_self, IlCode.slice_zero]
      exact ⟨rfl, rfl⟩
  | cons i is ih =>
      obtain ⟨rfl, hrest⟩ := hcons
      have hi := hdec i List.mem_cons_self
      have hlt := i.offset_lt_next
      have hle := hrest.le
      have htargets := hpos i List.mem_cons_self
      obtain ⟨switchBase', hbytes⟩ := encodeFrom_instr hi htargets switchBase a
        (importedNodes t (addrBehind a i) is)
      obtain ⟨hencode, hfar⟩ := ih hrest (fun j hj => hdec j (List.mem_cons_of_mem i hj))
        (fun j hj => hpos j (List.mem_cons_of_mem i hj)) switchBase' (addrBehind a i)
      refine ⟨?_, ?_⟩
      · have hslice := code.slice_append i.offset (i.next - i.offset) (stop - i.next)
        rw [Nat.add_sub_cancel' (le_of_lt hlt), show i.next - i.offset + (stop - i.next)
          = stop - i.offset by omega] at hslice
        rw [importedNodes, hbytes, hencode, hslice]
      · have htable : ∀ j ∈ i.tableNodes t a, j.m_opcode = ceeSwitchArg := fun _ => tableNodes_opcode
        have hnext : i.offset + (instrNode t a i).byteSize + totalSize (i.tableNodes t a) = i.next := by
          rw [instrNode_byteSize hi.opcode_lt, totalSize_tableNodes, RawInstr.next,
            RawInstr.operandOffset]
          omega
        have hbranch : HasTarget i.opcode → pos (t i.argWord) = i.argWord := fun h =>
          htargets _ (by rw [hasTarget_targets hi.opcode_lt h]; exact List.mem_cons_self)
        rw [importedNodes, farFrom, isFar_decoded hi hbranch, Bool.false_or, farFrom_slots htable,
          hnext, hfar]

/-! ### The layout -/

theorem totalSize_importedNodes {t : ℕ → ℕ} {is : List RawInstr} {o stop : ℕ}
    (hcons : Consecutive o is stop) (hlt : ∀ i ∈ is, i.opcode < ceeCount) (a : ℕ) :
    o + totalSize (importedNodes t a is) = stop := by
  induction is generalizing o a with
  | nil => exact hcons
  | cons i is ih =>
      obtain ⟨rfl, hrest⟩ := hcons
      have hrestSize := ih hrest (fun j hj => hlt j (List.mem_cons_of_mem i hj)) (addrBehind a i)
      have hnext : i.next = i.operandOffset + operandSize i.opcode + 4 * i.slots.length := rfl
      have hoperand : i.operandOffset = i.offset + opcodeSize i.opcode := rfl
      rw [importedNodes, totalSize_cons, totalSize_append, totalSize_tableNodes,
        instrNode_byteSize (hlt i List.mem_cons_self)]
      omega

/-- Offsets that are counted again stay the same. -/
theorem layoutOffset_countOffsetsFrom (il : List ILInstr) (o p : ℕ) :
    layoutOffset (countOffsetsFrom o il) p = layoutOffset il p := by
  have hagain : ∀ (l : List ILInstr) (o o' : ℕ),
      countOffsetsFrom o' (countOffsetsFrom o l) = countOffsetsFrom o' l := by
    intro l
    induction l with
    | nil => intro o o'; rfl
    | cons i is ih =>
        intro o o'
        rw [countOffsetsFrom, countOffsetsFrom, ih, countOffsetsFrom]
        rfl
  rw [layoutOffset, layoutOffset, hagain, countOffsetsFrom_totalSize]

/-- **Every node is laid out where its instruction was.** -/
theorem Decoded.layoutOffset_targetOf {code : IlCode} {is : List RawInstr} (h : Decoded code is)
    {t : ℕ → ℕ} (hnodup : ((importedNodes t (pIL + 1) is).map ILInstr.addr).Nodup) {o : ℕ}
    (ho : IsStart is o ∨ o = code.size) :
    layoutOffset (importedNodes t (pIL + 1) is) (targetOf is code.size o) = o := by
  have hlt : ∀ i ∈ is, i.opcode < ceeCount := fun i hi => h.opcode_lt hi
  rcases ho with ho | rfl
  · have hne : targetOf is code.size o ≠ pIL := ne_of_gt (h.targetOf_start ho).2
    obtain ⟨i, hi, rfl⟩ := ho
    obtain ⟨pre, post, his⟩ := List.append_of_mem hi
    obtain ⟨middle, hpre, hpost⟩ := Consecutive.split (his ▸ h.consecutive)
    have hsize := totalSize_importedNodes (t := t) hpre
      (fun j hj => hlt j (by rw [his]; exact List.mem_append_left _ hj)) (pIL + 1)
    rw [h.targetOf_split his] at hne ⊢
    rw [his, importedNodes_append, importedNodes] at hnodup ⊢
    have hnot : addrBehindAll (pIL + 1) pre ∉ (importedNodes t (pIL + 1) pre).map ILInstr.addr := by
      rw [List.map_append, List.map_cons, instrNode_addr, List.nodup_append] at hnodup
      exact fun hmem => hnodup.2.2 _ hmem _ List.mem_cons_self rfl
    have haddr := instrNode_addr t (addrBehindAll (pIL + 1) pre) i
    have hsplit : layoutOffset (importedNodes t (pIL + 1) pre ++ instrNode t
        (addrBehindAll (pIL + 1) pre) i :: (i.tableNodes t (addrBehindAll (pIL + 1) pre)
          ++ importedNodes t (addrBehind (addrBehindAll (pIL + 1) pre) i) post))
        (instrNode t (addrBehindAll (pIL + 1) pre) i).addr
          = totalSize (importedNodes t (pIL + 1) pre) :=
      layoutOffset_split (haddr.symm ▸ hne) (haddr.symm ▸ hnot)
    rw [haddr] at hsplit
    rw [hsplit]
    have := hpost.1
    omega
  · have hsize := totalSize_importedNodes (t := t) h.consecutive hlt (pIL + 1)
    rw [targetOf, if_pos rfl, layoutOffset, if_pos rfl]
    omega

/-! ### The import -/

/-- The nodes of the instructions and of their slots. -/
def nodeCount (is : List RawInstr) : ℕ := (is.map fun i => i.slots.length + 1).sum

/-- What an import leaves alone, and how many nodes it creates. -/
structure GrownBy (n : ℕ) (s s' : ILRewriter) : Prop where
  m_nInstrs : s'.m_nInstrs = s.m_nInstrs + n
  m_flags : s'.m_flags = s.m_flags
  m_tkLocalVarSig : s'.m_tkLocalVarSig = s.m_tkLocalVarSig

theorem GrownBy.trans {m n : ℕ} {s s' s'' : ILRewriter} (h : GrownBy m s s') (h' : GrownBy n s' s'') :
    GrownBy (m + n) s s'' where
  m_nInstrs := by rw [h'.m_nInstrs, h.m_nInstrs, Nat.add_assoc]
  m_flags := h'.m_flags.trans h.m_flags
  m_tkLocalVarSig := h'.m_tkLocalVarSig.trans h.m_tkLocalVarSig

theorem appendSlots_grown (targets : List ℕ) (s : ILRewriter) :
    GrownBy targets.length s
      (targets.foldl (fun s target => s.appendNode ceeSwitchArg target) s) := by
  induction targets generalizing s with
  | nil => exact ⟨rfl, rfl, rfl⟩
  | cons target targets ih =>
      have hhead : GrownBy 1 s (s.appendNode ceeSwitchArg target) := ⟨rfl, rfl, rfl⟩
      have hall := hhead.trans (ih (s.appendNode ceeSwitchArg target))
      rw [Nat.add_comm] at hall
      exact hall

theorem importInstr_grown (s : ILRewriter) (i : RawInstr) :
    GrownBy (i.slots.length + 1) s (s.importInstr i) := by
  have hentered : GrownBy 1 s { s.appendNode i.opcode i.argWord with
      m_pOffsetToInstr := Function.update (s.appendNode i.opcode i.argWord).m_pOffsetToInstr
        i.offset s.fresh } := ⟨rfl, rfl, rfl⟩
  have hall := hentered.trans (appendSlots_grown i.slotTargets _)
  rw [RawInstr.slotTargets, List.length_map, Nat.add_comm] at hall
  exact hall

theorem foldl_importInstr_grown (is : List RawInstr) (s : ILRewriter) :
    GrownBy (nodeCount is) s (is.foldl ILRewriter.importInstr s) := by
  induction is generalizing s with
  | nil => exact ⟨rfl, rfl, rfl⟩
  | cons i is ih => exact (importInstr_grown s i).trans (ih _)

/-- The targets of branches and switches, and the boundaries of the clauses, are instruction starts
or the end; the lengths in the clauses are words. -/
structure ResolvedBody (body : MethodBody) (is : List RawInstr) : Prop where
  decodes : instructions body.code = .ok is
  targets : ∀ i ∈ is, ∀ t ∈ i.targets, IsStart is t ∨ t = body.code.size
  boundaries : ∀ eh ∈ body.eh, ∀ o ∈ eh.boundaries, IsStart is o ∨ o = body.code.size
  words : ∀ eh ∈ body.eh, eh.tryLength < 2 ^ 32 ∧ eh.handlerLength < 2 ^ 32

/-- The state after `Import`. -/
structure ImportedBody (body : MethodBody) (is : List RawInstr) (s : ILRewriter) : Prop where
  editable : s.Editable
  list_eq : countOffsetsFrom 0 s.m_IL = importedNodes (targetOf is body.code.size) (pIL + 1) is
  clauses_eq : s.m_pEH = body.eh.map (clauseOf (targetOf is body.code.size) s.m_pPrev)
  m_nInstrs : s.m_nInstrs = nodeCount is
  m_flags : s.m_flags = initLocalsFlag body.flags
  m_tkLocalVarSig : s.m_tkLocalVarSig = body.localVarSigTok

theorem ImportedBody.nodup {body : MethodBody} {is : List RawInstr} {s : ILRewriter}
    (hs : ImportedBody body is s) :
    ((importedNodes (targetOf is body.code.size) (pIL + 1) is).map ILInstr.addr).Nodup := by
  rw [← hs.list_eq, countOffsetsFrom_map_addr]
  exact hs.editable.linked.nodup

namespace ResolvedBody

variable {body : MethodBody} {is : List RawInstr} (h : ResolvedBody body is)

include h

theorem decoded : Decoded body.code is := decoded_of_decodeAll h.decodes

theorem targetOf_ne_null {o : ℕ} (ho : IsStart is o ∨ o = body.code.size) :
    targetOf is body.code.size o ≠ nullPtr := by
  rcases ho with ho | rfl
  · have := (h.decoded.targetOf_start ho).2
    exact Nat.ne_of_gt (Nat.lt_trans Nat.zero_lt_one this)
  · rw [targetOf, if_pos rfl]
    decide

theorem imported : ∃ s, importBody body = .ok s ∧ ImportedBody body is s := by
  obtain ⟨s₀, hs₀⟩ : ∃ s₀, s₀ = { ILRewriter.new with
    m_tkLocalVarSig := body.localVarSigTok
    m_maxStack := body.maxStack
    m_flags := initLocalsFlag body.flags } := ⟨_, rfl⟩
  have hrun : s₀.importIL body.code = .ok (is.foldl ILRewriter.importInstr { s₀ with
      m_CodeSize := body.code.size
      m_pOffsetToInstr := Function.update (fun _ => nullPtr) body.code.size pIL }).resolveTargets := by
    rw [importIL_eq, show decodeAll body.code body.code.size 0 = .ok is from h.decodes]
    rfl
  have hgrown := foldl_importInstr_grown is { s₀ with
    m_CodeSize := body.code.size
    m_pOffsetToInstr := Function.update (fun _ => nullPtr) body.code.size pIL }
  revert hrun hgrown
  generalize is.foldl ILRewriter.importInstr _ = s₁
  intro hrun hgrown
  have hfresh : s₀.fresh = pIL + 1 := by rw [hs₀]; rfl
  have hIL : s₀.m_IL = [] := by rw [hs₀]; rfl
  obtain ⟨is', hdecode, -, -, -, -, hlookup, hnodes⟩ := importIL_spec hfresh hIL hrun
  obtain rfl : is = is' := Except.ok.inj (h.decodes.symm.trans hdecode)
  have heh := importEH_eq hlookup body.eh fun c hc =>
    h.targetOf_ne_null (h.boundaries c hc _ (by simp [EhInfo.boundaries]))
  have hbody : importBody body = .ok { s₁.resolveTargets with
      m_pEH := body.eh.map (clauseOf (targetOf is body.code.size) s₁.resolveTargets.m_pPrev) } := by
    rw [importBody, ← hs₀]
    show (s₀.importIL body.code >>= _) = _
    rw [hrun]
    exact heh
  refine ⟨_, hbody, importBody_editable hbody, ?_, rfl, ?_, ?_, ?_⟩
  · show countOffsetsFrom 0 s₁.resolveTargets.m_IL = _
    rw [hnodes]
    exact countOffsetsFrom_nodesFrom h.decoded.consecutive (fun i hi => h.decoded.opcode_lt hi) _
  · refine hgrown.m_nInstrs.trans ?_
    rw [hs₀]
    exact Nat.zero_add _
  · refine hgrown.m_flags.trans ?_
    rw [hs₀]
  · refine hgrown.m_tkLocalVarSig.trans ?_
    rw [hs₀]

variable {s : ILRewriter} (hs : ImportedBody body is s)

include hs

theorem totalSize_eq : totalSize s.m_IL = body.code.size := by
  have hsize := totalSize_importedNodes (t := targetOf is body.code.size) h.decoded.consecutive
    (fun i hi => h.decoded.opcode_lt hi) (pIL + 1)
  rw [← countOffsetsFrom_totalSize s.m_IL 0, hs.list_eq]
  omega

theorem layoutOffset_targetOf {o : ℕ} (ho : IsStart is o ∨ o = body.code.size) :
    layoutOffset s.m_IL (targetOf is body.code.size o) = o := by
  rw [← layoutOffset_countOffsetsFrom s.m_IL 0, hs.list_eq]
  exact h.decoded.layoutOffset_targetOf hs.nodup ho

theorem nodeOrEnd {o : ℕ} (ho : IsStart is o ∨ o = body.code.size) :
    NodeOrEnd s.m_IL (targetOf is body.code.size o) := by
  have hnode := (h.decoded.targetOf_nodeOrEnd_iff (targetOf is body.code.size) o).mpr ho
  unfold NodeOrEnd at hnode ⊢
  rwa [← hs.list_eq, countOffsetsFrom_map_addr] at hnode

theorem targetsInList : TargetsInList s.m_IL := by
  rw [← targetsInList_countOffsets]
  show TargetsInList (countOffsetsFrom 0 s.m_IL)
  rw [hs.list_eq]
  intro v hv hbranch
  obtain ⟨i, hi, o, ho, htarget⟩ := h.decoded.node_target hv hbranch
  rw [htarget]
  exact (h.decoded.targetOf_nodeOrEnd_iff _ o).mpr (h.targets i hi o ho)

theorem encoded : encodeFrom (layoutOffset s.m_IL) 0 0 s.m_IL = body.code.bytes
    ∧ farFrom (layoutOffset s.m_IL) 0 s.m_IL = false := by
  have hpos : ∀ i ∈ is, ∀ u ∈ i.targets,
      layoutOffset s.m_IL (targetOf is body.code.size u) = u := fun i hi u hu =>
    h.layoutOffset_targetOf hs (h.targets i hi u hu)
  have hall := encodeFrom_importedNodes (t := targetOf is body.code.size) h.decoded.consecutive
    (fun i hi => h.decoded.decodedAt hi) hpos 0 (pIL + 1)
  rw [← hs.list_eq, encodeFrom_countOffsetsFrom, farFrom_countOffsetsFrom, Nat.sub_zero,
    IlCode.slice_all] at hall
  exact hall

/-- A clause is exported as it was imported. -/
theorem clauseInfo_clauseOf {eh : EhInfo} (heh : eh ∈ body.eh) :
    clauseInfo (layoutOffset s.m_IL) s.m_pNext (clauseOf (targetOf is body.code.size) s.m_pPrev eh)
      = eh := by
  have hat : ∀ o ∈ eh.boundaries, layoutOffset s.m_IL (targetOf is body.code.size o) = o :=
    fun o ho => h.layoutOffset_targetOf hs (h.boundaries eh heh o ho)
  obtain ⟨htryLength, hhandlerLength⟩ := h.words eh heh
  have htryBegin := hat eh.tryOffset (by simp [EhInfo.boundaries])
  have htryEnd := hat ((eh.tryOffset + eh.tryLength) % 2 ^ 32) (by simp [EhInfo.boundaries])
  have hbegin := hat eh.handlerOffset (by simp [EhInfo.boundaries, EhInfo.entries])
  have hend := hat ((eh.handlerOffset + eh.handlerLength) % 2 ^ 32) (by simp [EhInfo.boundaries])
  have hlink : s.m_pNext (s.m_pPrev (targetOf is body.code.size
      ((eh.handlerOffset + eh.handlerLength) % 2 ^ 32)))
        = targetOf is body.code.size ((eh.handlerOffset + eh.handlerLength) % 2 ^ 32) :=
    hs.editable.linked.next_prev (h.nodeOrEnd hs (h.boundaries eh heh _ (by simp [EhInfo.boundaries])))
  have htry : offsetDelta ((eh.tryOffset + eh.tryLength) % 2 ^ 32) eh.tryOffset = eh.tryLength :=
    offsetDelta_add htryLength rfl
  have hhandler : offsetDelta ((eh.handlerOffset + eh.handlerLength) % 2 ^ 32) eh.handlerOffset
      = eh.handlerLength := offsetDelta_add hhandlerLength rfl
  rw [clauseInfo, clauseOf]
  dsimp only
  rw [htryBegin, htryEnd, hbegin, hlink, hend, htry, hhandler]
  cases hflags : isFilterFlags eh.flags with
  | false => rfl
  | true =>
      have hfilter := hat eh.classTokenOrFilterOffset (by
        simp [EhInfo.boundaries, EhInfo.entries, hflags])
      rw [if_pos rfl, if_pos rfl, hfilter]

/-- What `Export` makes of the imported list, when the output buffer is large enough. -/
theorem exported (hfits : body.code.size ≤ s.maxSize) :
    exportRounds s.maxSize 1 s.m_IL = some (.ok (countOffsetsFrom 0 s.m_IL, body.code.bytes))
      ∧ s.exportBody 1 = some (.ok ⟨s.m_flags + (if s.m_pEH.length ≠ 0 then 8 else 0) + 3,
        s.m_maxStack % 2 ^ 16, s.m_tkLocalVarSig, body.code.bytes, body.eh⟩) := by
  obtain ⟨hencode, hfar⟩ := h.encoded hs
  have hsize := h.totalSize_eq hs
  obtain ⟨bytes, hrun, hbytes⟩ := exportRound_eq (hsize.symm ▸ hfits) (h.targetsInList hs)
  have hrounds : exportRounds s.maxSize 1 s.m_IL
      = some (.ok (countOffsetsFrom 0 s.m_IL, body.code.bytes)) := by
    rw [exportRounds, hrun, hfar, widenFrom_of_not_far hfar, hbytes hfar, hencode]
    rfl
  have hlaid : { s with m_IL := countOffsetsFrom 0 s.m_IL }.m_pNext = s.m_pNext :=
    m_pNext_congr (countOffsetsFrom_map_addr s.m_IL 0)
  have heh : s.m_pEH.mapM ({ s with m_IL := countOffsetsFrom 0 s.m_IL }.exportClause
      body.code.bytes.length) = .ok (s.m_pEH.map (clauseInfo (layoutOffset s.m_IL) s.m_pNext)) := by
    refine mapM_eq_ok fun c hc => ?_
    rw [hs.clauses_eq] at hc
    obtain ⟨eh, heh, rfl⟩ := List.mem_map.mp hc
    have hnode : ∀ o ∈ eh.boundaries, NodeOrEnd s.m_IL (targetOf is body.code.size o) :=
      fun o ho => h.nodeOrEnd hs (h.boundaries eh heh o ho)
    have hend := hnode ((eh.handlerOffset + eh.handlerLength) % 2 ^ 32) (by simp [EhInfo.boundaries])
    rw [show body.code.bytes.length = totalSize s.m_IL from hsize.symm, ← hlaid]
    refine exportClause_eq rfl (fun p hp => ?_) ?_
    · rcases List.mem_append.mp hp with hp | hp
      · simp only [List.mem_cons, List.not_mem_nil, or_false] at hp
        rcases hp with rfl | rfl | rfl
        · exact hnode eh.tryOffset (by simp [EhInfo.boundaries])
        · exact hnode _ (by simp [EhInfo.boundaries])
        · exact hnode eh.handlerOffset (by simp [EhInfo.boundaries, EhInfo.entries])
      · by_cases hflags : isFilterFlags eh.flags = true
        · rw [clauseOf, if_pos hflags, List.mem_singleton] at hp
          dsimp only at hp
          rw [if_pos hflags] at hp
          rw [hp]
          exact hnode _ (by simp [EhInfo.boundaries, EhInfo.entries, hflags])
        · rw [clauseOf, if_neg hflags] at hp
          exact absurd hp List.not_mem_nil
    · rw [hlaid]
      refine (congrArg (NodeOrEnd s.m_IL) ?_).mpr hend
      exact hs.editable.linked.next_prev hend
  have hclauses : s.m_pEH.map (clauseInfo (layoutOffset s.m_IL) s.m_pNext) = body.eh := by
    rw [hs.clauses_eq, List.map_map]
    exact (List.map_congr_left fun eh heh => h.clauseInfo_clauseOf hs heh).trans (List.map_id _)
  refine ⟨hrounds, ?_⟩
  rw [exportBody, hrounds]
  rw [hclauses] at heh
  exact congrArg some (exportHeader_fat hs.editable.fat heh)

end ResolvedBody

/-! ### Unmodified bodies -/

/-- The exported body is the one that was imported, and no branch has another opcode. -/
structure Reproduces (body : MethodBody) (s : ILRewriter) (nodes : List ILInstr)
    (out : ExportedBody) : Prop where
  code : out.code = body.code.bytes
  initLocals : initLocalsFlag out.flags = initLocalsFlag body.flags
  localVarSigTok : out.localVarSigTok = body.localVarSigTok
  eh : out.eh = body.eh
  opcodes : nodes.map ILInstr.m_opcode = s.m_IL.map ILInstr.m_opcode

/-- `Import`, directly followed by `Export`. -/
def ExportsUnmodified (body : MethodBody) : Prop :=
  ∃ s rounds nodes out, importBody body = .ok s
    ∧ exportRounds s.maxSize rounds s.m_IL = some (.ok (nodes, out.code))
    ∧ s.exportBody rounds = some (.ok out) ∧ Reproduces body s nodes out

theorem countOffsetsFrom_map_opcode (il : List ILInstr) (o : ℕ) :
    (countOffsetsFrom o il).map ILInstr.m_opcode = il.map ILInstr.m_opcode := by
  induction il generalizing o with
  | nil => rfl
  | cons i is ih => rw [countOffsetsFrom, List.map_cons, List.map_cons, ih]

theorem initLocalsFlag_exported (flags n : ℕ) :
    initLocalsFlag (initLocalsFlag flags + (if n ≠ 0 then 8 else 0) + 3) = initLocalsFlag flags := by
  unfold initLocalsFlag
  split <;> split <;> rfl

/-- Code that does not fit into the buffer is not exported. -/
theorem ResolvedBody.not_exportsUnmodified {body : MethodBody} {is : List RawInstr}
    (h : ResolvedBody body is) (hlarge : nodeCount is * 10 % 2 ^ 32 < body.code.size) :
    ¬ExportsUnmodified body := by
  rintro ⟨s, rounds, nodes, out, hbody, -, hexport, -⟩
  obtain ⟨s', hbody', hs⟩ := h.imported
  obtain rfl : s = s' := Except.ok.inj (hbody.symm.trans hbody')
  refine exportBody_overrun ?_ rounds out hexport
  rw [h.totalSize_eq hs, maxSize, hs.m_nInstrs]
  exact hlarge

/-- **Export is the inverse of import** on bodies whose targets and boundaries are instructions,
exactly as long as the output buffer, of ten bytes for each node, holds the code: its size is an
`unsigned`, which wraps around. -/
theorem exportsUnmodified_iff {body : MethodBody} {is : List RawInstr} (h : ResolvedBody body is) :
    ExportsUnmodified body ↔ body.code.size ≤ nodeCount is * 10 % 2 ^ 32 := by
  constructor
  · intro hexports
    by_contra hlarge
    exact h.not_exportsUnmodified (not_le.mp hlarge) hexports
  · intro hfits
    obtain ⟨s, hbody, hs⟩ := h.imported
    have hmax : s.maxSize = nodeCount is * 10 % 2 ^ 32 := by rw [maxSize, hs.m_nInstrs]
    obtain ⟨hrounds, hexport⟩ := h.exported hs (hmax.symm ▸ hfits)
    refine ⟨s, 1, _, _, hbody, hrounds, hexport, rfl, ?_, hs.m_tkLocalVarSig, rfl,
      countOffsetsFrom_map_opcode s.m_IL 0⟩
    show initLocalsFlag (s.m_flags + _ + 3) = _
    rw [hs.m_flags]
    exact initLocalsFlag_exported body.flags _

/-- A short branch, and a clause around it. -/
theorem exportsUnmodified_iff_clause : ExportsUnmodified slotBehindHandlerBody := by
  have h : ResolvedBody slotBehindHandlerBody
      [⟨0, ceeLeaveS, 5, []⟩, ⟨2, ceeLdcI4, 1, []⟩, ⟨7, ceeRet, 0, []⟩] :=
    ⟨by decide +kernel, by decide +kernel, by decide +kernel, by decide +kernel⟩
  exact (exportsUnmodified_iff h).mpr (by decide +kernel)

/-! ### A body that is too large -/

section Nops

variable {n : ℕ} {code : IlCode} (hcode : code.bytes = List.replicate n 0 ++ [0x2A])

include hcode

theorem decodeInstr_nop {o : ℕ} (ho : o < n) : decodeInstr code o = .ok ⟨o, ceeNop, 0, []⟩ := by
  have hbytes : code.bytes = List.replicate o 0 ++ (opcodeBytes ceeNop
      ++ (leBytes (operandSize ceeNop) 0 ++ (List.replicate (n - o - 1) 0 ++ [0x2A]))) := by
    have hreplicate : List.replicate n (0 : UInt8)
        = List.replicate o 0 ++ (0 :: List.replicate (n - o - 1) 0) := by
      rw [← List.replicate_succ, ← List.replicate_add]
      congr 1
      omega
    rw [hcode, hreplicate, List.append_assoc]
    rfl
  have hdecode := decodeInstr_encoded (by decide) (by decide) hbytes
  rw [List.length_replicate] at hdecode
  exact hdecode

theorem decodeInstr_ret : decodeInstr code n = .ok ⟨n, ceeRet, 0, []⟩ := by
  have hbytes : code.bytes = List.replicate n 0 ++ (opcodeBytes ceeRet
      ++ (leBytes (operandSize ceeRet) 0 ++ [])) := hcode
  have hdecode := decodeInstr_encoded (by decide) (by decide) hbytes
  rw [List.length_replicate] at hdecode
  exact hdecode

theorem decodeAll_nops (k : ℕ) : ∀ fuel o, o + k = n → k < fuel → ∃ is,
    decodeAll code fuel o = .ok is ∧ nodeCount is = k + 1 ∧ ∀ i ∈ is, i.targets = [] := by
  have hsize : code.size = n + 1 := by
    rw [IlCode.size, hcode, List.length_append, List.length_replicate]
    rfl
  induction k with
  | zero =>
      rintro (_ | fuel) o ho hfuel
      · exact absurd hfuel (Nat.lt_irrefl 0)
      · obtain rfl : o = n := ho
        have hend : decodeAll code fuel (o + 1) = .ok [] := by
          cases fuel with
          | zero => rfl
          | succ fuel => rw [decodeAll, if_neg (by omega)]
        refine ⟨[⟨o, ceeRet, 0, []⟩], ?_, rfl, fun i hi => by rw [List.mem_singleton.mp hi]; rfl⟩
        rw [decodeAll, if_pos (by omega), decodeInstr_ret hcode]
        show (decodeAll code fuel (o + 1) >>= _) = _
        rw [hend]
        rfl
  | succ k ih =>
      rintro (_ | fuel) o ho hfuel
      · exact absurd hfuel (Nat.not_lt_zero _)
      · obtain ⟨is, hrest, hcount, htargets⟩ := ih fuel (o + 1) (by omega) (by omega)
        refine ⟨⟨o, ceeNop, 0, []⟩ :: is, ?_, ?_, ?_⟩
        · rw [decodeAll, if_pos (by omega), decodeInstr_nop hcode (by omega)]
          show (decodeAll code fuel (o + 1) >>= _) = _
          rw [hrest]
          rfl
        · rw [nodeCount, List.map_cons, List.sum_cons]
          show 0 + 1 + nodeCount is = _
          omega
        · intro i hi
          rcases List.mem_cons.mp hi with rfl | hi
          · rfl
          · exact htargets i hi

end Nops

/-- Nops and a `ret`: for its 429496730 nodes the buffer has four bytes. -/
def nopBody : MethodBody where
  flags := 3
  maxStack := 8
  localVarSigTok := 0
  code := ⟨List.replicate 429496729 0 ++ [0x2A], by
    rw [List.length_append, List.length_replicate]
    decide⟩
  eh := []

theorem nopBody_not_exported : ¬ExportsUnmodified nopBody := by
  have hsize : nopBody.code.size = 429496730 := by
    rw [IlCode.size, nopBody, List.length_append, List.length_replicate]
    rfl
  have hbytes : nopBody.code.bytes = List.replicate 429496729 0 ++ [0x2A] := rfl
  obtain ⟨is, hdecode, hcount, htargets⟩ := decodeAll_nops hbytes 429496729 nopBody.code.size 0
    (Nat.zero_add _) (by rw [hsize]; decide)
  have h : ResolvedBody nopBody is := by
    refine ⟨hdecode, fun i hi t ht => ?_, fun eh heh => absurd heh List.not_mem_nil,
      fun eh heh => absurd heh List.not_mem_nil⟩
    rw [htargets i hi] at ht
    exact absurd ht List.not_mem_nil
  refine h.not_exportsUnmodified ?_
  rw [hcount, hsize]
  decide

end TestExecutor
