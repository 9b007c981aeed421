import TestExecutor.Rewriter.ExportLayout

/-!
# Reading exported bytes back

The decoding loop of `ImportIL` on the bytes of an exported list.

* `SwitchTables` — lists in which every switch has its slot nodes directly behind it, and no slot
  node stands elsewhere;
* `decodeInstr_encoded`, `decodeInstr_encoded_switch` — one instruction;
* `rebuilt` — the nodes that the import creates, with the byte offsets of their targets;
* `decodeAll_encodeFrom` — the whole list.
-/

namespace TestExecutor

open TestExecutor.Library

/-- The opcodes that `ImportIL` accepts. -/
def Importable (opcode : ℕ) : Prop :=
  opcode < ceeCount ∧ ¬(ceePrefix7 ≤ opcode ∧ opcode ≤ ceePrefix2) ∧ opcode ≠ ceePrefix1

instance (opcode : ℕ) : Decidable (Importable opcode) := by unfold Importable; infer_instance

/-- The slot nodes stand directly behind their switch, as many as its operand says. -/
inductive SwitchTables : List ILInstr → Prop where
  | nil : SwitchTables []
  | instr {i : ILInstr} {is : List ILInstr} (himportable : Importable i.m_opcode)
      (hne : i.m_opcode ≠ ceeSwitch) (rest : SwitchTables is) : SwitchTables (i :: is)
  | switch {i : ILInstr} {slots is : List ILInstr} (hop : i.m_opcode = ceeSwitch)
      (hlen : slots.length = i.m_Arg32) (hslots : ∀ j ∈ slots, j.m_opcode = ceeSwitchArg)
      (rest : SwitchTables is) : SwitchTables (i :: (slots ++ is))

theorem Importable.ne_switchArg {opcode : ℕ} (h : Importable opcode) : opcode ≠ ceeSwitchArg := by
  rintro rfl
  exact absurd h.1 (by decide)

/-! ### Words of the exported bytes -/

variable {code : IlCode} {pre post : List UInt8}

theorem word_of_bytes (pre post : List UInt8) (w v : ℕ)
    (h : code.bytes = pre ++ (leBytes w v ++ post)) :
    code.word pre.length w = v % 256 ^ w := by
  rw [IlCode.word, h, List.drop_left, List.take_left' (leBytes_length w v), leNat_leBytes]

theorem size_of_bytes (pre bytes post : List UInt8)
    (h : code.bytes = pre ++ (bytes ++ post)) :
    pre.length + bytes.length ≤ code.size := by
  rw [IlCode.size, h, List.length_append, List.length_append]
  omega

theorem opcodeBytes_small {opcode : ℕ} (h : opcode < 0x100) :
    opcodeBytes opcode = leBytes 1 opcode := by
  rw [opcodeBytes, if_pos (by unfold ceeCount; omega), if_neg (by omega)]
  rfl

theorem opcodeBytes_large {opcode : ℕ} (hle : 0x100 ≤ opcode) (hlt : opcode < ceeCount) :
    opcodeBytes opcode = leBytes 1 ceePrefix1 ++ leBytes 1 opcode := by
  rw [opcodeBytes, if_pos hlt, if_pos hle]
  rfl

theorem decodeOpcode_encoded {opcode : ℕ} (h : code.bytes = pre ++ (opcodeBytes opcode ++ post))
    (himportable : Importable opcode) : decodeOpcode code pre.length = .ok opcode := by
  obtain ⟨hcount, -, hpre⟩ := himportable
  rw [decodeOpcode]
  rcases Nat.lt_or_ge opcode 0x100 with hsmall | hlarge
  · rw [opcodeBytes_small hsmall] at h
    have hword : code.word pre.length 1 = opcode := by
      rw [word_of_bytes pre post 1 opcode h]
      omega
    simp only [hword, if_neg hpre]
  · rw [opcodeBytes_large hlarge hcount, List.append_assoc] at h
    have hlead : code.word pre.length 1 = ceePrefix1 := word_of_bytes _ _ _ _ h
    have hbytes : code.bytes = pre ++ ((leBytes 1 ceePrefix1 ++ leBytes 1 opcode) ++ post) := by
      rw [h, List.append_assoc]
    have hsize := size_of_bytes _ _ _ hbytes
    have hsecond : code.word _ 1 = _ := word_of_bytes (pre ++ leBytes 1 ceePrefix1) post 1 opcode
      (by rw [h, List.append_assoc])
    simp only [List.length_append, leBytes_length] at hsize hsecond
    unfold ceeCount at hcount
    simp only [hlead, if_pos, hsecond]
    rw [if_neg (by omega)]
    congr 1
    omega

theorem opcodeBytes_importable {opcode : ℕ} (h : Importable opcode) :
    (opcodeBytes opcode).length = opcodeSize opcode := by
  rw [opcodeBytes_length, if_pos h.1]

/-! ### One instruction -/

/-- **An instruction without a table** is decoded as it was written. -/
theorem decodeInstr_encoded {opcode v : ℕ} (himportable : Importable opcode)
    (hne : opcode ≠ ceeSwitch)
    (h : code.bytes = pre ++ (opcodeBytes opcode ++ (leBytes (operandSize opcode) v ++ post))) :
    decodeInstr code pre.length
      = .ok ⟨pre.length, opcode, v % 256 ^ operandSize opcode, []⟩ := by
  have hflags : opCodeFlags opcode ≠ .switch := fun hs => hne (opCodeFlags_eq_switch_iff.mp hs)
  have hsize := operandSize_of_ne_switch hflags
  have hbytes : code.bytes
      = (pre ++ opcodeBytes opcode) ++ (leBytes (operandSize opcode) v ++ post) := by
    rw [h, List.append_assoc]
  have hword := word_of_bytes _ _ _ _ hbytes
  have hfits := size_of_bytes _ _ _ hbytes
  rw [List.length_append, opcodeBytes_importable himportable] at hword hfits
  rw [leBytes_length, hsize] at hfits
  rw [decodeInstr, decodeOpcode_encoded h himportable]
  show (if ceePrefix7 ≤ opcode ∧ opcode ≤ ceePrefix2 then _ else _) = _
  rw [if_neg himportable.2.1, if_neg (not_le.mpr himportable.1)]
  dsimp only
  rw [if_neg (by omega), if_neg hflags, ← hsize, hword]
  rfl

theorem decodeSlots_encoded (vs : List ℕ) : ∀ pre : List UInt8,
    code.bytes = pre ++ (vs.flatMap (leBytes 4) ++ post) →
      decodeSlots code vs.length pre.length = .ok (vs.map (· % 2 ^ 32)) := by
  induction vs with
  | nil => intro pre _; rfl
  | cons v vs ih =>
      intro pre h
      rw [List.flatMap_cons, List.append_assoc] at h
      have hword := word_of_bytes _ _ _ _ h
      have hsize := size_of_bytes _ _ _ h
      have hrest := ih (pre ++ leBytes 4 v) (by rw [h, List.append_assoc])
      rw [leBytes_length] at hsize
      rw [List.length_append, leBytes_length] at hrest
      rw [List.length_cons, decodeSlots, if_neg (by omega), hrest, hword]
      rfl

/-- **A switch** is decoded with its table. -/
theorem decodeInstr_encoded_switch {opcode : ℕ} {vs : List ℕ} (hop : opcode = ceeSwitch)
    (hlen : vs.length < 2 ^ 32)
    (h : code.bytes = pre ++ (opcodeBytes opcode
      ++ (leBytes 4 vs.length ++ (vs.flatMap (leBytes 4) ++ post)))) :
    decodeInstr code pre.length = .ok ⟨pre.length, opcode, vs.length, vs.map (· % 2 ^ 32)⟩ := by
  have himportable : Importable opcode := by rw [hop]; decide
  have hflags : opCodeFlags opcode = .switch := by rw [hop]; exact opCodeFlags_switch
  have hbytes : code.bytes = (pre ++ opcodeBytes opcode)
      ++ (leBytes 4 vs.length ++ (vs.flatMap (leBytes 4) ++ post)) := by
    rw [h, List.append_assoc]
  have htable : code.bytes = (pre ++ opcodeBytes opcode ++ leBytes 4 vs.length)
      ++ (vs.flatMap (leBytes 4) ++ post) := by
    rw [hbytes, List.append_assoc (pre ++ opcodeBytes opcode)]
  have hcount := word_of_bytes _ _ _ _ hbytes
  have hfits := size_of_bytes _ _ _ hbytes
  have hslots := decodeSlots_encoded vs _ htable
  simp only [List.length_append, leBytes_length, opcodeBytes_importable himportable]
    at hcount hfits hslots
  rw [Nat.mod_eq_of_lt (show vs.length < 256 ^ 4 by omega)] at hcount
  rw [decodeInstr, decodeOpcode_encoded h himportable]
  show (if ceePrefix7 ≤ opcode ∧ opcode ≤ ceePrefix2 then _ else _) = _
  rw [if_neg himportable.2.1, if_neg (not_le.mpr himportable.1)]
  dsimp only
  rw [hflags, if_neg (by simp only [OpCodeFlags.sizeMask]; omega), if_pos rfl,
    if_neg (by omega), hcount, hslots]
  rfl

/-! ### Operands -/

/-- The word that is written for the operand of an instruction. -/
def operandWord (t : ℕ → ℕ) (o : ℕ) (i : ILInstr) : ℕ :=
  match opCodeFlags i.m_opcode with
  | .branch8 | .branch32 => offsetDelta (t i.m_pTarget) (o + i.byteSize)
  | _ => i.m_Arg64

theorem finalOperand_eq {t : ℕ → ℕ} {o switchBase : ℕ} {i : ILInstr}
    (h : i.m_opcode ≠ ceeSwitchArg) :
    finalOperand t o switchBase i = leBytes (operandSize i.m_opcode) (operandWord t o i) := by
  rw [finalOperand, if_neg h, operandWord, operandSize]
  cases hflags : opCodeFlags i.m_opcode with
  | arg8 => simp only [operandBytes, hflags]; exact leBytes_mod 1 i.m_Arg64
  | arg16 => simp only [operandBytes, hflags]; exact leBytes_mod 2 i.m_Arg64
  | arg32 | switch => simp only [operandBytes, hflags]; exact leBytes_mod 4 i.m_Arg64
  | arg0 | arg64 | branch8 | branch32 => simp only [operandBytes, hflags]; rfl

theorem offsetDelta_lt (target base : ℕ) : offsetDelta target base < 2 ^ 32 :=
  Nat.mod_lt _ (by decide)

theorem add_offsetDelta {target : ℕ} (base : ℕ) (h : target < 2 ^ 32) :
    (base + offsetDelta target base) % 2 ^ 32 = target := by
  unfold offsetDelta
  omega

theorem signExtend8_of_fitsInt8 {delta : ℕ} (hlt : delta < 2 ^ 32) (h : fitsInt8 delta = true) :
    signExtend8 (delta % 256 ^ 1) = delta := by
  simp only [fitsInt8, Bool.or_eq_true, decide_eq_true_eq] at h
  unfold signExtend8
  split <;> omega

/-- The operand of a node as the import stores it: a byte offset for a branch. -/
def rebuiltArg (t : ℕ → ℕ) (i : ILInstr) : ℕ :=
  if (opCodeFlags i.m_opcode).branchTarget then t i.m_pTarget
  else i.m_Arg64 % 256 ^ operandSize i.m_opcode

theorem argWord_encoded {t : ℕ → ℕ} {o : ℕ} {i : ILInstr} (himportable : Importable i.m_opcode)
    (hfar : isFar t o i = false)
    (htarget : (opCodeFlags i.m_opcode).branchTarget = true → t i.m_pTarget < 2 ^ 32)
    (slots : List ℕ) :
    (RawInstr.mk o i.m_opcode (operandWord t o i % 256 ^ operandSize i.m_opcode) slots).argWord
      = rebuiltArg t i := by
  have hsize : o + i.byteSize = o + opcodeSize i.m_opcode + operandSize i.m_opcode := by
    rw [ILInstr.byteSize, if_pos himportable.1, Nat.add_assoc]
  have hdelta := offsetDelta_lt (t i.m_pTarget) (o + i.byteSize)
  rw [RawInstr.argWord, rebuiltArg]
  cases hflags : opCodeFlags i.m_opcode with
  | branch8 =>
      have hop : operandSize i.m_opcode = 1 := by rw [operandSize, hflags]; rfl
      have hback := add_offsetDelta (o + i.byteSize) (htarget (by rw [hflags]; rfl))
      have hfits : fitsInt8 (offsetDelta (t i.m_pTarget) (o + i.byteSize)) = true := by
        simpa [isFar, hflags] using hfar
      simp only [operandWord, hflags, hop, RawInstr.operandOffset, OpCodeFlags.branchTarget,
        if_true]
      rw [signExtend8_of_fitsInt8 hdelta hfits]
      rwa [hsize, hop] at hback ⊢
  | branch32 =>
      have hop : operandSize i.m_opcode = 4 := by rw [operandSize, hflags]; rfl
      have hback := add_offsetDelta (o + i.byteSize) (htarget (by rw [hflags]; rfl))
      simp only [operandWord, hflags, hop, RawInstr.operandOffset, OpCodeFlags.branchTarget,
        if_true]
      rw [Nat.mod_eq_of_lt (show offsetDelta _ _ < 256 ^ 4 by omega)]
      rwa [hsize, hop] at hback ⊢
  | _ =>
      simp only [operandWord, hflags, OpCodeFlags.branchTarget, Bool.false_eq_true, if_false]

/-! ### The whole list -/

/-- The nodes that an import creates, from the address `a` on. -/
def rebuilt (t : ℕ → ℕ) : ℕ → List ILInstr → List ILInstr
  | _, [] => []
  | a, i :: is => ⟨a, i.m_opcode, 0, rebuiltArg t i⟩ :: rebuilt t (a + 1) is

theorem rebuilt_append (t : ℕ → ℕ) (il il' : List ILInstr) (a : ℕ) :
    rebuilt t a (il ++ il') = rebuilt t a il ++ rebuilt t (a + il.length) il' := by
  induction il generalizing a with
  | nil => rfl
  | cons i is ih =>
      rw [List.cons_append, rebuilt, ih, rebuilt, List.cons_append, List.length_cons,
        Nat.add_right_comm, Nat.add_assoc]

theorem slotNodes_rebuilt {t : ℕ → ℕ} {slots : List ILInstr}
    (h : ∀ j ∈ slots, j.m_opcode = ceeSwitchArg) (a : ℕ) :
    slotNodes a (slots.map fun j => t j.m_pTarget) = rebuilt t a slots := by
  induction slots generalizing a with
  | nil => rfl
  | cons j slots ih =>
      have hop := h j List.mem_cons_self
      have harg : rebuiltArg t j = t j.m_pTarget := by
        rw [rebuiltArg, hop, opCodeFlags_switchArg]
        rfl
      rw [List.map_cons, slotNodes, rebuilt, ih fun k hk => h k (List.mem_cons_of_mem j hk), hop,
        harg]

theorem byteSize_slot {j : ILInstr} (h : j.m_opcode = ceeSwitchArg) : j.byteSize = 4 := by
  rw [ILInstr.byteSize, h]
  decide

theorem totalSize_slots {slots : List ILInstr} (h : ∀ j ∈ slots, j.m_opcode = ceeSwitchArg) :
    totalSize slots = 4 * slots.length := by
  induction slots with
  | nil => rfl
  | cons j slots ih =>
      rw [totalSize_cons, byteSize_slot (h j List.mem_cons_self),
        ih fun k hk => h k (List.mem_cons_of_mem j hk), List.length_cons]
      omega

theorem totalSize_append (il il' : List ILInstr) :
    totalSize (il ++ il') = totalSize il + totalSize il' := by
  simp [totalSize]

/-- The bytes of slot nodes are the deltas of their targets. -/
theorem encodeFrom_slots {t : ℕ → ℕ} {slots : List ILInstr} {switchBase : ℕ} {is : List ILInstr}
    (h : ∀ j ∈ slots, j.m_opcode = ceeSwitchArg) (o : ℕ) :
    encodeFrom t o switchBase (slots ++ is)
      = (slots.map fun j => offsetDelta (t j.m_pTarget) switchBase).flatMap (leBytes 4)
        ++ encodeFrom t (o + totalSize slots) switchBase is := by
  induction slots generalizing o with
  | nil => rfl
  | cons j slots ih =>
      have hop := h j List.mem_cons_self
      have hbase : switchBaseBehind o switchBase j = switchBase := by
        rw [switchBaseBehind, if_neg (by rw [hop]; decide)]
      have hopcode : opcodeBytes j.m_opcode = [] := by rw [hop]; decide
      rw [List.cons_append, encodeFrom, hbase, hopcode, finalOperand, if_pos hop,
        ih fun k hk => h k (List.mem_cons_of_mem j hk), List.map_cons, List.flatMap_cons,
        totalSize_cons]
      simp only [List.nil_append, List.append_assoc, Nat.add_assoc]

theorem farFrom_append {t : ℕ → ℕ} {il il' : List ILInstr} {o : ℕ}
    (h : farFrom t o (il ++ il') = false) : farFrom t (o + totalSize il) il' = false := by
  induction il generalizing o with
  | nil => exact h
  | cons i is ih =>
      rw [List.cons_append, farFrom, Bool.or_eq_false_iff] at h
      rw [totalSize_cons, ← Nat.add_assoc]
      exact ih h.2

/-- What the records of a decoded list say: the nodes that the import builds out of them, and
where it finds the instructions. -/
structure ReadBack (t : ℕ → ℕ) (a o : ℕ) (il : List ILInstr) (is : List RawInstr) : Prop where
  nodes : nodesFrom a is = rebuilt t a il
  starts : ∀ pre i post, il = pre ++ i :: post → i.m_opcode ≠ ceeSwitchArg →
    startAddr a is (o + totalSize pre) = some (a + pre.length)

theorem byteSize_pos {i : ILInstr} (h : Importable i.m_opcode) : 0 < i.byteSize := by
  have := opcodeSize_pos i.m_opcode
  rw [ILInstr.byteSize, if_pos h.1]
  omega

/-- An instruction other than the slots of a switch stands behind all of them. -/
theorem behind_slots {slots is before after : List ILInstr} {k : ILInstr}
    (hslots : ∀ j ∈ slots, j.m_opcode = ceeSwitchArg) (hk : k.m_opcode ≠ ceeSwitchArg)
    (h : slots ++ is = before ++ k :: after) :
    ∃ rest, before = slots ++ rest ∧ is = rest ++ k :: after := by
  rcases List.append_eq_append_iff.mp h with ⟨rest, h₁, h₂⟩ | ⟨rest, h₁, h₂⟩
  · exact ⟨rest, h₁, h₂⟩
  · cases rest with
    | nil => exact ⟨[], by simpa using h₁.symm, by simpa using h₂.symm⟩
    | cons k' rest =>
        obtain ⟨rfl, -⟩ : k = k' ∧ _ := by simpa using h₂
        exact absurd (hslots k (by rw [h₁]; simp)) hk

/-- The record of an instruction and of its slots comes in front. -/
theorem ReadBack.cons {t : ℕ → ℕ} {a o : ℕ} {i : ILInstr} {slots is : List ILInstr}
    {r : RawInstr} {recs : List RawInstr} (hstart : r.offset = o) (hpos : 0 < i.byteSize)
    (hop : r.opcode = i.m_opcode) (harg : r.argWord = rebuiltArg t i)
    (hslots : ∀ j ∈ slots, j.m_opcode = ceeSwitchArg)
    (htargets : r.slotTargets = slots.map fun j => t j.m_pTarget)
    (h : ReadBack t (a + 1 + slots.length) (o + i.byteSize + totalSize slots) is recs) :
    ReadBack t a o (i :: (slots ++ is)) (r :: recs) := by
  have hbehind : addrBehind a r = a + 1 + slots.length := by
    have hlen := congrArg List.length htargets
    rw [RawInstr.slotTargets, List.length_map, List.length_map] at hlen
    rw [addrBehind, hlen]
  constructor
  · rw [nodesFrom, hbehind, h.nodes, rebuilt, rebuilt_append, instrNodes, hop, harg, htargets,
      slotNodes_rebuilt hslots]
    rfl
  · rintro (_ | ⟨j, before⟩) k after hsplit hk
    · rw [startAddr, if_pos (by simpa using hstart)]
      rfl
    · rw [List.cons_append, List.cons.injEq] at hsplit
      obtain ⟨rfl, hsplit⟩ := hsplit
      obtain ⟨rest, rfl, hrest⟩ := behind_slots hslots hk hsplit
      have hoff : o + totalSize (i :: (slots ++ rest))
          = o + i.byteSize + totalSize slots + totalSize rest := by
        rw [totalSize_cons, totalSize_append]
        omega
      rw [startAddr, if_neg (by omega), hbehind, hoff, h.starts rest k after hrest hk,
        List.length_cons, List.length_append]
      congr 1
      omega

theorem decodeAll_cons {o fuel : ℕ} {r : RawInstr} {recs : List RawInstr} (hlt : o < code.size)
    (hdecode : decodeInstr code o = .ok r) (hrest : decodeAll code fuel r.next = .ok recs) :
    decodeAll code (fuel + 1) o = .ok (r :: recs) := by
  rw [decodeAll, if_pos hlt, hdecode]
  show (decodeAll code fuel r.next >>= _) = _
  rw [hrest]
  rfl

/-- The words behind an exported switch: the deltas from the end of the table. -/
def tableWords (t : ℕ → ℕ) (o : ℕ) (i : ILInstr) (slots : List ILInstr) : List ℕ :=
  slots.map fun j => offsetDelta (t j.m_pTarget) ((o + 1 + 4 * (i.m_Arg32 + 1)) % 2 ^ 32)

theorem tableWords_length (t : ℕ → ℕ) (o : ℕ) (i : ILInstr) (slots : List ILInstr) :
    (tableWords t o i slots).length = slots.length := List.length_map _

theorem tableWords_mod (t : ℕ → ℕ) (o : ℕ) (i : ILInstr) (slots : List ILInstr) :
    (tableWords t o i slots).map (· % 2 ^ 32) = tableWords t o i slots := by
  rw [tableWords, List.map_map]
  exact List.map_congr_left fun j _ => Nat.mod_eq_of_lt (offsetDelta_lt _ _)

theorem encodedTable_length (t : ℕ → ℕ) (o : ℕ) (i : ILInstr) (slots : List ILInstr) :
    ((tableWords t o i slots).flatMap (leBytes 4)).length = 4 * slots.length := by
  rw [← tableWords_length t o i slots, List.length_flatMap]
  simp [Nat.mul_comm]

/-- The slots of the decoded switch lead where the slot nodes lead. -/
theorem slotTargets_tableWords {t : ℕ → ℕ} {o : ℕ} {i : ILInstr} {slots : List ILInstr}
    (hlen : slots.length = i.m_Arg32) (hlt : ∀ j ∈ slots, t j.m_pTarget < 2 ^ 32) :
    (RawInstr.mk o ceeSwitch slots.length (tableWords t o i slots)).slotTargets
      = slots.map fun j => t j.m_pTarget := by
  rw [RawInstr.slotTargets, tableWords, List.map_map]
  refine List.map_congr_left fun j hj => ?_
  have hdelta := add_offsetDelta ((o + 1 + 4 * (i.m_Arg32 + 1)) % 2 ^ 32) (hlt j hj)
  rw [hlen]
  show (o + 1 + 4 + 4 * i.m_Arg32 + offsetDelta (t j.m_pTarget) _) % 2 ^ 32 = _
  omega

/-- The bytes of a switch and its slot nodes: the opcode, the count and the table. -/
theorem encodeFrom_switch {t : ℕ → ℕ} {o switchBase : ℕ} {i : ILInstr} {slots is : List ILInstr}
    (hop : i.m_opcode = ceeSwitch) (hlen : slots.length = i.m_Arg32)
    (hslots : ∀ j ∈ slots, j.m_opcode = ceeSwitchArg) :
    encodeFrom t o switchBase (i :: (slots ++ is))
      = opcodeBytes ceeSwitch ++ (leBytes 4 slots.length
        ++ ((tableWords t o i slots).flatMap (leBytes 4)
          ++ encodeFrom t (o + i.byteSize + totalSize slots)
            ((o + 1 + 4 * (i.m_Arg32 + 1)) % 2 ^ 32) is)) := by
  have hoperand : finalOperand t o switchBase i = leBytes 4 slots.length := by
    rw [finalOperand_eq (by rw [hop]; decide), operandWord, operandSize, hop, opCodeFlags_switch,
      hlen]
    exact (leBytes_mod 4 i.m_Arg64).symm
  rw [encodeFrom, hoperand, switchBaseBehind, if_pos hop, encodeFrom_slots hslots, hop,
    tableWords]
  simp only [List.append_assoc]

/-- **Decoding an exported list**, from any of its instructions on. -/
theorem decodeAll_encodeFrom {t : ℕ → ℕ} {il : List ILInstr} (htables : SwitchTables il) :
    ∀ (a o switchBase fuel : ℕ) (pre : List UInt8),
      code.bytes = pre ++ encodeFrom t o switchBase il → pre.length = o →
      code.size = o + totalSize il → totalSize il ≤ fuel →
      (∀ i ∈ il, (opCodeFlags i.m_opcode).branchTarget = true → t i.m_pTarget < 2 ^ 32) →
      farFrom t o il = false →
      ∃ is, decodeAll code fuel o = .ok is ∧ ReadBack t a o il is := by
  induction htables with
  | nil =>
      intro a o switchBase fuel pre hbytes hpre hsize hfuel htargets hfar
      refine ⟨[], ?_, ⟨rfl, fun pre i post h _ => by simp at h⟩⟩
      cases fuel with
      | zero => rfl
      | succ fuel => rw [decodeAll, if_neg (by rw [hsize]; simp)]
  | @instr i is himportable hne _ ih =>
      intro a o switchBase fuel pre hbytes hpre hsize hfuel htargets hfar
      have hpos := byteSize_pos himportable
      rw [totalSize_cons] at hsize hfuel
      rw [farFrom, Bool.or_eq_false_iff] at hfar
      rw [encodeFrom, finalOperand_eq himportable.ne_switchArg] at hbytes
      obtain ⟨fuel, rfl⟩ : ∃ n, fuel = n + 1 := ⟨fuel - 1, by omega⟩
      rw [List.append_assoc] at hbytes
      have hdecode := decodeInstr_encoded himportable hne hbytes
      rw [hpre] at hdecode
      have hnext : (RawInstr.mk o i.m_opcode
          (operandWord t o i % 256 ^ operandSize i.m_opcode) []).next = o + i.byteSize := by
        rw [ILInstr.byteSize, if_pos himportable.1]
        simp [RawInstr.next, RawInstr.operandOffset, Nat.add_assoc]
      obtain ⟨recs, hrecs, hback⟩ := ih (a + 1) (o + i.byteSize)
        (switchBaseBehind o switchBase i) fuel
        (pre ++ (opcodeBytes i.m_opcode ++ leBytes (operandSize i.m_opcode) (operandWord t o i)))
        (by rw [hbytes]; simp)
        (by rw [List.length_append, patched_length i _ _ rfl, hpre])
        (by omega) (by omega) (fun j hj => htargets j (List.mem_cons_of_mem i hj)) hfar.2
      have harg := argWord_encoded himportable hfar.1 (htargets i List.mem_cons_self) []
      refine ⟨⟨o, i.m_opcode, operandWord t o i % 256 ^ operandSize i.m_opcode, []⟩ :: recs, ?_,
        ReadBack.cons rfl hpos rfl harg (fun j hj => absurd hj List.not_mem_nil) rfl hback⟩
      exact decodeAll_cons (by omega) hdecode (by rw [hnext]; exact hrecs)
  | @switch i slots is hop hlen hslots _ ih =>
      intro a o switchBase fuel pre hbytes hpre hsize hfuel htargets hfar
      have hbyteSize : i.byteSize = 5 := by rw [ILInstr.byteSize, hop]; decide
      have hslotsSize := totalSize_slots hslots
      rw [totalSize_cons, totalSize_append] at hsize hfuel
      rw [farFrom, Bool.or_eq_false_iff] at hfar
      obtain ⟨fuel, rfl⟩ : ∃ n, fuel = n + 1 := ⟨fuel - 1, by omega⟩
      have hcount : (tableWords t o i slots).length < 2 ^ 32 := by
        rw [tableWords_length, hlen]
        exact Nat.mod_lt _ (by decide)
      rw [encodeFrom_switch hop hlen hslots, ← tableWords_length t o i slots] at hbytes
      have hdecode := decodeInstr_encoded_switch rfl hcount hbytes
      rw [hpre, tableWords_mod, tableWords_length] at hdecode
      rw [tableWords_length] at hbytes
      have hnext : (RawInstr.mk o ceeSwitch slots.length (tableWords t o i slots)).next
          = o + i.byteSize + totalSize slots := by
        rw [hslotsSize, hbyteSize, RawInstr.next, tableWords_length]
        rfl
      obtain ⟨recs, hrecs, hback⟩ := ih (a + 1 + slots.length) (o + i.byteSize + totalSize slots)
        ((o + 1 + 4 * (i.m_Arg32 + 1)) % 2 ^ 32) fuel
        (pre ++ (opcodeBytes ceeSwitch
          ++ (leBytes 4 slots.length ++ (tableWords t o i slots).flatMap (leBytes 4))))
        (by rw [hbytes]; simp only [List.append_assoc])
        (by
          simp only [List.length_append, leBytes_length, encodedTable_length, hpre]
          rw [opcodeBytes_importable (by decide), hslotsSize, hbyteSize]
          show o + (1 + _) = _
          omega)
        (by omega) (by omega)
        (fun j hj => htargets j (List.mem_cons_of_mem i (List.mem_append_right slots hj)))
        (farFrom_append hfar.2)
      have harg : (RawInstr.mk o ceeSwitch slots.length (tableWords t o i slots)).argWord
          = rebuiltArg t i := by
        rw [rebuiltArg, hop, operandSize_switch, opCodeFlags_switch, hlen]
        rfl
      have hslotTargets := slotTargets_tableWords (o := o) hlen fun j hj =>
        htargets j (List.mem_cons_of_mem i (List.mem_append_left is hj)) (by rw [hslots j hj]; rfl)
      refine ⟨⟨o, ceeSwitch, slots.length, tableWords t o i slots⟩ :: recs, ?_,
        ReadBack.cons rfl (by omega) hop.symm harg hslots hslotTargets hback⟩
      exact decodeAll_cons (by omega) hdecode (by rw [hnext]; exact hrecs)

end TestExecutor
