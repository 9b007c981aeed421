import TestExecutor.Rewriter.Imported

/-!
# Three ways to lay a body out

The byte offsets of a list are computed by three loops: `ImportIL` reads them off while it decodes,
`countOffsets` adds up sizes, and the first pass of `Export` moves on as it writes.  Each has its
own `offset` here and moves it as the source does.

* `decodingLoop` — the loop of `ImportIL`, with a record of the byte offset that every node was
  decoded at (`decodingLoop_eq`: it makes the nodes that `importLoop` makes);
* `countLoop` — the loop of `countOffsets` (`countLoop_eq`);
* `emissionLoop` — the first pass of `Export`, with its stores into the output buffer
  (`emissionLoop_nodes`, `emissionLoop_stop`);
* `LayoutsAgree`, `importIL_layoutsAgree` — on an imported list the three agree.
-/

namespace TestExecutor

open TestExecutor.Library

/-! ### The decoding loop -/

/-- The slots of a switch table: a node for each, the byte offsets they were read at, and the
`offset` behind them. -/
def decodingSlots (code : IlCode) (base : ℕ) :
    ℕ → ℕ → ILRewriter → Except RewriteError (ILRewriter × List (ℕ × ℕ) × ℕ)
  | 0, offset, s => .ok (s, [], offset)
  | n + 1, offset, s =>
      if offset + 4 > code.size then .error .corEInvalidProgram
      else do
        let (s', places, stop) ← decodingSlots code base n (offset + 4)
          (s.appendNode ceeSwitchArg ((base + code.word offset 4) % 2 ^ 32))
        pure (s', (s.fresh, offset) :: places, stop)

/-- The opcode at `offset`, and the `offset` behind it. -/
def decodingOpcode (code : IlCode) (offset : ℕ) : Except RewriteError (ℕ × ℕ) :=
  let opcode := code.word offset 1
  let offset := offset + 1
  if opcode = ceePrefix1 then
    if offset ≥ code.size then .error .corEInvalidProgram
    else .ok (0x100 + code.word offset 1, offset + 1)
  else .ok (opcode, offset)

/-- The node of an instruction at the end of the list, and in the table. -/
def appendInstr (s : ILRewriter) (startOffset opcode arg : ℕ) : ILRewriter :=
  { s.appendNode opcode arg with
    m_pOffsetToInstr := Function.update s.m_pOffsetToInstr startOffset s.fresh }

/-- The body of the loop: the list with the new nodes, the byte offsets of these, and the `offset`
behind the instruction. -/
def decodingRound (code : IlCode) (startOffset : ℕ) (s : ILRewriter) :
    Except RewriteError (ILRewriter × List (ℕ × ℕ) × ℕ) := do
  let (opcode, offset) ← decodingOpcode code startOffset
  if ceePrefix7 ≤ opcode ∧ opcode ≤ ceePrefix2 then .error .corEInvalidProgram
  else if opcode ≥ ceeCount then .error .corEInvalidProgram
  else
    let flags := opCodeFlags opcode
    let size := flags.sizeMask
    if offset + size > code.size then .error .corEInvalidProgram
    else
      let place := (s.fresh, startOffset)
      match flags with
      | .branch8 =>
          let arg := (offset + 1 + signExtend8 (code.word offset 1)) % 2 ^ 32
          pure (appendInstr s startOffset opcode arg, [place], offset + size)
      | .branch32 =>
          let arg := (offset + 4 + code.word offset 4) % 2 ^ 32
          pure (appendInstr s startOffset opcode arg, [place], offset + size)
      | .switch =>
          if offset + 4 > code.size then .error .corEInvalidProgram
          else do
            let nTargets := code.word offset 4
            let offset := offset + 4
            let base := offset + 4 * nTargets
            let (s', places, offset) ← decodingSlots code base nTargets offset
              (appendInstr s startOffset opcode nTargets)
            pure (s', place :: places, offset + size)
      | .arg0 | .arg8 | .arg16 | .arg32 | .arg64 =>
          pure (appendInstr s startOffset opcode (code.word offset size), [place], offset + size)

/-- The loop, with the address of every node and the byte offset it was decoded at. -/
def decodingLoop (code : IlCode) :
    ℕ → ℕ → ILRewriter → Except RewriteError (ILRewriter × List (ℕ × ℕ))
  | 0, _, s => .ok (s, [])
  | fuel + 1, offset, s =>
      if offset < code.size then do
        let (s', places, next) ← decodingRound code offset s
        let (s'', rest) ← decodingLoop code fuel next s'
        pure (s'', places ++ rest)
      else .ok (s, [])

/-! ### Counting -/

/-- The `offset` of `countOffsets` behind a node. -/
def countInstr (offset : ℕ) (i : ILInstr) : ℕ :=
  let opcode := i.m_opcode
  let offset :=
    if opcode < ceeCount then (if opcode ≥ 0x100 then offset + 1 else offset) + 1 else offset
  let flags := opCodeFlags opcode
  let offset :=
    match flags with
    | .arg0 | .arg8 | .arg16 | .arg32 | .arg64 | .branch8 | .branch32 => offset
    | .switch => offset + 4
  offset + flags.sizeMask

def countLoop : ℕ → List ILInstr → List ILInstr
  | _, [] => []
  | offset, i :: is => { i with m_offset := offset } :: countLoop (countInstr offset i) is

/-! ### Emission -/

/-- A store into the output buffer: consecutive bytes from an index on. -/
structure BufferStore where
  index : ℕ
  bytes : List UInt8
  deriving DecidableEq, Repr

/-- The stores of an opcode, and the `offset` behind it. -/
def emitOpcode (offset opcode : ℕ) : List BufferStore × ℕ :=
  if opcode < ceeCount then
    if opcode ≥ 0x100 then
      ([⟨offset, [UInt8.ofNat ceePrefix1]⟩, ⟨offset + 1, [UInt8.ofNat opcode]⟩], offset + 1 + 1)
    else ([⟨offset, [UInt8.ofNat opcode]⟩], offset + 1)
  else ([], offset)

/-- The stores of an operand, and the `offset` behind it; the operand of a branch is left open. -/
def emitOperand (offset : ℕ) (i : ILInstr) : List BufferStore × ℕ :=
  let flags := opCodeFlags i.m_opcode
  let (stores, offset) :=
    match flags with
    | .arg0 | .branch8 | .branch32 => ([], offset)
    | .arg8 => ([⟨offset, leBytes 1 i.m_Arg8⟩], offset)
    | .arg16 => ([⟨offset, leBytes 2 i.m_Arg16⟩], offset)
    | .arg32 => ([⟨offset, leBytes 4 i.m_Arg32⟩], offset)
    | .arg64 => ([⟨offset, leBytes 8 i.m_Arg64⟩], offset)
    | .switch => ([⟨offset, leBytes 4 i.m_Arg32⟩], offset + 4)
  (stores, offset + flags.sizeMask)

/-- The first pass of `Export`: the nodes with their offsets, the stores in order, and the `offset`
behind them all. -/
def emissionLoop : ℕ → List ILInstr → List ILInstr × List BufferStore × ℕ
  | offset, [] => ([], [], offset)
  | offset, i :: is =>
      let (opcodeStores, operandOffset) := emitOpcode offset i.m_opcode
      let (operandStores, next) := emitOperand operandOffset i
      let (nodes, stores, stop) := emissionLoop next is
      ({ i with m_offset := offset } :: nodes, opcodeStores ++ operandStores ++ stores, stop)

/-! ### What the decoding loop records -/

/-- The slots of a table, from an address and a byte offset on. -/
def slotPlaces : ℕ → ℕ → ℕ → List (ℕ × ℕ)
  | _, _, 0 => []
  | a, o, n + 1 => (a, o) :: slotPlaces (a + 1) (o + 4) n

/-- An instruction and its slots. -/
def instrPlaces (a : ℕ) (i : RawInstr) : List (ℕ × ℕ) :=
  (a, i.offset) :: slotPlaces (a + 1) (i.operandOffset + operandSize i.opcode) i.slots.length

def placesFrom : ℕ → List RawInstr → List (ℕ × ℕ)
  | _, [] => []
  | a, i :: is => instrPlaces a i ++ placesFrom (addrBehind a i) is

theorem decodingOpcode_eq (code : IlCode) (offset : ℕ) : decodingOpcode code offset
    = (decodeOpcode code offset).map fun opcode => (opcode, offset + opcodeSize opcode) := by
  have hlt := code.word_one_lt offset
  unfold decodingOpcode decodeOpcode
  dsimp only
  split
  · split
    · rfl
    · have hsize : opcodeSize (0x100 + code.word (offset + 1) 1) = 2 := if_pos (by omega)
      show Except.ok (_, offset + 1 + 1) = Except.ok (_, offset + opcodeSize _)
      rw [hsize]
  · have hsize : opcodeSize (code.word offset 1) = 1 := if_neg (by omega)
    show Except.ok (_, offset + 1) = Except.ok (_, offset + opcodeSize _)
    rw [hsize]

theorem decodingSlots_eq (code : IlCode) (base n : ℕ) : ∀ (offset : ℕ) (s : ILRewriter),
    decodingSlots code base n offset s = (decodeSlots code n offset).map fun slots =>
      ((slots.map fun raw => (base + raw) % 2 ^ 32).foldl
          (fun s target => s.appendNode ceeSwitchArg target) s,
        slotPlaces s.fresh offset slots.length, offset + 4 * n) := by
  induction n with
  | zero => intro offset s; rfl
  | succ n ih =>
      intro offset s
      rw [decodingSlots, decodeSlots]
      split
      · rfl
      · rw [ih]
        cases decodeSlots code n (offset + 4) with
        | error e => rfl
        | ok slots =>
            have hstop : offset + 4 + 4 * n = offset + 4 * (n + 1) := by omega
            show Except.ok (_, _, offset + 4 + 4 * n) = Except.ok (_, _, offset + 4 * (n + 1))
            rw [hstop]
            rfl

/-- A round with a switch, whose table has been read. -/
theorem decodedRound_switch (s : ILRewriter) {opcode offset n : ℕ} {slots : List ℕ}
    (hflags : opCodeFlags opcode = .switch) (hlen : n = slots.length) :
    ((slots.map fun raw => (offset + opcodeSize opcode + 4 + 4 * n + raw) % 2 ^ 32).foldl
          (fun s target => s.appendNode ceeSwitchArg target) (appendInstr s offset opcode n),
        (s.fresh, offset) :: slotPlaces (s.fresh + 1) (offset + opcodeSize opcode + 4) slots.length,
        offset + opcodeSize opcode + 4 + 4 * n + OpCodeFlags.switch.sizeMask)
      = (s.importInstr ⟨offset, opcode, n, slots⟩, instrPlaces s.fresh ⟨offset, opcode, n, slots⟩,
        (⟨offset, opcode, n, slots⟩ : RawInstr).next) := by
  have hsize : operandSize opcode = 4 := by rw [operandSize, hflags]
  have harg : (⟨offset, opcode, n, slots⟩ : RawInstr).argWord = n := by
    rw [RawInstr.argWord, hflags]
  have hnodes : s.importInstr ⟨offset, opcode, n, slots⟩
      = (slots.map fun raw => (offset + opcodeSize opcode + 4 + 4 * n + raw) % 2 ^ 32).foldl
        (fun s target => s.appendNode ceeSwitchArg target) (appendInstr s offset opcode n) := by
    rw [ILRewriter.importInstr, harg]
    rfl
  rw [hnodes, instrPlaces, RawInstr.next, RawInstr.operandOffset, hsize, hlen]
  rfl

/-- A round with any other instruction. -/
theorem decodedRound_plain (s : ILRewriter) {opcode offset operand arg : ℕ} {flags : OpCodeFlags}
    (hflags : opCodeFlags opcode = flags) (hne : flags ≠ .switch)
    (harg : (⟨offset, opcode, operand, []⟩ : RawInstr).argWord = arg) :
    (appendInstr s offset opcode arg, [(s.fresh, offset)],
        offset + opcodeSize opcode + flags.sizeMask)
      = (s.importInstr ⟨offset, opcode, operand, []⟩,
        instrPlaces s.fresh ⟨offset, opcode, operand, []⟩,
        (⟨offset, opcode, operand, []⟩ : RawInstr).next) := by
  have hsize : operandSize opcode = flags.sizeMask := by
    rw [← hflags] at hne ⊢
    exact operandSize_of_ne_switch hne
  have hnodes : s.importInstr ⟨offset, opcode, operand, []⟩ = appendInstr s offset opcode arg := by
    rw [ILRewriter.importInstr, harg]
    rfl
  rw [hnodes, instrPlaces, RawInstr.next, RawInstr.operandOffset, hsize]
  rfl

/-- A round appends the nodes of one instruction, and records where it read them. -/
theorem decodingRound_eq (code : IlCode) (offset : ℕ) (s : ILRewriter) :
    decodingRound code offset s = (decodeInstr code offset).map fun i =>
      (s.importInstr i, instrPlaces s.fresh i, i.next) := by
  unfold decodingRound decodeInstr
  rw [decodingOpcode_eq]
  cases decodeOpcode code offset with
  | error e => rfl
  | ok opcode =>
      show (if _ then _ else _) = Except.map _ (if _ then _ else _)
      split
      · rfl
      · split
        · rfl
        · dsimp only
          split
          · rfl
          · cases hflags : opCodeFlags opcode with
            | switch =>
                rw [if_pos rfl]
                dsimp only
                split
                · rfl
                · rw [decodingSlots_eq]
                  cases hslots : decodeSlots code (code.word (offset + opcodeSize opcode) 4)
                      (offset + opcodeSize opcode + 4) with
                  | error e => rfl
                  | ok slots =>
                      obtain ⟨hlen, -, -⟩ := decodeSlots_spec hslots
                      exact congrArg Except.ok (decodedRound_switch s hflags hlen.symm)
            | branch8 | branch32 =>
                simp only [reduceCtorEq, if_false]
                refine congrArg Except.ok (decodedRound_plain s hflags (by decide) ?_)
                rw [RawInstr.argWord, hflags]
                rfl
            | arg0 | arg8 | arg16 | arg32 | arg64 =>
                simp only [reduceCtorEq, if_false]
                refine congrArg Except.ok (decodedRound_plain s hflags (by decide) ?_)
                rw [RawInstr.argWord, hflags]

theorem foldl_appendNode_fresh (targets : List ℕ) (s : ILRewriter) :
    (targets.foldl (fun s target => s.appendNode ceeSwitchArg target) s).fresh
      = s.fresh + targets.length := by
  induction targets generalizing s with
  | nil => rfl
  | cons target targets ih =>
      rw [List.foldl_cons, ih, List.length_cons]
      show s.fresh + 1 + targets.length = _
      omega

theorem importInstr_fresh (s : ILRewriter) (i : RawInstr) :
    (s.importInstr i).fresh = addrBehind s.fresh i := by
  refine (foldl_appendNode_fresh i.slotTargets _).trans ?_
  rw [RawInstr.slotTargets, List.length_map]
  rfl

/-- **The loop** makes the nodes that `importLoop` makes. -/
theorem decodingLoop_eq (code : IlCode) (fuel : ℕ) : ∀ (offset : ℕ) (s : ILRewriter),
    decodingLoop code fuel offset s = (decodeAll code fuel offset).map fun is =>
      (is.foldl ILRewriter.importInstr s, placesFrom s.fresh is) := by
  induction fuel with
  | zero => intro offset s; rfl
  | succ fuel ih =>
      intro offset s
      rw [decodingLoop, decodeAll]
      split
      · rw [decodingRound_eq]
        cases decodeInstr code offset with
        | error e => rfl
        | ok i =>
            show (decodingLoop code fuel i.next (s.importInstr i) >>= _) = Except.map _
              (decodeAll code fuel i.next >>= _)
            rw [ih, importInstr_fresh]
            cases decodeAll code fuel i.next with
            | error e => rfl
            | ok is => rfl
      · rfl

/-! ### Sizes of the nodes -/

theorem countInstr_eq (offset : ℕ) (i : ILInstr) : countInstr offset i = offset + i.byteSize := by
  unfold countInstr ILInstr.byteSize operandSize opcodeSize
  dsimp only
  cases opCodeFlags i.m_opcode <;> dsimp only [OpCodeFlags.sizeMask] <;> split_ifs <;> omega

theorem countLoop_eq (offset : ℕ) (il : List ILInstr) :
    countLoop offset il = countOffsetsFrom offset il := by
  induction il generalizing offset with
  | nil => rfl
  | cons i is ih => rw [countLoop, ih, countInstr_eq, countOffsetsFrom]

theorem emitOpcode_next (offset opcode : ℕ) : (emitOpcode offset opcode).2
    = offset + if opcode < ceeCount then opcodeSize opcode else 0 := by
  unfold emitOpcode opcodeSize
  split_ifs <;> rfl

theorem emitOperand_next (offset : ℕ) (i : ILInstr) :
    (emitOperand offset i).2 = offset + operandSize i.m_opcode := by
  unfold emitOperand operandSize
  cases opCodeFlags i.m_opcode <;> rfl

/-- The first pass moves on by the size of every node. -/
theorem emissionLoop_cons (offset : ℕ) (i : ILInstr) (is : List ILInstr) :
    emissionLoop offset (i :: is)
      = ({ i with m_offset := offset } :: (emissionLoop (offset + i.byteSize) is).1,
        (emitOpcode offset i.m_opcode).1
          ++ (emitOperand (emitOpcode offset i.m_opcode).2 i).1
          ++ (emissionLoop (offset + i.byteSize) is).2.1,
        (emissionLoop (offset + i.byteSize) is).2.2) := by
  have hnext : (emitOperand (emitOpcode offset i.m_opcode).2 i).2 = offset + i.byteSize := by
    rw [emitOperand_next, emitOpcode_next, ILInstr.byteSize, Nat.add_assoc]
  rw [← hnext]
  rfl

theorem emissionLoop_nodes (offset : ℕ) (il : List ILInstr) :
    (emissionLoop offset il).1 = countOffsetsFrom offset il := by
  induction il generalizing offset with
  | nil => rfl
  | cons i is ih => rw [emissionLoop_cons, countOffsetsFrom, ih]

theorem emissionLoop_stop (offset : ℕ) (il : List ILInstr) :
    (emissionLoop offset il).2.2 = offset + totalSize il := by
  induction il generalizing offset with
  | nil => rfl
  | cons i is ih => rw [emissionLoop_cons, ih, totalSize_cons, Nat.add_assoc]

/-! ### Agreement -/

theorem tableNodes_places (t : ℕ → ℕ) (targets : List ℕ) (a o : ℕ) :
    (tableNodes t a o targets).map (fun i => (i.addr, i.m_offset))
      = slotPlaces a o targets.length := by
  induction targets generalizing a o with
  | nil => rfl
  | cons target targets ih => rw [tableNodes, List.map_cons, ih, List.length_cons, slotPlaces]

theorem importedNodes_places (t : ℕ → ℕ) (is : List RawInstr) (a : ℕ) :
    (importedNodes t a is).map (fun i => (i.addr, i.m_offset)) = placesFrom a is := by
  induction is generalizing a with
  | nil => rfl
  | cons i is ih =>
      rw [importedNodes, List.map_cons, List.map_append, ih, RawInstr.tableNodes, tableNodes_places,
        instrNode_addr, instrNode_offset, RawInstr.slotTargets, List.length_map]
      rfl

/-- The nodes of instructions are in the table of instruction starts. -/
theorem startAddr_node {t : ℕ → ℕ} {is : List RawInstr} {o stop : ℕ} (hcons : Consecutive o is stop)
    {a : ℕ} {j : ILInstr} (hj : j ∈ importedNodes t a is) (hinstr : j.m_opcode ≠ ceeSwitchArg) :
    startAddr a is j.m_offset = some j.addr := by
  induction is generalizing o a with
  | nil => exact absurd hj List.not_mem_nil
  | cons i is ih =>
      obtain ⟨-, hrest⟩ := hcons
      rw [startAddr]
      cases hj with
      | head => rw [instrNode_offset, if_pos rfl, instrNode_addr]
      | tail _ hj =>
          rcases List.mem_append.mp hj with hslot | hj
          · exact absurd (tableNodes_opcode hslot) hinstr
          · have hlt := i.offset_lt_next
            have hle := (importedNodes_offset hrest hj).1
            rw [if_neg (by omega)]
            exact ih hrest hj

/-- What the three loops have to say of the list that `ImportIL` makes of a body. -/
structure LayoutsAgree (code : IlCode) (s₀ s : ILRewriter) : Prop where
  /-- The counted offset of every node is the one it was decoded at. -/
  decoded : ∃ s', decodingLoop code code.size 0 { s₀ with
      m_CodeSize := code.size
      m_pOffsetToInstr := Function.update (fun _ => nullPtr) code.size pIL }
    = .ok (s', (countLoop 0 s.m_IL).map fun i => (i.addr, i.m_offset)) ∧ s = s'.resolveTargets
  /-- The table has every node but the slots at its offset. -/
  table : ∀ i ∈ countLoop 0 s.m_IL, i.m_opcode ≠ ceeSwitchArg →
    s.m_pOffsetToInstr i.m_offset = i.addr
  increasing : ((countLoop 0 s.m_IL).map ILInstr.m_offset).Pairwise (· < ·)
  emitted : (emissionLoop 0 s.m_IL).1 = countLoop 0 s.m_IL

/-- **The three layouts agree** on every body that `ImportIL` accepts. -/
theorem importIL_layoutsAgree {code : IlCode} {s : ILRewriter} (sig maxStack flags : ℕ)
    (h : ILRewriter.importIL { ILRewriter.new with
      m_tkLocalVarSig := sig
      m_maxStack := maxStack
      m_flags := flags } code = .ok s) :
    LayoutsAgree code { ILRewriter.new with
      m_tkLocalVarSig := sig
      m_maxStack := maxStack
      m_flags := flags } s := by
  obtain ⟨is, hdecode, hcons, hdec, -, hsize, hlookup, hIL⟩ := importIL_spec rfl rfl h
  have hlist : countLoop 0 s.m_IL = importedNodes (targetOf is code.size) (pIL + 1) is := by
    rw [countLoop_eq, hIL]
    exact countOffsetsFrom_nodesFrom hcons (fun i hi => (hdec i hi).opcode_lt) _
  constructor
  · rw [ILRewriter.importIL_eq, hdecode] at h
    rw [decodingLoop_eq, hdecode, hlist, importedNodes_places]
    exact ⟨_, rfl, (Except.ok.inj h).symm⟩
  · intro i hi hinstr
    rw [hlist] at hi
    have hlt := (importedNodes_offset hcons hi).2
    have hentry := hlookup i.m_offset
    rw [ILRewriter.getInstrFromOffset, if_pos (by omega), targetOf, if_neg (by omega),
      startAddr_node hcons hi hinstr] at hentry
    exact hentry
  · rw [hlist]
    exact importedNodes_offsets_pairwise hcons _
  · rw [emissionLoop_nodes, countLoop_eq]

/-- A switch with one slot, and a two-byte opcode. -/
def switchCode : IlCode :=
  ⟨[0x16, 0x45, 0x01, 0, 0, 0, 0, 0, 0, 0, 0xFE, 0x1A], by decide⟩

theorem importIL_layoutsAgree_switch : ∃ s, ILRewriter.new.importIL switchCode = .ok s
    ∧ LayoutsAgree switchCode ILRewriter.new s := by
  obtain ⟨s, hs⟩ : ∃ s, ILRewriter.new.importIL switchCode = .ok s := ⟨_, rfl⟩
  exact ⟨s, hs, importIL_layoutsAgree 0 0 0 hs⟩

end TestExecutor
