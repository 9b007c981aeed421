import TestExecutor.Library.Forall2
import TestExecutor.IL.MethodInstrBuilder
import TestExecutor.Rewriter.Import

/-!
# Where the two decoders agree

The rewriter's `ImportIL` and the managed `build` over the same bytes.

* `buildInstrs_eq` — without a `switch` the builder's loop steps exactly like the rewriter's;
* `headNodes`, `heads_forall₂` — the nodes of the instructions themselves, one for each;
* `DecodersAgree` — one instruction per such node, with its opcode and its byte offset;
* `decodersAgree_iff` — the decoders agree exactly on the bodies without a `switch`, whose table
  the builder takes for instructions.
-/

namespace TestExecutor

open TestExecutor.Library

/-! ### One instruction -/

/-- On assigned opcodes the managed table holds the opcode that the rewriter decodes. -/
theorem getOpCode_of_decodeOpcode {code : IlCode} {offset opcode : ℕ}
    (h : decodeOpcode code offset = .ok opcode) (hassigned : Assigned opcode) :
    getOpCode code offset = .ok opcode := by
  simp only [decodeOpcode] at h
  rw [getOpCode]
  split at h
  · rename_i hlead
    split at h
    · cases h
    · rename_i hfits
      obtain rfl := Except.ok.inj h
      rw [if_neg (by simp [isSingleByteOpCode, hlead]), if_neg hfits, twoBytesOpCodes,
        if_pos hassigned]
  · rename_i hlead
    obtain rfl := Except.ok.inj h
    rw [if_pos (by simpa [isSingleByteOpCode] using hlead), singleByteOpCodes, if_pos hassigned]

/-- The two size tables differ at `switch` only. -/
theorem instrOperandSize_eq {opcode : ℕ} (hlt : opcode < ceeCount) (hne : opcode ≠ ceeSwitch) :
    instrOperandSize (opArgs opcode) = operandSize opcode := by
  have hflags : opCodeFlags opcode ≠ .switch := fun h => hne (opCodeFlags_eq_switch_iff.mp h)
  have harg : opcode ≠ ceeSwitchArg := by
    intro heq
    rw [heq] at hlt
    exact absurd hlt (by decide)
  rw [operandSize_of_ne_switch hflags]
  rw [opCodeFlags, if_neg harg] at hflags ⊢
  revert hflags
  cases opArgs opcode <;> simp [instrOperandSize, OperandType.flags, OpCodeFlags.sizeMask]

/-- The builder's view of a decoded instruction. -/
def RawInstr.toIlInstr (i : RawInstr) : IlInstr := ⟨i.opcode, i.offset⟩

theorem toIlInstr_size {code : IlCode} {i : RawInstr} (h : DecodedAt code i.offset i)
    (hne : i.opcode ≠ ceeSwitch) : i.offset + i.toIlInstr.size = i.next := by
  have hslots : i.slots.length = 0 := by rw [h.slots_length, if_neg hne]
  have hsize := instrOperandSize_eq h.opcode_lt hne
  unfold IlInstr.size RawInstr.toIlInstr RawInstr.next RawInstr.operandOffset
  dsimp only
  omega

/-- Without a `switch` the builder's loop steps exactly like the rewriter's. -/
theorem buildInstrs_eq {code : IlCode} (fuel : ℕ) : ∀ (offset : ℕ) (is : List RawInstr),
    decodeAll code fuel offset = .ok is → (∀ i ∈ is, Assigned i.opcode ∧ i.opcode ≠ ceeSwitch) →
      buildInstrs code fuel offset = .ok (is.map RawInstr.toIlInstr) := by
  induction fuel with
  | zero =>
      intro offset is h _
      obtain rfl : [] = is := Except.ok.inj h
      rfl
  | succ fuel ih =>
      intro offset is h hall
      rw [decodeAll] at h
      rw [buildInstrs]
      split at h
      · rename_i hinside
        cases hi : decodeInstr code offset with
        | error e => rw [hi] at h; cases h
        | ok i =>
            rw [hi] at h
            change (do let is ← decodeAll code fuel i.next; pure (i :: is)) = _ at h
            cases hrest : decodeAll code fuel i.next with
            | error e => rw [hrest] at h; cases h
            | ok rest =>
                rw [hrest] at h
                obtain rfl : i :: rest = is := Except.ok.inj h
                have hdec := decodeInstr_spec hi
                obtain rfl := hdec.offset_eq
                obtain ⟨hassigned, hne⟩ := hall i List.mem_cons_self
                have hsize := toIlInstr_size hdec hne
                have hop := getOpCode_of_decodeOpcode hdec.opcode_eq hassigned
                have hnext := hdec.next_le
                have htail := ih i.next rest hrest fun j hj => hall j (List.mem_cons_of_mem i hj)
                rw [if_pos hinside, hop]
                show (if i.offset + i.toIlInstr.size > code.size then _ else do
                  let rest ← buildInstrs code fuel (i.offset + i.toIlInstr.size)
                  pure (i.toIlInstr :: rest)) = _
                rw [hsize, if_neg (by omega), htail]
                rfl
      · rename_i houtside
        obtain rfl : [] = is := Except.ok.inj h
        rw [if_neg houtside]
        rfl

/-! ### The nodes of the instructions -/

/-- The nodes other than the switch-argument nodes. -/
def ILRewriter.headNodes (s : ILRewriter) : List ILInstr :=
  s.m_IL.filter fun n => n.m_opcode ≠ ceeSwitchArg

theorem slotNodes_opcode {a : ℕ} {targets : List ℕ} {n : ILInstr} (h : n ∈ slotNodes a targets) :
    n.m_opcode = ceeSwitchArg := by
  induction targets generalizing a with
  | nil => simp [slotNodes] at h
  | cons target targets ih =>
      rcases List.mem_cons.mp h with rfl | h
      · rfl
      · exact ih h

theorem startAddr_lt {is : List RawInstr} {a o p : ℕ} (h : startAddr a is o = some p) : a ≤ p := by
  induction is generalizing a with
  | nil => cases h
  | cons i is ih =>
      rw [startAddr] at h
      split at h
      · exact le_of_eq (Option.some.inj h)
      · have := ih h
        unfold addrBehind at this
        omega

/-- Distinct instructions have distinct addresses. -/
theorem startAddr_injective {is : List RawInstr} {a o o' p : ℕ} (h : startAddr a is o = some p)
    (h' : startAddr a is o' = some p) : o = o' := by
  induction is generalizing a with
  | nil => cases h
  | cons i is ih =>
      rw [startAddr] at h h'
      split at h <;> split at h'
      · rename_i ho ho'
        omega
      · have hle := startAddr_lt h'
        have := Option.some.inj h
        unfold addrBehind at hle
        omega
      · have hle := startAddr_lt h
        have := Option.some.inj h'
        unfold addrBehind at hle
        omega
      · exact ih h h'

/-- The nodes of the instructions, one for each, in order. -/
theorem heads_forall₂ {code : IlCode} {is : List RawInstr} (hdec : ∀ i ∈ is, DecodedAt code i.offset i)
    (hsorted : (is.map RawInstr.offset).Pairwise (· < ·)) (a : ℕ) :
    List.Forall₂ (fun i n => n.m_opcode = i.opcode ∧ startAddr a is i.offset = some n.addr) is
      ((nodesFrom a is).filter fun n => n.m_opcode ≠ ceeSwitchArg) := by
  induction is generalizing a with
  | nil => exact List.Forall₂.nil
  | cons i is ih =>
      obtain ⟨hhead, htail⟩ := List.pairwise_cons.mp hsorted
      have hrest := ih (fun j hj => hdec j (List.mem_cons_of_mem i hj)) htail (addrBehind a i)
      have hlt := (hdec i List.mem_cons_self).opcode_lt
      have hne : i.opcode ≠ ceeSwitchArg := by
        intro heq
        rw [heq] at hlt
        exact absurd hlt (by decide)
      have hslots : (slotNodes (a + 1) i.slotTargets).filter (fun n => n.m_opcode ≠ ceeSwitchArg)
          = [] := by
        rw [List.filter_eq_nil_iff]
        intro n hn
        simp [slotNodes_opcode hn]
      rw [nodesFrom, instrNodes, List.cons_append, List.filter_cons_of_pos (by simpa using hne),
        List.filter_append, hslots, List.nil_append]
      refine List.Forall₂.cons ⟨rfl, by rw [startAddr, if_pos rfl]⟩ ?_
      refine hrest.imp ?_
      rintro j n ⟨hop, haddr⟩
      refine ⟨hop, ?_⟩
      obtain ⟨k, hk, hkj⟩ := startAddr_isSome_iff.mp (by rw [haddr]; rfl)
      have hlt' := hhead k.offset (List.mem_map_of_mem hk)
      rw [startAddr, if_neg (by omega), haddr]

/-! ### Agreement -/

/-- The builder succeeds with one instruction for each node of an instruction, in order, with the
node's opcode and byte offset, and its dictionary has those offsets as keys. -/
def DecodersAgree (code : IlCode) (s : ILRewriter) : Prop :=
  ∃ instList dictionary, build code = .ok (instList, dictionary)
    ∧ List.Forall₂ (fun inst n => inst.opcode = n.m_opcode
      ∧ s.getInstrFromOffset inst.offset = n.addr) instList s.headNodes
    ∧ ∀ o, o ∈ dictionary.keys ↔ o ∈ instList.map IlInstr.offset

/-- The nodes of a list of instructions, resolved, are still theirs. -/
theorem headNodes_forall₂ {code : IlCode} {s : ILRewriter} {is : List RawInstr}
    (hdec : ∀ i ∈ is, DecodedAt code i.offset i)
    (hsorted : (is.map RawInstr.offset).Pairwise (· < ·))
    (hIL : s.m_IL = (nodesFrom (pIL + 1) is).map (resolveNode (targetOf is code.size))) :
    List.Forall₂ (fun i n => n.m_opcode = i.opcode
      ∧ startAddr (pIL + 1) is i.offset = some n.addr) is s.headNodes := by
  have hfilter : s.headNodes = ((nodesFrom (pIL + 1) is).filter
      fun n => n.m_opcode ≠ ceeSwitchArg).map (resolveNode (targetOf is code.size)) := by
    rw [ILRewriter.headNodes, hIL, List.filter_map]
    congr 1
    exact List.filter_congr fun n _ => by simp
  rw [hfilter, List.forall₂_map_right_iff]
  refine (heads_forall₂ hdec hsorted _).imp fun i n h => ?_
  rwa [resolveNode_m_opcode, resolveNode_addr]

/-- The instructions of a body, as `ImportIL` decodes them. -/
def instructions (code : IlCode) : Except RewriteError (List RawInstr) := decodeAll code code.size 0

/-- Every instruction of the body has an assigned opcode. -/
def UsesAssigned (code : IlCode) : Prop := ∀ is, instructions code = .ok is →
  ∀ i ∈ is, Assigned i.opcode

/-- The body contains a `switch`. -/
def HasSwitch (code : IlCode) : Prop := ∃ is, instructions code = .ok is ∧
  ∃ i ∈ is, i.opcode = ceeSwitch

theorem decodersAgree_of_not_hasSwitch {code : IlCode} {s : ILRewriter}
    (himport : ILRewriter.new.importIL code = .ok s) (hassigned : UsesAssigned code)
    (hno : ¬HasSwitch code) : DecodersAgree code s := by
  obtain ⟨is, hall, hcons, hdec, hlinked, -, htable, hIL⟩ := importIL_spec rfl rfl himport
  have hheads := headNodes_forall₂ hdec hcons.offsets_pairwise hIL
  have hraw : ∀ i ∈ is, Assigned i.opcode ∧ i.opcode ≠ ceeSwitch := fun i hi =>
    ⟨hassigned is hall i hi, fun hswitch => hno ⟨is, hall, i, hi, hswitch⟩⟩
  have hinstrs := buildInstrs_eq code.size 0 is hall hraw
  refine ⟨_, _, by rw [build, hinstrs]; rfl, ?_, fun o => ?_⟩
  · rw [List.forall₂_map_left_iff]
    refine hheads.imp fun i n h => ⟨h.1.symm, ?_⟩
    rw [htable, targetOf, if_neg, RawInstr.toIlInstr, h.2, Option.getD_some]
    obtain ⟨j, hj, hji⟩ := startAddr_isSome_iff.mp (by rw [h.2]; rfl)
    have hnext := (hcons.bounds hj).2
    have := j.offset_lt_next
    show i.offset ≠ code.size
    omega
  · rw [mem_keys_foldl_set]
    simp [Dictionary.keys, Dictionary.empty]

theorem not_hasSwitch_of_decodersAgree {code : IlCode} {s : ILRewriter}
    (himport : ILRewriter.new.importIL code = .ok s) (hagree : DecodersAgree code s) :
    ¬HasSwitch code := by
  rintro ⟨is', hinstructions, i, hi, hiswitch⟩
  obtain ⟨is, hall, hcons, hdec, hlinked, -, htable, hIL⟩ := importIL_spec rfl rfl himport
  obtain rfl : is = is' := Except.ok.inj (hall.symm.trans hinstructions)
  have hheads := headNodes_forall₂ hdec hcons.offsets_pairwise hIL
  obtain ⟨instList, dictionary, hbuild, hforall, -⟩ := hagree
  have hadjacent : Adjacent 0 instList code.size := by
    rw [build] at hbuild
    cases hinstrs : buildInstrs code code.size 0 with
    | error e => rw [hinstrs] at hbuild; cases hbuild
    | ok list =>
        rw [hinstrs] at hbuild
        obtain rfl : list = instList := (Prod.mk.inj (Except.ok.inj hbuild)).1
        exact buildInstrs_adjacent _ _ _ hinstrs (Nat.zero_le _) (by omega)
  -- a builder instruction starts where an instruction of the body does
  have hstart : ∀ inst ∈ instList, ∃ n ∈ s.headNodes, inst.opcode = n.m_opcode
      ∧ startAddr (pIL + 1) is inst.offset = some n.addr := by
    intro inst hinst
    obtain ⟨m, hm, hop, htarget⟩ := forall₂_exists_right hforall hinst
    refine ⟨m, hm, hop, ?_⟩
    have hbound := hadjacent.le_of_mem hinst
    have hpos := inst.size_pos
    have hnode := (hlinked.allocated m (List.mem_of_mem_filter hm)).1
    rw [htable, targetOf, if_neg (by omega)] at htarget
    cases haddr : startAddr (pIL + 1) is inst.offset with
    | none =>
        rw [haddr] at htarget
        have hnull : nullPtr = m.addr := htarget
        rw [← hnull] at hnode
        exact absurd hnode (by decide)
    | some p => rw [haddr] at htarget; exact congrArg some htarget
  -- the builder's next instruction starts inside the table
  obtain ⟨n, hn, hiop, hiaddr⟩ := forall₂_exists_right hheads hi
  obtain ⟨inst, hinst, hop, htarget⟩ := forall₂_exists_left hforall hn
  obtain ⟨m, hm, -, haddr⟩ := hstart inst hinst
  have hsame : inst.offset = i.offset := by
    have hbound := hadjacent.le_of_mem hinst
    have hpos := inst.size_pos
    rw [htable, targetOf, if_neg (by omega), haddr] at htarget
    rw [show m.addr = n.addr from htarget] at haddr
    exact startAddr_injective haddr hiaddr
  have hsize : inst.size = 1 := by rw [IlInstr.size, hop, hiop, hiswitch]; decide
  have hnext : i.offset + 5 ≤ i.next := by
    unfold RawInstr.next RawInstr.operandOffset
    rw [hiswitch, operandSize_switch]
    have := opcodeSize_pos ceeSwitch
    omega
  have hstop := (hcons.bounds hi).2
  obtain ⟨inst', hinst', hoffset⟩ := hadjacent.next_mem hinst (by omega)
  obtain ⟨m', -, -, haddr'⟩ := hstart inst' hinst'
  obtain ⟨j, hj, hjoffset⟩ := startAddr_isSome_iff.mp (by rw [haddr']; rfl)
  have hij := hcons.disjoint hi hj (by omega) (by omega)
  rw [hij] at hsame
  omega

/-- **When the two decoders agree.**  On a body that `ImportIL` accepts and that uses only
assigned opcodes, the decoders agree exactly if there is no `switch`. -/
theorem decodersAgree_iff (code : IlCode) (s : ILRewriter)
    (himport : ILRewriter.new.importIL code = .ok s) (hassigned : UsesAssigned code) :
    DecodersAgree code s ↔ ¬HasSwitch code :=
  ⟨not_hasSwitch_of_decodersAgree himport, decodersAgree_of_not_hasSwitch himport hassigned⟩

/-- `ldc.i4.0; ret`. -/
theorem decodersAgree_iff_ldc_ret :
    ∃ s, ILRewriter.new.importIL ⟨[0x16, 0x2A], by decide⟩ = .ok s
      ∧ (DecodersAgree ⟨[0x16, 0x2A], by decide⟩ s ↔ ¬HasSwitch ⟨[0x16, 0x2A], by decide⟩) := by
  refine ⟨_, rfl, decodersAgree_iff _ _ rfl ?_⟩
  intro is his
  obtain rfl := (Except.ok.inj his).symm
  decide

/-- `ldc.i4.0; switch` with one slot, which refers to the `ret` behind the table. -/
def switchBody : IlCode := ⟨[0x16, 0x45, 1, 0, 0, 0, 0, 0, 0, 0, 0x2A], by decide⟩

/-- `ImportIL` decodes three instructions there, and the builder takes the switch table for
instructions. -/
theorem decoders_disagree_on_switch :
    ∃ s, ILRewriter.new.importIL switchBody = .ok s ∧ UsesAssigned switchBody
      ∧ ¬DecodersAgree switchBody s := by
  refine ⟨_, rfl, ?_, fun hagree => not_hasSwitch_of_decodersAgree rfl hagree ⟨_, rfl, ?_⟩⟩
  · intro is his
    obtain rfl := (Except.ok.inj his).symm
    decide
  · decide

end TestExecutor
