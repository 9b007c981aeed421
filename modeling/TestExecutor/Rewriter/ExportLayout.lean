import TestExecutor.Library.Forall2
import TestExecutor.Rewriter.Export

/-!
# The layout that `Export` settles on

The passes of `Export` as functions of the list, and the end of the `again` loop.

* `totalSize`, `rawBytes` — sizes, and the bytes of the first pass (`emit_eq`);
* `encodeFrom` — the bytes of a list laid out from an offset, given where its targets are;
* `widenFrom`, `farFrom` — the short branches that do not reach, widened (`resolve_spec`);
* `Widened` — a list with some short branches in their long form;
* `exportRounds_eq` — the loop ends, since every further round has fewer short branches, and what
  it ends with reaches everywhere.
-/

namespace TestExecutor

open TestExecutor.Library

/-! ### Sizes -/

/-- The bytes of a list. -/
def totalSize (il : List ILInstr) : ℕ := (il.map ILInstr.byteSize).sum

@[simp] theorem totalSize_nil : totalSize [] = 0 := rfl

@[simp] theorem totalSize_cons (i : ILInstr) (is : List ILInstr) :
    totalSize (i :: is) = i.byteSize + totalSize is := by simp [totalSize]

/-- The bytes of the first pass. -/
def rawBytes (i : ILInstr) : List UInt8 := opcodeBytes i.m_opcode ++ operandBytes i

theorem opcodeBytes_length (opcode : ℕ) :
    (opcodeBytes opcode).length = if opcode < ceeCount then opcodeSize opcode else 0 := by
  unfold opcodeBytes opcodeSize
  split
  · split <;> rfl
  · rfl

theorem operandBytes_length (i : ILInstr) : (operandBytes i).length = operandSize i.m_opcode := by
  unfold operandBytes operandSize
  cases opCodeFlags i.m_opcode <;> simp [OpCodeFlags.sizeMask]

theorem rawBytes_length (i : ILInstr) : (rawBytes i).length = i.byteSize := by
  rw [rawBytes, List.length_append, opcodeBytes_length, operandBytes_length]
  rfl

theorem rawBytes_flatMap_length (il : List ILInstr) :
    (il.flatMap rawBytes).length = totalSize il := by
  induction il with
  | nil => rfl
  | cons i is ih => rw [List.flatMap_cons, List.length_append, ih, rawBytes_length, totalSize_cons]

theorem byteSize_le (i : ILInstr) : i.byteSize ≤ 10 := by
  have hsize : operandSize i.m_opcode ≤ 8 := by
    unfold operandSize
    cases opCodeFlags i.m_opcode <;> simp [OpCodeFlags.sizeMask]
  have hop : opcodeSize i.m_opcode ≤ 2 := by unfold opcodeSize; split <;> omega
  unfold ILInstr.byteSize
  split <;> omega

theorem totalSize_le (il : List ILInstr) : totalSize il ≤ 10 * il.length := by
  induction il with
  | nil => simp
  | cons i is ih =>
      have := byteSize_le i
      rw [totalSize_cons, List.length_cons]
      omega

@[simp] theorem byteSize_offset (i : ILInstr) (o : ℕ) :
    ({ i with m_offset := o } : ILInstr).byteSize = i.byteSize := rfl

theorem countOffsetsFrom_totalSize (il : List ILInstr) (o : ℕ) :
    totalSize (countOffsetsFrom o il) = totalSize il := by
  induction il generalizing o with
  | nil => rfl
  | cons i is ih => rw [countOffsetsFrom, totalSize_cons, totalSize_cons, ih, byteSize_offset]

/-! ### The first pass -/

theorem emit_eq {maxSize : ℕ} (il : List ILInstr) : ∀ o, o + totalSize il ≤ maxSize →
    emit maxSize o il = .ok (countOffsetsFrom o il, il.flatMap rawBytes) := by
  induction il with
  | nil => intro o _; rfl
  | cons i is ih =>
      intro o h
      rw [totalSize_cons] at h
      rw [emit, if_neg (by omega), ih (o + i.byteSize) (by omega)]
      rfl

/-- More bytes than the buffer holds. -/
theorem emit_overrun {maxSize : ℕ} (il : List ILInstr) : ∀ o, o ≤ maxSize →
    maxSize < o + totalSize il → emit maxSize o il = .error .bufferOverrun := by
  induction il with
  | nil => intro o hle h; rw [totalSize_nil] at h; omega
  | cons i is ih =>
      intro o hle h
      rw [totalSize_cons] at h
      rw [emit]
      split
      · rfl
      · rename_i hfits
        rw [ih (o + i.byteSize) (by omega) (by omega)]
        rfl

/-! ### The second pass -/

/-- The final bytes of a node's operand: `o` is the offset of the node, `t` where targets are. -/
def finalOperand (t : ℕ → ℕ) (o switchBase : ℕ) (i : ILInstr) : List UInt8 :=
  if i.m_opcode = ceeSwitchArg then leBytes 4 (offsetDelta (t i.m_pTarget) switchBase)
  else
    match opCodeFlags i.m_opcode with
    | .branch8 => leBytes 1 (offsetDelta (t i.m_pTarget) (o + i.byteSize))
    | .branch32 => leBytes 4 (offsetDelta (t i.m_pTarget) (o + i.byteSize))
    | _ => operandBytes i

/-- The switch base behind a node. -/
def switchBaseBehind (o switchBase : ℕ) (i : ILInstr) : ℕ :=
  if i.m_opcode = ceeSwitch then (o + 1 + 4 * (i.m_Arg32 + 1)) % 2 ^ 32 else switchBase

/-- The final bytes of a list laid out from `o` on. -/
def encodeFrom (t : ℕ → ℕ) : ℕ → ℕ → List ILInstr → List UInt8
  | _, _, [] => []
  | o, switchBase, i :: is =>
      opcodeBytes i.m_opcode ++ finalOperand t o switchBase i
        ++ encodeFrom t (o + i.byteSize) (switchBaseBehind o switchBase i) is

/-- The node is a short branch that does not reach its target. -/
def isFar (t : ℕ → ℕ) (o : ℕ) (i : ILInstr) : Bool :=
  opCodeFlags i.m_opcode = .branch8 && !fitsInt8 (offsetDelta (t i.m_pTarget) (o + i.byteSize))

def farFrom (t : ℕ → ℕ) : ℕ → List ILInstr → Bool
  | _, [] => false
  | o, i :: is => isFar t o i || farFrom t (o + i.byteSize) is

/-- The list with its offsets and with the far short branches widened. -/
def widenFrom (t : ℕ → ℕ) : ℕ → List ILInstr → List ILInstr
  | _, [] => []
  | o, i :: is =>
      { i with
        m_offset := o
        m_opcode := if isFar t o i then widenOpcode i.m_opcode else i.m_opcode }
        :: widenFrom t (o + i.byteSize) is

theorem headOffset_countOffsetsFrom {il : List ILInstr} {o endOffset : ℕ}
    (h : endOffset = o + totalSize il) : headOffset endOffset (countOffsetsFrom o il) = o := by
  cases il with
  | nil => simpa [headOffset, countOffsetsFrom] using h
  | cons i is => rfl

/-- Patching the operand that was left open. -/
theorem patchBytes_append (before opened after : List UInt8) {w : ℕ} (v : ℕ)
    (hw : opened.length = w) :
    patchBytes (before ++ opened ++ after) before.length w v = before ++ leBytes w v ++ after := by
  unfold patchBytes
  have htake : (before ++ opened ++ after).take before.length = before := by
    rw [List.append_assoc, List.take_left]
  have hdrop : (before ++ opened ++ after).drop (before.length + w) = after :=
    List.drop_left' (by rw [List.length_append, hw])
  rw [htake, hdrop]

/-- Patching the operand of a node between other bytes. -/
theorem patchBytes_rawBytes (before after : List UInt8) (i : ILInstr) (p w v : ℕ)
    (hw : operandSize i.m_opcode = w) (hp : p = before.length + (opcodeBytes i.m_opcode).length) :
    patchBytes (before ++ rawBytes i ++ after) p w v
      = before ++ (opcodeBytes i.m_opcode ++ leBytes w v) ++ after := by
  have happend := patchBytes_append (before ++ opcodeBytes i.m_opcode) (operandBytes i) after v
    ((operandBytes_length i).trans hw)
  rw [List.length_append, ← hp] at happend
  rw [rawBytes]
  simpa only [List.append_assoc] using happend

theorem patched_length (i : ILInstr) (w v : ℕ) (hw : operandSize i.m_opcode = w) :
    (opcodeBytes i.m_opcode ++ leBytes w v).length = i.byteSize := by
  rw [← rawBytes_length i, rawBytes, List.length_append, List.length_append, leBytes_length,
    operandBytes_length, hw]

theorem opCodeFlags_branchTarget_iff {opcode : ℕ} : (opCodeFlags opcode).branchTarget = true
    ↔ opCodeFlags opcode = .branch8 ∨ opCodeFlags opcode = .branch32 := by
  cases opCodeFlags opcode <;> simp [OpCodeFlags.branchTarget]

theorem finalOperand_length (t : ℕ → ℕ) (o switchBase : ℕ) (i : ILInstr) :
    (finalOperand t o switchBase i).length = operandSize i.m_opcode := by
  rw [finalOperand]
  by_cases harg : i.m_opcode = ceeSwitchArg
  · rw [if_pos harg, leBytes_length, harg]
    rfl
  · rw [if_neg harg]
    cases hflags : opCodeFlags i.m_opcode with
    | branch8 => rw [operandSize, hflags]; exact leBytes_length 1 _
    | branch32 => rw [operandSize, hflags]; exact leBytes_length 4 _
    | _ => exact operandBytes_length i

/-- The bytes that the second pass leaves at a node.  A branch that it widens is not patched. -/
def resolvedBytes (t : ℕ → ℕ) (o switchBase : ℕ) (i : ILInstr) : List UInt8 :=
  if isFar t o i then rawBytes i else opcodeBytes i.m_opcode ++ finalOperand t o switchBase i

theorem resolvedBytes_length (t : ℕ → ℕ) (o switchBase : ℕ) (i : ILInstr) :
    (resolvedBytes t o switchBase i).length = i.byteSize := by
  rw [← rawBytes_length i, resolvedBytes]
  split
  · rfl
  · rw [rawBytes, List.length_append, List.length_append, operandBytes_length, finalOperand_length]

/-- A node whose operand stays open is as it was. -/
theorem resolvedBytes_of_raw {t : ℕ → ℕ} {o switchBase : ℕ} {i : ILInstr}
    (hfinal : finalOperand t o switchBase i = operandBytes i) :
    resolvedBytes t o switchBase i = rawBytes i := by
  rw [resolvedBytes, hfinal]
  exact ite_self _

/-- The second pass at one node: a far short branch is widened, any other target is patched in. -/
theorem resolve_node {offsetOf : ℕ → Except RewriteError ℕ} {t : ℕ → ℕ}
    {endOffset o switchBase : ℕ} {i : ILInstr} {is nodes : List ILInstr}
    {done after bytes : List UInt8} {again : Bool} (hdone : done.length = o)
    (hnext : headOffset endOffset is = o + i.byteSize)
    (htarget : (opCodeFlags i.m_opcode).branchTarget = true →
      offsetOf i.m_pTarget = .ok (t i.m_pTarget))
    (hrest : resolve offsetOf endOffset (switchBaseBehind o switchBase i) is
      (done ++ resolvedBytes t o switchBase i ++ after) = .ok (nodes, bytes, again)) :
    resolve offsetOf endOffset switchBase ({ i with m_offset := o } :: is)
        (done ++ rawBytes i ++ after)
      = .ok ({ i with
          m_offset := o
          m_opcode := if isFar t o i then widenOpcode i.m_opcode else i.m_opcode } :: nodes,
        bytes, isFar t o i || again) := by
  have hopsize := rawBytes_length i
  rw [rawBytes, List.length_append, operandBytes_length] at hopsize
  rw [resolve]
  by_cases hswitch : i.m_opcode = ceeSwitch
  · have hflags : opCodeFlags i.m_opcode = .switch := by rw [hswitch]; decide
    have hfar : isFar t o i = false := by simp [isFar, hflags]
    have hfinal : finalOperand t o switchBase i = operandBytes i := by
      rw [finalOperand, if_neg (by rw [hswitch]; decide), hflags]
    rw [switchBaseBehind, if_pos hswitch, resolvedBytes_of_raw hfinal] at hrest
    rw [if_pos hswitch, hfar]
    show (resolve offsetOf endOffset ((o + 1 + 4 * (i.m_Arg32 + 1)) % 2 ^ 32) _ _ >>= _) = _
    rw [hrest]
    rfl
  rw [switchBaseBehind, if_neg hswitch] at hrest
  rw [if_neg hswitch]
  by_cases harg : i.m_opcode = ceeSwitchArg
  · have hflags : opCodeFlags i.m_opcode = .branch32 := by rw [harg]; decide
    have hfar : isFar t o i = false := by simp [isFar, hflags]
    rw [resolvedBytes, hfar, if_neg Bool.false_ne_true, finalOperand, if_pos harg] at hrest
    rw [if_pos harg, hfar]
    show (offsetOf i.m_pTarget >>= _) = _
    rw [htarget (by rw [hflags]; rfl)]
    show (resolve offsetOf endOffset switchBase _ (patchBytes _ o 4 _) >>= _) = _
    rw [patchBytes_rawBytes done _ i o 4 _ (by rw [operandSize, hflags]; rfl)
      (by rw [← hdone, harg]; rfl), hrest]
    rfl
  rw [if_neg harg]
  cases hflags : opCodeFlags i.m_opcode with
  | branch8 =>
      have htarget := htarget (by rw [hflags]; rfl)
      have hwidth : operandSize i.m_opcode = 1 := by rw [operandSize, hflags]; rfl
      show (offsetOf i.m_pTarget >>= _) = _
      rw [htarget]
      show (if !fitsInt8 (offsetDelta (t i.m_pTarget) (headOffset endOffset is)) then _ else _) = _
      cases hfits : fitsInt8 (offsetDelta (t i.m_pTarget) (o + i.byteSize)) with
      | false =>
          have hfar : isFar t o i = true := by simp [isFar, hflags, hfits]
          rw [resolvedBytes, if_pos hfar] at hrest
          rw [hnext, hfits, hrest, hfar]
          rfl
      | true =>
          have hfar : isFar t o i = false := by simp [isFar, hfits]
          rw [resolvedBytes, hfar, if_neg Bool.false_ne_true, finalOperand, if_neg harg, hflags]
            at hrest
          rw [hnext, hfits, hfar, patchBytes_rawBytes done _ i (o + i.byteSize - 1) 1 _ hwidth
            (by omega)]
          show (resolve offsetOf endOffset switchBase _ _ >>= _) = _
          rw [hrest]
          rfl
  | branch32 =>
      have htarget := htarget (by rw [hflags]; rfl)
      have hwidth : operandSize i.m_opcode = 4 := by rw [operandSize, hflags]; rfl
      have hfar : isFar t o i = false := by simp [isFar, hflags]
      rw [resolvedBytes, hfar, if_neg Bool.false_ne_true, finalOperand, if_neg harg, hflags]
        at hrest
      show (offsetOf i.m_pTarget >>= _) = _
      rw [htarget, hfar]
      show (resolve offsetOf endOffset switchBase _ (patchBytes _ (headOffset endOffset is - 4) 4
        (offsetDelta (t i.m_pTarget) (headOffset endOffset is))) >>= _) = _
      rw [hnext, patchBytes_rawBytes done _ i (o + i.byteSize - 4) 4 _ hwidth (by omega), hrest]
      rfl
  | _ =>
      have hfar : isFar t o i = false := by simp [isFar, hflags]
      have hfinal : finalOperand t o switchBase i = operandBytes i := by
        rw [finalOperand, if_neg harg, hflags]
      rw [resolvedBytes_of_raw hfinal] at hrest
      rw [hfar]
      show (resolve offsetOf endOffset switchBase _ _ >>= _) = _
      rw [hrest]
      rfl

/-- **The second pass.**  Far short branches are widened; when there are none the bytes are those
of the final layout. -/
theorem resolve_spec {offsetOf : ℕ → Except RewriteError ℕ} {t : ℕ → ℕ} {endOffset : ℕ}
    (il : List ILInstr) : ∀ (o switchBase : ℕ) (done : List UInt8), done.length = o →
      endOffset = o + totalSize il →
      (∀ i ∈ il, (opCodeFlags i.m_opcode).branchTarget = true →
        offsetOf i.m_pTarget = .ok (t i.m_pTarget)) →
      ∃ bytes, resolve offsetOf endOffset switchBase (countOffsetsFrom o il)
          (done ++ il.flatMap rawBytes) = .ok (widenFrom t o il, bytes, farFrom t o il)
        ∧ (farFrom t o il = false → bytes = done ++ encodeFrom t o switchBase il) := by
  induction il with
  | nil =>
      intro o switchBase done _ _ _
      exact ⟨_, rfl, fun _ => rfl⟩
  | cons i is ih =>
      intro o switchBase done hdone hend htargets
      rw [totalSize_cons, ← Nat.add_assoc] at hend
      obtain ⟨bytes, hrun, hbytes⟩ := ih (o + i.byteSize) (switchBaseBehind o switchBase i)
        (done ++ resolvedBytes t o switchBase i)
        (by rw [List.length_append, hdone, resolvedBytes_length]) hend
        fun j hj => htargets j (List.mem_cons_of_mem i hj)
      refine ⟨bytes, ?_, fun hfar => ?_⟩
      · rw [countOffsetsFrom, List.flatMap_cons, ← List.append_assoc]
        exact resolve_node hdone (headOffset_countOffsetsFrom hend)
          (htargets i List.mem_cons_self) hrun
      · rw [farFrom, Bool.or_eq_false_iff] at hfar
        rw [hbytes hfar.2, resolvedBytes, hfar.1, if_neg Bool.false_ne_true, encodeFrom]
        simp only [List.append_assoc]

/-! ### Widened lists -/

/-- Short branches: `br.s` to `blt.un.s`, and `leave.s`. -/
def IsShortBranch (opcode : ℕ) : Prop :=
  (ceeBrS ≤ opcode ∧ opcode ≤ ceeBltUnS) ∨ opcode = ceeLeaveS

instance (opcode : ℕ) : Decidable (IsShortBranch opcode) := by
  unfold IsShortBranch; infer_instance

theorem opCodeFlags_eq_branch8_iff {opcode : ℕ} :
    opCodeFlags opcode = .branch8 ↔ IsShortBranch opcode := by
  have h : opArgs opcode = .shortInlineBrTarget ↔ IsShortBranch opcode :=
    opArgs_forall (P := fun opcode k => k = .shortInlineBrTarget ↔ IsShortBranch opcode)
      (by decide +kernel) (fun opcode hop => by
        simp only [reduceCtorEq, false_iff, IsShortBranch, ceeBrS, ceeBltUnS, ceeLeaveS]
        omega) opcode
  unfold opCodeFlags
  split
  · rename_i harg
    subst harg
    decide
  · rw [← h]
    cases opArgs opcode <;> simp [OperandType.flags]

theorem IsShortBranch.lt {opcode : ℕ} (h : IsShortBranch opcode) : opcode < 0xDF := by
  unfold IsShortBranch ceeBrS ceeBltUnS ceeLeaveS at h
  omega

/-- The long form is a branch with the same target, one byte of opcode and four of operand. -/
theorem widenOpcode_spec {opcode : ℕ} (h : IsShortBranch opcode) :
    opCodeFlags (widenOpcode opcode) = .branch32 ∧ widenOpcode opcode < ceePrefix7
      ∧ widenOpcode opcode ≠ ceeSwitch ∧ widenOpcode opcode ≠ ceeSwitchArg := by
  have hall : ∀ opcode < 0xDF, IsShortBranch opcode →
      opCodeFlags (widenOpcode opcode) = .branch32 ∧ widenOpcode opcode < ceePrefix7
        ∧ widenOpcode opcode ≠ ceeSwitch ∧ widenOpcode opcode ≠ ceeSwitchArg := by
    decide +kernel
  exact hall opcode h.lt h

/-- The same node, a short branch possibly in its long form. -/
structure WidenedNode (i j : ILInstr) : Prop where
  addr : j.addr = i.addr
  m_Arg64 : j.m_Arg64 = i.m_Arg64
  m_opcode : j.m_opcode = i.m_opcode ∨ IsShortBranch i.m_opcode ∧ j.m_opcode = widenOpcode i.m_opcode

def Widened (il il' : List ILInstr) : Prop := List.Forall₂ WidenedNode il il'

theorem WidenedNode.trans {i j k : ILInstr} (h : WidenedNode i j) (h' : WidenedNode j k) :
    WidenedNode i k where
  addr := h'.addr.trans h.addr
  m_Arg64 := h'.m_Arg64.trans h.m_Arg64
  m_opcode := by
    rcases h.m_opcode with hij | ⟨hshort, hij⟩
    · rw [← hij]
      exact h'.m_opcode
    · rcases h'.m_opcode with hjk | ⟨hshort', -⟩
      · exact Or.inr ⟨hshort, hjk.trans hij⟩
      · -- a long form is not widened again
        rw [hij] at hshort'
        rw [← opCodeFlags_eq_branch8_iff, (widenOpcode_spec hshort).1] at hshort'
        cases hshort'

theorem Widened.trans {il il' il'' : List ILInstr} (h : Widened il il') (h' : Widened il' il'') :
    Widened il il'' := by
  induction h generalizing il'' with
  | nil => exact h'
  | cons hhead _ ih =>
      obtain ⟨k, ks, hk, hks, rfl⟩ := List.forall₂_cons_left_iff.mp h'
      exact List.Forall₂.cons (hhead.trans hk) (ih hks)

theorem Widened.refl (il : List ILInstr) : Widened il il :=
  List.forall₂_same.mpr fun _ _ => ⟨rfl, rfl, Or.inl rfl⟩

theorem Widened.length_eq {il il' : List ILInstr} (h : Widened il il') :
    il.length = il'.length := List.Forall₂.length_eq h

theorem Widened.map_addr {il il' : List ILInstr} (h : Widened il il') :
    il'.map ILInstr.addr = il.map ILInstr.addr := by
  induction h with
  | nil => rfl
  | cons hhead _ ih => rw [List.map_cons, List.map_cons, hhead.addr, ih]

theorem WidenedNode.branchTarget {i j : ILInstr} (h : WidenedNode i j) :
    (opCodeFlags j.m_opcode).branchTarget = (opCodeFlags i.m_opcode).branchTarget := by
  rcases h.m_opcode with hop | ⟨hshort, hop⟩
  · rw [hop]
  · rw [hop, (widenOpcode_spec hshort).1, opCodeFlags_eq_branch8_iff.mpr hshort]
    rfl

theorem WidenedNode.eq_iff_of_not_branch {i j : ILInstr} (h : WidenedNode i j) {opcode : ℕ}
    (hshort : ¬IsShortBranch opcode)
    (hlong : ∀ {short}, IsShortBranch short → widenOpcode short ≠ opcode) :
    j.m_opcode = opcode ↔ i.m_opcode = opcode := by
  rcases h.m_opcode with hop | ⟨hs, hop⟩
  · rw [hop]
  · rw [hop]
    refine ⟨fun heq => absurd heq (hlong hs), fun heq => ?_⟩
    rw [heq] at hs
    exact absurd hs hshort

theorem WidenedNode.switch_iff {i j : ILInstr} (h : WidenedNode i j) :
    j.m_opcode = ceeSwitch ↔ i.m_opcode = ceeSwitch :=
  h.eq_iff_of_not_branch (by decide) fun hs => (widenOpcode_spec hs).2.2.1

theorem WidenedNode.switchArg_iff {i j : ILInstr} (h : WidenedNode i j) :
    j.m_opcode = ceeSwitchArg ↔ i.m_opcode = ceeSwitchArg :=
  h.eq_iff_of_not_branch (by decide) fun hs => (widenOpcode_spec hs).2.2.2

/-! ### Offsets of nodes -/

/-- The byte offset of a node in the layout of a list, and that of the end for the sentinel. -/
def layoutOffset (il : List ILInstr) (p : ℕ) : ℕ :=
  if p = pIL then totalSize il
  else ((findNode ILInstr.addr p (countOffsetsFrom 0 il)).map ILInstr.m_offset).getD 0

theorem countOffsetsFrom_map_addr (il : List ILInstr) (o : ℕ) :
    (countOffsetsFrom o il).map ILInstr.addr = il.map ILInstr.addr := by
  induction il generalizing o with
  | nil => rfl
  | cons i is ih => rw [countOffsetsFrom, List.map_cons, List.map_cons, ih]

theorem countOffsetsFrom_append (pre post : List ILInstr) (o : ℕ) :
    countOffsetsFrom o (pre ++ post)
      = countOffsetsFrom o pre ++ countOffsetsFrom (o + totalSize pre) post := by
  induction pre generalizing o with
  | nil => rfl
  | cons i is ih =>
      rw [List.cons_append, countOffsetsFrom, ih, countOffsetsFrom, totalSize_cons, Nat.add_assoc]
      rfl

/-- A node of the list, or the sentinel. -/
def NodeOrEnd (il : List ILInstr) (p : ℕ) : Prop := p = pIL ∨ p ∈ il.map ILInstr.addr

theorem nodeOffset_layout {il : List ILInstr} {p : ℕ} (h : NodeOrEnd il p) :
    nodeOffset (countOffsetsFrom 0 il) (totalSize il) p = .ok (layoutOffset il p) := by
  unfold nodeOffset layoutOffset
  split
  · rfl
  · rename_i hp
    have hmem := h.resolve_left hp
    rw [← countOffsetsFrom_map_addr il 0] at hmem
    obtain ⟨pre, w, post, hsplit, hw, hpre⟩ := exists_split hmem
    rw [hsplit, findNode_split hw hpre]
    rfl

/-- A node starts behind the bytes of the nodes in front of it. -/
theorem layoutOffset_split {pre post : List ILInstr} {i : ILInstr} (hne : i.addr ≠ pIL)
    (hpre : i.addr ∉ pre.map ILInstr.addr) :
    layoutOffset (pre ++ i :: post) i.addr = totalSize pre := by
  have hlaid : ILInstr.addr { i with m_offset := 0 + totalSize pre } = i.addr := rfl
  rw [layoutOffset, if_neg hne, countOffsetsFrom_append, countOffsetsFrom,
    findNode_split hlaid (by rwa [countOffsetsFrom_map_addr])]
  simp

theorem layoutOffset_le {il : List ILInstr} {p : ℕ} (h : NodeOrEnd il p) :
    layoutOffset il p ≤ totalSize il := by
  by_cases hp : p = pIL
  · rw [layoutOffset, if_pos hp]
  · obtain ⟨pre, w, post, rfl, rfl, hpre⟩ := exists_split (h.resolve_left hp)
    rw [layoutOffset_split hp hpre]
    simp [totalSize]

/-! ### The loop -/

/-- The targets are nodes of the list, or the end. -/
def TargetsInList (il : List ILInstr) : Prop :=
  ∀ i ∈ il, (opCodeFlags i.m_opcode).branchTarget = true → NodeOrEnd il i.m_pTarget

theorem TargetsInList.widened {il il' : List ILInstr} (h : TargetsInList il)
    (hwidened : Widened il il') : TargetsInList il' := by
  intro j hj hbranch
  obtain ⟨i, hi, hij⟩ := forall₂_exists_left hwidened hj
  have htarget := h i hi (hij.branchTarget ▸ hbranch)
  unfold NodeOrEnd ILInstr.m_pTarget at htarget ⊢
  rwa [hij.m_Arg64, hwidened.map_addr]

/-- One round. -/
theorem exportRound_eq {maxSize : ℕ} {il : List ILInstr} (hsize : totalSize il ≤ maxSize)
    (htargets : TargetsInList il) :
    ∃ bytes, exportRound maxSize il
        = .ok (widenFrom (layoutOffset il) 0 il, bytes, farFrom (layoutOffset il) 0 il)
      ∧ (farFrom (layoutOffset il) 0 il = false →
        bytes = encodeFrom (layoutOffset il) 0 0 il) := by
  have hresolve := resolve_spec il 0 0 [] rfl (Nat.zero_add _).symm
    fun i hi hbranch => nodeOffset_layout (htargets i hi hbranch)
  simp only [List.nil_append] at hresolve
  obtain ⟨bytes, hrun, hbytes⟩ := hresolve
  refine ⟨bytes, ?_, hbytes⟩
  rw [exportRound, emit_eq il 0 (by omega)]
  show resolve (nodeOffset _ (il.flatMap rawBytes).length) (il.flatMap rawBytes).length 0 _ _ = _
  rw [rawBytes_flatMap_length]
  exact hrun

theorem widenFrom_widened (t : ℕ → ℕ) (il : List ILInstr) (o : ℕ) :
    Widened il (widenFrom t o il) := by
  induction il generalizing o with
  | nil => exact List.Forall₂.nil
  | cons i is ih =>
      refine List.Forall₂.cons ⟨rfl, rfl, ?_⟩ (ih _)
      cases hfar : isFar t o i with
      | false => exact Or.inl (by simp)
      | true =>
          have hflags : opCodeFlags i.m_opcode = .branch8 := by
            simp only [isFar, Bool.and_eq_true, decide_eq_true_eq] at hfar
            exact hfar.1
          exact Or.inr ⟨opCodeFlags_eq_branch8_iff.mp hflags, by simp⟩

theorem widenFrom_of_not_far {t : ℕ → ℕ} {il : List ILInstr} {o : ℕ}
    (h : farFrom t o il = false) : widenFrom t o il = countOffsetsFrom o il := by
  induction il generalizing o with
  | nil => rfl
  | cons i is ih =>
      simp only [farFrom, Bool.or_eq_false_iff] at h
      rw [widenFrom, countOffsetsFrom, ih h.2, if_neg (by simp [h.1])]

/-- How many branches are still short. -/
def shortBranches (il : List ILInstr) : ℕ := il.countP fun i => decide (IsShortBranch i.m_opcode)

theorem shortBranches_cons (i : ILInstr) (is : List ILInstr) :
    shortBranches (i :: is) = shortBranches is + if IsShortBranch i.m_opcode then 1 else 0 := by
  simp [shortBranches, List.countP_cons]

theorem not_isShortBranch_widenOpcode {opcode : ℕ} (h : IsShortBranch opcode) :
    ¬IsShortBranch (widenOpcode opcode) := by
  rw [← opCodeFlags_eq_branch8_iff, (widenOpcode_spec h).1]
  decide

theorem shortBranches_le {il il' : List ILInstr} (h : Widened il il') :
    shortBranches il' ≤ shortBranches il := by
  induction h with
  | nil => exact le_refl _
  | @cons i j is js hhead _ ih =>
      rw [shortBranches_cons, shortBranches_cons]
      rcases hhead.m_opcode with hop | ⟨hshort, hop⟩
      · rw [hop]
        omega
      · rw [hop, if_neg (not_isShortBranch_widenOpcode hshort)]
        omega

/-- A round that widens leaves fewer short branches. -/
theorem shortBranches_widenFrom_lt {t : ℕ → ℕ} {il : List ILInstr} {o : ℕ}
    (h : farFrom t o il = true) : shortBranches (widenFrom t o il) < shortBranches il := by
  induction il generalizing o with
  | nil => cases h
  | cons i is ih =>
      rw [farFrom, Bool.or_eq_true] at h
      have hle := shortBranches_le (widenFrom_widened t is (o + i.byteSize))
      rw [widenFrom, shortBranches_cons, shortBranches_cons]
      cases hfar : isFar t o i with
      | true =>
          have hshort : IsShortBranch i.m_opcode := by
            simp only [isFar, Bool.and_eq_true, decide_eq_true_eq] at hfar
            exact opCodeFlags_eq_branch8_iff.mp hfar.1
          rw [if_pos hshort, if_neg (by simpa using not_isShortBranch_widenOpcode hshort)]
          omega
      | false =>
          have hrest := ih (h.resolve_left (by simp [hfar]))
          simp only [Bool.false_eq_true, if_false]
          omega

/-- **The `again` loop ends**, since every further round has fewer short branches; what it ends
with is the list with some of them widened, laid out so that every branch reaches. -/
theorem exportRounds_eq {maxSize : ℕ} (rounds : ℕ) : ∀ il : List ILInstr,
    10 * il.length ≤ maxSize → TargetsInList il → shortBranches il < rounds →
      ∃ il', Widened il il' ∧ farFrom (layoutOffset il') 0 il' = false
        ∧ exportRounds maxSize rounds il
          = some (.ok (countOffsetsFrom 0 il', encodeFrom (layoutOffset il') 0 0 il')) := by
  induction rounds with
  | zero => intro il _ _ h; omega
  | succ rounds ih =>
      intro il hlength htargets hrounds
      have hsize := totalSize_le il
      obtain ⟨bytes, hrun, hbytes⟩ := exportRound_eq (hsize.trans hlength) htargets
      have hwidened := widenFrom_widened (layoutOffset il) il 0
      rw [exportRounds, hrun]
      cases hfar : farFrom (layoutOffset il) 0 il with
      | false =>
          refine ⟨il, Widened.refl il, hfar, ?_⟩
          rw [widenFrom_of_not_far hfar, hbytes hfar]
          rfl
      | true =>
          have hlt := shortBranches_widenFrom_lt hfar
          obtain ⟨il', h₁, h₂, h₃⟩ := ih (widenFrom (layoutOffset il) 0 il)
            (hwidened.length_eq ▸ hlength) (htargets.widened hwidened) (by omega)
          exact ⟨il', hwidened.trans h₁, h₂, h₃⟩

end TestExecutor
