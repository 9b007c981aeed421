import TestExecutor.Library.Outcomes
import TestExecutor.Rewriter.ExportLayout
import TestExecutor.Rewriter.RewriteIL

/-!
# How a rewrite fails

`Import`, the insertions and `Export` on any body, a malformed one too: `COR_E_INVALIDPROGRAM` comes
from the decoding loop only, everything else that goes wrong is a crash, and the `again` loop ends.

* `RewriteError.IsCrash` — the errors that no caller sees;
* `importBody_ends`, `rewriteIL_ends` — how the first two end;
* `exportRounds_ends` — so do the rounds of `Export`, of which there are few;
* `ILRewriter.exportCode`, `exportBody_eq` — `Export` with enough rounds, in front of the allocation;
* `rewriteCode`, `rewriteBody` — all three together;
* `rewriteCode_error` — a rewrite that fails has failed in the decoding loop, or crashed.
-/

namespace TestExecutor

open TestExecutor.Library

/-- The errors behind which nothing is known of the process. -/
def RewriteError.IsCrash (e : RewriteError) : Prop :=
  e = .nullDereference ∨ e = .bufferOverrun ∨ e = .unsetRead

theorem isCrash_nullDereference : RewriteError.nullDereference.IsCrash := Or.inl rfl

theorem isCrash_bufferOverrun : RewriteError.bufferOverrun.IsCrash := Or.inr (Or.inl rfl)

theorem isCrash_noNode (p : ℕ) : (ILRewriter.noNode p).IsCrash := by
  unfold ILRewriter.noNode
  split
  · exact Or.inr (Or.inr rfl)
  · exact isCrash_nullDereference

/-- A computation without a result of interest, which can only crash. -/
abbrev CrashesOnly {α : Type} (x : Except RewriteError α) : Prop :=
  Ends (fun _ => True) RewriteError.IsCrash x

/-- The header of the exported body will be a fat one. -/
abbrev FatHeader (s : ILRewriter) : Prop := s.m_fGenerateTinyHeader = false

/-! ### Import -/

section decoding

variable (code : IlCode)

theorem decodeSlots_ends (n offset : ℕ) :
    Ends (fun _ => True) (· = .corEInvalidProgram) (decodeSlots code n offset) := by
  induction n generalizing offset with
  | zero => exact trivial
  | succ n ih =>
      apply Ends.ite
      · intro _
        exact rfl
      · intro _
        exact (ih _).bind fun _ _ => trivial

theorem decodeOpcode_ends (offset : ℕ) :
    Ends (fun _ => True) (· = .corEInvalidProgram) (decodeOpcode code offset) := by
  apply Ends.ite
  · intro _
    exact Ends.ite (fun _ => rfl) fun _ => trivial
  · intro _
    exact trivial

theorem decodeInstr_ends (offset : ℕ) :
    Ends (fun _ => True) (· = .corEInvalidProgram) (decodeInstr code offset) := by
  apply (decodeOpcode_ends code offset).bind
  intro opcode _
  -- the unsupported prefixes, the opcodes that do not exist, an operand that does not fit
  refine Ends.ite (fun _ => rfl) fun _ => Ends.ite (fun _ => rfl) fun _ =>
    Ends.ite (fun _ => rfl) fun _ => ?_
  apply Ends.ite
  · intro _
    refine Ends.ite (fun _ => rfl) fun _ => ?_
    exact (decodeSlots_ends code _ _).bind fun _ _ => trivial
  · intro _
    exact trivial

end decoding

namespace ILRewriter

theorem appendNode_fat {s : ILRewriter} (h : FatHeader s) (opcode arg : ℕ) :
    FatHeader (s.appendNode opcode arg) := h

theorem foldl_appendNode_fat (targets : List ℕ) : ∀ {s : ILRewriter}, FatHeader s →
    FatHeader (targets.foldl (fun s target => s.appendNode ceeSwitchArg target) s) := by
  induction targets with
  | nil =>
      intro s h
      exact h
  | cons target targets ih =>
      intro s h
      exact ih (appendNode_fat h _ _)

theorem importInstr_fat {s : ILRewriter} (h : FatHeader s) (i : RawInstr) :
    FatHeader (s.importInstr i) := by
  apply foldl_appendNode_fat
  exact h

theorem importLoop_ends (code : IlCode) (fuel : ℕ) : ∀ (offset : ℕ) {s : ILRewriter},
    FatHeader s → Ends FatHeader (· = .corEInvalidProgram) (importLoop code fuel offset s) := by
  induction fuel with
  | zero =>
      intro offset s h
      exact h
  | succ fuel ih =>
      intro offset s h
      apply Ends.ite
      · intro _
        apply (decodeInstr_ends code offset).bind
        intro i _
        exact ih i.next (importInstr_fat h i)
      · intro _
        exact h

theorem importIL_ends {s : ILRewriter} (h : FatHeader s) (code : IlCode) :
    Ends FatHeader (· = .corEInvalidProgram) (s.importIL code) := by
  have hstart : FatHeader { s with
      m_CodeSize := code.size
      m_pOffsetToInstr := Function.update (fun _ => nullPtr) code.size pIL } := h
  apply (importLoop_ends code code.size 0 hstart).bind
  intro s h
  exact h

theorem importClause_ends (s : ILRewriter) (ehInfo : EhInfo) :
    CrashesOnly (s.importClause ehInfo) :=
  Ends.ite (fun _ => isCrash_nullDereference) fun _ => trivial

theorem importEH_ends {s : ILRewriter} (h : FatHeader s) (eh : List EhInfo) :
    Ends FatHeader RewriteError.IsCrash (s.importEH eh) :=
  (Ends.mapM s.importClause_ends eh).bind fun _ _ => h

/-- **How an import ends**: with a list for a fat header, with `COR_E_INVALIDPROGRAM`, or with a
crash. -/
theorem importBody_ends (body : MethodBody) :
    Ends FatHeader (fun e => e = .corEInvalidProgram ∨ e.IsCrash) (importBody body) := by
  have hIL := importIL_ends (s := { new with
    m_tkLocalVarSig := body.localVarSigTok
    m_maxStack := body.maxStack
    m_flags := initLocalsFlag body.flags }) rfl body.code
  apply (hIL.mono (fun _ h => h) fun e he => Or.inl he).bind
  intro s h
  exact (importEH_ends h body.eh).mono (fun _ h => h) fun e he => Or.inr he

/-! ### The insertions

None of the edits changes the kind of header. -/

section insertions

variable {s : ILRewriter}

variable (covProb : Probe → ProbeCall) (methodId : Int32)

theorem addEnterProbe_ends (h : FatHeader s) (probe : Probe) :
    Ends FatHeader RewriteError.IsCrash (s.addEnterProbe covProb methodId probe) := by
  rw [addEnterProbe]
  cases s.node s.first with
  | none => exact isCrash_noNode _
  | some _ => exact h

theorem makeProbeInsertion_ends (h : FatHeader s) (toInsert : ProbeInsertion) :
    Ends FatHeader RewriteError.IsCrash (s.makeProbeInsertion covProb methodId toInsert) := by
  apply Ends.ite
  · intro _
    rw [addCoverageProbeBefore]
    cases s.node toInsert.target with
    | none => exact isCrash_noNode _
    | some _ => exact h
  · intro _
    rw [addCoverageProbeAfter]
    cases s.node toInsert.target with
    | none => exact isCrash_noNode _
    | some _ => exact h

theorem insertPriorityProbes_ends (insertions : List ProbeInsertion) : ∀ {s : ILRewriter},
    FatHeader s → ∀ covered, Ends (fun r => FatHeader r.1) RewriteError.IsCrash
      (insertPriorityProbes covProb methodId insertions s covered) := by
  induction insertions with
  | nil =>
      intro s h covered
      exact h
  | cons insertion rest ih =>
      intro s h covered
      apply (makeProbeInsertion_ends covProb methodId h insertion).bind
      intro s h
      exact ih h _

theorem rerouteTailcallRet_fat (h : FatHeader s) (leaveMethod : Probe) (target branch : ℕ) :
    FatHeader (s.rerouteTailcallRet covProb methodId leaveMethod target branch) := by
  rw [rerouteTailcallRet]
  split
  · exact h
  · exact h

theorem insertTargetProbes_ends (leaveMethod : Probe) (insertions : List ProbeInsertion) :
    ∀ {s : ILRewriter}, FatHeader s → ∀ covered, Ends FatHeader RewriteError.IsCrash
      (insertTargetProbes covProb methodId leaveMethod insertions s covered) := by
  induction insertions with
  | nil =>
      intro s h covered
      exact h
  | cons insertion rest ih =>
      intro s h covered
      apply Ends.ite
      · intro _
        exact ih h _
      · intro _
        apply Ends.ite
        · intro _
          apply (makeProbeInsertion_ends covProb methodId h
            ⟨insertion.target, nullPtr, insertion.probe, false⟩).bind
          intro s h
          exact ih h _
        · intro _
          exact ih (rerouteTailcallRet_fat covProb methodId h _ _ _) _

end insertions

end ILRewriter

/-! ### The scan -/

namespace Scan

/-- The scan has kept the kind of header. -/
abbrev Fat (st : Scan) : Prop := FatHeader st.rewriter

variable {st : Scan}

theorem target_ends (h : st.Fat) (m_pTarget branch : ℕ) :
    Ends Fat RewriteError.IsCrash (st.target m_pTarget branch) :=
  Ends.ite (fun _ => isCrash_nullDereference) fun _ => h

theorem switchTargets_ends (branch n : ℕ) : ∀ (curSwitchArg : ℕ) {st : Scan}, st.Fat →
    Ends Fat RewriteError.IsCrash (switchTargets branch n curSwitchArg st) := by
  induction n with
  | zero =>
      intro curSwitchArg st h
      exact h
  | succ n ih =>
      intro curSwitchArg st h
      rw [switchTargets]
      cases st.rewriter.node curSwitchArg with
      | none => exact isCrash_noNode _
      | some slot =>
          apply (target_ends h slot.m_pTarget branch).bind
          intro st h
          exact ih _ h

theorem scanInstr_ends (h : st.Fat) (leaveMethod : Probe) (pInstr : ℕ) (instr : ILInstr) :
    Ends (fun r => r.1.Fat) RewriteError.IsCrash (scanInstr leaveMethod pInstr instr st) := by
  have hpriority : ∀ insertion, (st.priority insertion).Fat := fun _ => h
  apply Ends.ite
  · intro _
    apply Ends.ite
    · intro _
      apply (switchTargets_ends pInstr _ _ (hpriority _)).bind
      intro st h
      exact h
    · intro _
      apply (target_ends (hpriority _) _ _).bind
      intro st h
      exact h
  · intro _
    -- no other instruction follows a pointer
    repeat' first
      | exact h
      | apply Ends.ite <;> intro _

theorem scanFrom_ends (leaveMethod : Probe) (fuel : ℕ) : ∀ (pInstr : ℕ) {st : Scan}, st.Fat →
    Ends Fat RewriteError.IsCrash (scanFrom leaveMethod fuel pInstr st) := by
  induction fuel with
  | zero =>
      intro pInstr st h
      exact h
  | succ fuel ih =>
      intro pInstr st h
      rw [scanFrom]
      apply Ends.ite
      · intro _
        exact h
      · intro _
        cases st.rewriter.node pInstr with
        | none => exact isCrash_nullDereference
        | some instr =>
            apply (scanInstr_ends h leaveMethod pInstr instr).bind
            intro r h
            exact ih _ h

end Scan

namespace ILRewriter

/-- **How the insertion of the probes ends**: with a list for the same kind of header, or with a
crash. -/
theorem rewriteIL_ends (covProb : Probe → ProbeCall) (methodId : Int32) {s : ILRewriter}
    (h : FatHeader s) (isMain : Bool) :
    Ends FatHeader RewriteError.IsCrash (s.rewriteIL covProb methodId isMain) := by
  have hstart : Scan.Fat ⟨s.countOffsets, false, [], []⟩ := h
  apply (Scan.scanFrom_ends (leaveMethod isMain) _ _ hstart).bind
  intro st h
  apply (insertPriorityProbes_ends covProb methodId _ h ∅).bind
  intro r h
  apply (insertTargetProbes_ends covProb methodId _ _ h r.2).bind
  intro s h
  exact addEnterProbe_ends covProb methodId h _

end ILRewriter

/-! ### Export -/

/-- The first pass changes no opcode. -/
theorem emit_ends (maxSize : ℕ) (il : List ILInstr) : ∀ offset,
    Ends (fun r => shortBranches r.1 = shortBranches il) RewriteError.IsCrash
      (emit maxSize offset il) := by
  induction il with
  | nil =>
      intro offset
      rfl
  | cons i is ih =>
      intro offset
      apply Ends.ite
      · intro _
        exact isCrash_bufferOverrun
      · intro _
        apply (ih _).bind
        intro r hr
        show shortBranches ({ i with m_offset := offset } :: r.1) = shortBranches (i :: is)
        rw [shortBranches_cons, shortBranches_cons, hr]

theorem nodeOffset_crashesOnly (nodes : List ILInstr) (endOffset p : ℕ) :
    CrashesOnly (nodeOffset nodes endOffset p) := by
  apply Ends.ite
  · intro _
    exact trivial
  · intro _
    cases findNode ILInstr.addr p nodes with
    | none => exact isCrash_nullDereference
    | some i => exact trivial

/-- What a pass has done to the short branches: there are no more of them, and fewer if a branch
was widened. -/
def Shortened (il : List ILInstr) (r : List ILInstr × List UInt8 × Bool) : Prop :=
  shortBranches r.1 ≤ shortBranches il ∧ (r.2.2 = true → shortBranches r.1 < shortBranches il)

theorem Shortened.cons {i : ILInstr} {is : List ILInstr} {r : List ILInstr × List UInt8 × Bool}
    (h : Shortened is r) : Shortened (i :: is) (i :: r.1, r.2) := by
  have hle := h.1
  have hlt := h.2
  constructor
  · rw [shortBranches_cons, shortBranches_cons]
    omega
  · intro hagain
    have := hlt hagain
    rw [shortBranches_cons, shortBranches_cons]
    omega

theorem Shortened.widen {i : ILInstr} {is : List ILInstr} {r : List ILInstr × List UInt8 × Bool}
    (h : Shortened is r) (hi : opCodeFlags i.m_opcode = .branch8) :
    Shortened (i :: is) ({ i with m_opcode := widenOpcode i.m_opcode } :: r.1, r.2.1, true) := by
  have hle := h.1
  have hshort := opCodeFlags_eq_branch8_iff.mp hi
  have hlt : shortBranches ({ i with m_opcode := widenOpcode i.m_opcode } :: r.1)
      < shortBranches (i :: is) := by
    rw [shortBranches_cons, shortBranches_cons, if_pos hshort,
      if_neg (not_isShortBranch_widenOpcode hshort)]
    omega
  exact ⟨le_of_lt hlt, fun _ => hlt⟩

theorem resolve_ends {offsetOf : ℕ → Except RewriteError ℕ} (hoffset : ∀ p, CrashesOnly (offsetOf p))
    (endOffset : ℕ) (il : List ILInstr) : ∀ (switchBase : ℕ) (bytes : List UInt8),
    Ends (Shortened il) RewriteError.IsCrash (resolve offsetOf endOffset switchBase il bytes) := by
  induction il with
  | nil =>
      intro switchBase bytes
      exact ⟨le_refl _, fun h => absurd h Bool.false_ne_true⟩
  | cons i is ih =>
      intro switchBase bytes
      rw [resolve]
      apply Ends.ite <;> intro _
      · exact (ih _ _).bind fun _ h => h.cons
      apply Ends.ite <;> intro _
      · apply (hoffset _).bind
        intro target _
        exact (ih _ _).bind fun _ h => h.cons
      apply Ends.ite <;> intro _
      · apply (hoffset _).bind
        intro target _
        apply Ends.ite
        · intro hflags
          apply Ends.ite
          · intro _
            exact (ih _ _).bind fun _ h => h.widen hflags
          · intro _
            exact (ih _ _).bind fun _ h => h.cons
        · intro _
          exact (ih _ _).bind fun _ h => h.cons
      · exact (ih _ _).bind fun _ h => h.cons

theorem exportRound_ends (maxSize : ℕ) (il : List ILInstr) :
    Ends (Shortened il) RewriteError.IsCrash (exportRound maxSize il) := by
  apply (emit_ends maxSize il 0).bind
  intro r hr
  apply (resolve_ends (nodeOffset_crashesOnly r.1 _) _ r.1 0 r.2).mono
  · intro r' h
    rw [Shortened, hr] at h
    exact h
  · intro e he
    exact he

/-- **The `again` loop ends** on every list: each further round has fewer short branches. -/
theorem exportRounds_ends (maxSize rounds : ℕ) : ∀ il : List ILInstr,
    shortBranches il < rounds → ∃ x, exportRounds maxSize rounds il = some x ∧ CrashesOnly x := by
  induction rounds with
  | zero =>
      intro il h
      exact absurd h (Nat.not_lt_zero _)
  | succ rounds ih =>
      intro il h
      have hround := exportRound_ends maxSize il
      rw [exportRounds]
      cases hr : exportRound maxSize il with
      | error e => exact ⟨_, rfl, hround.of_error hr⟩
      | ok r =>
          obtain ⟨nodes, bytes, again⟩ := r
          have hshortened := hround.of_ok hr
          cases again with
          | false => exact ⟨_, rfl, trivial⟩
          | true =>
              have hlt : shortBranches nodes < shortBranches il := hshortened.2 rfl
              exact ih nodes (by omega)

namespace ILRewriter

variable (s : ILRewriter)

theorem exportClause_crashesOnly (endOffset : ℕ) (c : EHClause) :
    CrashesOnly (s.exportClause endOffset c) := by
  have hoffset := nodeOffset_crashesOnly s.m_IL endOffset
  refine (hoffset _).bind fun _ _ => (hoffset _).bind fun _ _ => (hoffset _).bind fun _ _ =>
    (hoffset _).bind fun _ _ => ?_
  apply Ends.ite
  · intro _
    exact (hoffset _).bind fun _ _ => trivial
  · intro _
    exact trivial

variable {s} in
theorem exportHeader_crashesOnly (h : FatHeader s) (code : List UInt8) :
    CrashesOnly (s.exportHeader code) := by
  rw [exportHeader, if_neg (by rw [h]; exact Bool.false_ne_true)]
  exact (Ends.mapM (s.exportClause_crashesOnly code.length) s.m_pEH).bind fun _ _ => trivial

/-- As many rounds as there are nodes, and one more, are always enough. -/
theorem exportRounds_isSome :
    (exportRounds s.maxSize (s.m_IL.length + 1) s.m_IL).isSome = true := by
  obtain ⟨x, hx, -⟩ := exportRounds_ends s.maxSize (s.m_IL.length + 1) s.m_IL
    (Nat.lt_succ_of_le List.countP_le_length)
  rw [hx]
  rfl

/-- `Export` in front of the allocation: the list and its code. -/
def exportCode : Except RewriteError (ILRewriter × List UInt8) := do
  let (nodes, code) ←
    (exportRounds s.maxSize (s.m_IL.length + 1) s.m_IL).get s.exportRounds_isSome
  pure ({ s with m_IL := nodes }, code)

theorem exportBody_eq : s.exportBody (s.m_IL.length + 1)
    = some (s.exportCode >>= fun r => r.1.exportHeader r.2) := by
  have hrounds : exportRounds s.maxSize (s.m_IL.length + 1) s.m_IL
      = some ((exportRounds s.maxSize (s.m_IL.length + 1) s.m_IL).get s.exportRounds_isSome) :=
    (Option.some_get _).symm
  rw [exportBody, exportCode]
  cases hx : (exportRounds s.maxSize (s.m_IL.length + 1) s.m_IL).get s.exportRounds_isSome with
  | error e => rw [hrounds, hx]; rfl
  | ok r => rw [hrounds, hx]; rfl

variable {s} in
theorem exportCode_ends (h : FatHeader s) :
    Ends (fun r => FatHeader r.1) RewriteError.IsCrash s.exportCode := by
  obtain ⟨x, hx, hends⟩ := exportRounds_ends s.maxSize (s.m_IL.length + 1) s.m_IL
    (Nat.lt_succ_of_le List.countP_le_length)
  have hget : (exportRounds s.maxSize (s.m_IL.length + 1) s.m_IL).get s.exportRounds_isSome = x :=
    Option.some.inj ((Option.some_get _).trans hx)
  rw [exportCode, hget]
  apply hends.bind
  intro r _
  exact h

end ILRewriter

/-! ### Everything together -/

section rewriteBody

variable (covProb : Probe → ProbeCall) (methodId : Int32) (isMain : Bool) (body : MethodBody)

/-- `RewriteIL` on the body that `GetILFunctionBody` hands in, up to the allocation. -/
def rewriteCode : Except RewriteError (ILRewriter × List UInt8) := do
  let rewriter ← ILRewriter.importBody body
  let rewriter ← rewriter.rewriteIL covProb methodId isMain
  rewriter.exportCode

/-- The whole body for `SetILFunctionBody`. -/
def rewriteBody : Except RewriteError ExportedBody := do
  let (rewriter, code) ← rewriteCode covProb methodId isMain body
  rewriter.exportHeader code

variable {covProb methodId isMain body}

theorem rewriteBody_ok {s : ILRewriter} {code : List UInt8} {out : ExportedBody}
    (h : rewriteCode covProb methodId isMain body = .ok (s, code))
    (h' : s.exportHeader code = .ok out) : rewriteBody covProb methodId isMain body = .ok out := by
  rw [rewriteBody, h]
  exact h'

/-- **A rewrite that fails** has failed in the decoding loop, or crashed. -/
theorem rewriteCode_error {e : RewriteError}
    (h : rewriteCode covProb methodId isMain body = .error e) :
    ILRewriter.importBody body = .error .corEInvalidProgram ∧ e = .corEInvalidProgram
      ∨ e.IsCrash := by
  have himport := ILRewriter.importBody_ends body
  rw [rewriteCode] at h
  cases hi : ILRewriter.importBody body with
  | error e' =>
      rw [hi] at h
      obtain rfl : e' = e := Except.error.inj h
      rcases himport.of_error hi with rfl | hcrash
      · exact Or.inl ⟨rfl, rfl⟩
      · exact Or.inr hcrash
  | ok s =>
      rw [hi] at h
      have hrewrite := ILRewriter.rewriteIL_ends covProb methodId (himport.of_ok hi) isMain
      have hends := hrewrite.bind fun _ => ILRewriter.exportCode_ends
      exact Or.inr (hends.of_error h)

theorem rewriteCode_ok {s : ILRewriter} {code : List UInt8}
    (h : rewriteCode covProb methodId isMain body = .ok (s, code)) :
    FatHeader s ∧ ILRewriter.importBody body ≠ .error .corEInvalidProgram := by
  have himport := ILRewriter.importBody_ends body
  rw [rewriteCode] at h
  cases hi : ILRewriter.importBody body with
  | error e =>
      rw [hi] at h
      cases h
  | ok s' =>
      rw [hi] at h
      have hrewrite := ILRewriter.rewriteIL_ends covProb methodId (himport.of_ok hi) isMain
      have hends := hrewrite.bind fun _ => ILRewriter.exportCode_ends
      exact ⟨hends.of_ok h, by simp⟩

end rewriteBody

end TestExecutor
