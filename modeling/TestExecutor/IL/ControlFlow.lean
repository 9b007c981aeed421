import Mathlib.Logic.Relation
import TestExecutor.IL.DecoderAgreement
import TestExecutor.IL.MethodBody

/-!
# Control flow of method bodies

Where control can go from a decoded instruction, and which bodies are valid.  Nothing here is
translated: it is what the graph of the managed side, and the rewriter, are compared with.

* `RawInstr.targets`, `RawInstr.fallsThrough`, `RawInstr.successors` — one instruction;
* `RangeKind`, `EhInfo.range`, `EhInfo.Covers` — the try, filter and handler ranges of a clause;
* `entryOffsets`, `Reachable` — the body, from its entry and from its handlers and filters;
* `ValidBody` — bodies that decode, whose targets are instructions, and in which control stays
  inside;
* `RawInstr.transition`, `transition_of_decoded` — what the managed side finds at an instruction;
* `SameStarts`, `transition_at` — on bodies that the managed builder decodes alike, the managed
  transition of every instruction is its control flow.
-/

namespace TestExecutor

open TestExecutor.Library

/-! ### One instruction -/

def IsPrefix (opcode : ℕ) : Prop :=
  opcode = ceeUnaligned ∨ opcode = ceeVolatile ∨ opcode = ceeTailcall ∨ opcode = ceeConstrained
    ∨ opcode = ceeReadonly

instance (opcode : ℕ) : Decidable (IsPrefix opcode) := by unfold IsPrefix; infer_instance

namespace RawInstr

/-- The targets of a branch or of a switch table. -/
def targets (i : RawInstr) : List ℕ :=
  match opCtrl i.opcode with
  | .ctrlBranch => [i.argWord]
  | .ctrlCondBranch => if i.opcode = ceeSwitch then i.slotTargets else [i.argWord]
  | _ => []

/-- Branches, switches, and what leaves the method or the handler. -/
def IsTerminator (i : RawInstr) : Prop :=
  opCtrl i.opcode = .ctrlBranch ∨ opCtrl i.opcode = .ctrlCondBranch
    ∨ opCtrl i.opcode = .ctrlReturn ∨ opCtrl i.opcode = .ctrlThrow ∨ i.opcode = ceeJmp

instance (i : RawInstr) : Decidable i.IsTerminator := by unfold IsTerminator; infer_instance

/-- `call`, `callvirt` and `newobj`. -/
def IsDemandingCall (i : RawInstr) : Prop :=
  i.opcode = ceeCall ∨ i.opcode = ceeCallvirt ∨ i.opcode = ceeNewobj

instance (i : RawInstr) : Decidable i.IsDemandingCall := by unfold IsDemandingCall; infer_instance

def EndsBlock (i : RawInstr) : Prop := i.IsTerminator ∨ i.IsDemandingCall

instance (i : RawInstr) : Decidable i.EndsBlock := by unfold EndsBlock; infer_instance

/-- Control can pass on to the instruction behind. -/
def FallsThrough (i : RawInstr) : Prop := opCtrl i.opcode = .ctrlCondBranch ∨ ¬i.IsTerminator

instance (i : RawInstr) : Decidable i.FallsThrough := by unfold FallsThrough; infer_instance

/-- Where control can go, exceptions apart. -/
def successors (i : RawInstr) : List ℕ := (if i.FallsThrough then [i.next] else []) ++ i.targets

theorem successors_of_not_endsBlock {i : RawInstr} (h : ¬i.EndsBlock) : i.successors = [i.next] := by
  have hterm : ¬i.IsTerminator := fun ht => h (Or.inl ht)
  have htargets : i.targets = [] := by
    unfold targets
    unfold IsTerminator at hterm
    split <;> simp_all
  rw [successors, if_pos (show i.FallsThrough from Or.inr hterm), htargets]
  rfl

end RawInstr

/-! ### Bodies -/

/-- `COR_ILEXCEPTION_CLAUSE_…`: typed, filter, finally and fault clauses. -/
def ClauseKind (flags : ℕ) : Prop := flags = 0 ∨ flags = 1 ∨ flags = 2 ∨ flags = 4

instance (flags : ℕ) : Decidable (ClauseKind flags) := by unfold ClauseKind; infer_instance

/-- Where the handler of a clause, and its filter, start. -/
def EhInfo.entries (eh : EhInfo) : List ℕ :=
  eh.handlerOffset :: if isFilterFlags eh.flags then [eh.classTokenOrFilterOffset] else []

/-- Where an exception enters a clause: at its filter, if there is one. -/
def EhInfo.firstEntry (eh : EhInfo) : ℕ :=
  if isFilterFlags eh.flags then eh.classTokenOrFilterOffset else eh.handlerOffset

theorem EhInfo.firstEntry_mem (eh : EhInfo) : eh.firstEntry ∈ eh.entries := by
  unfold firstEntry entries
  split
  · exact List.mem_cons_of_mem _ (List.mem_singleton_self _)
  · exact List.mem_cons_self

/-- All boundaries of a clause. -/
def EhInfo.boundaries (eh : EhInfo) : List ℕ :=
  [eh.tryOffset, (eh.tryOffset + eh.tryLength) % 2 ^ 32,
    (eh.handlerOffset + eh.handlerLength) % 2 ^ 32] ++ eh.entries

inductive RangeKind where
  | tryBlock | filter | handler
  deriving DecidableEq, Repr

/-- From the first byte to the one behind the last, added up in 32 bits; a filter reaches to its
handler. -/
def EhInfo.range (eh : EhInfo) : RangeKind → Option (ℕ × ℕ)
  | .tryBlock => some (eh.tryOffset, (eh.tryOffset + eh.tryLength) % 2 ^ 32)
  | .filter =>
      if isFilterFlags eh.flags then some (eh.classTokenOrFilterOffset, eh.handlerOffset) else none
  | .handler => some (eh.handlerOffset, (eh.handlerOffset + eh.handlerLength) % 2 ^ 32)

def InRange (r : ℕ × ℕ) (o : ℕ) : Prop := r.1 ≤ o ∧ o < r.2

instance (r : ℕ × ℕ) (o : ℕ) : Decidable (InRange r o) := inferInstanceAs (Decidable (_ ∧ _))

def EhInfo.Covers (eh : EhInfo) (k : RangeKind) (o : ℕ) : Prop := ∃ r ∈ eh.range k, InRange r o

instance (eh : EhInfo) (k : RangeKind) (o : ℕ) : Decidable (eh.Covers k o) :=
  inferInstanceAs (Decidable (∃ r ∈ eh.range k, InRange r o))

/-- Where control enters from outside or by an exception. -/
def entryOffsets (eh : List EhInfo) : List ℕ := 0 :: eh.flatMap EhInfo.entries

/-- Control can go from the instruction at one offset to another offset. -/
def CanGo (is : List RawInstr) (v t : ℕ) : Prop := ∃ i ∈ is, i.offset = v ∧ t ∈ i.successors

def Reachable (eh : List EhInfo) (is : List RawInstr) (v : ℕ) : Prop :=
  ∃ r ∈ entryOffsets eh, Relation.ReflTransGen (CanGo is) r v

/-- An instruction start. -/
def IsStart (is : List RawInstr) (o : ℕ) : Prop := ∃ i ∈ is, i.offset = o

instance (is : List RawInstr) (o : ℕ) : Decidable (IsStart is o) := by
  unfold IsStart; infer_instance

/-- A method body that the CLR would accept, as far as its control flow goes. -/
structure ValidBody (body : MethodBody) (is : List RawInstr) : Prop where
  decodes : decodeAll body.code body.code.size 0 = .ok is
  clauseKinds : ∀ eh ∈ body.eh, ClauseKind eh.flags
  targets : ∀ i ∈ is, ∀ t ∈ i.targets, IsStart is t ∨ t = body.code.size
  boundaries : ∀ eh ∈ body.eh, ∀ o ∈ eh.boundaries, IsStart is o ∨ o = body.code.size
  -- no branch between a prefix and its instruction
  prefixes : ∀ p ∈ is, IsPrefix p.opcode → ∀ i ∈ is, p.next ∉ i.targets
  tails : ∀ p ∈ is, p.opcode = ceeTailcall → ∃ c ∈ is, c.offset = p.next
    ∧ (c.opcode = ceeCall ∨ c.opcode = ceeCalli ∨ c.opcode = ceeCallvirt)
    ∧ ∃ r ∈ is, r.offset = c.next ∧ r.opcode = ceeRet
  -- handlers and filters are entered by exceptions only
  handlers : ∀ i ∈ is, Reachable body.eh is i.offset → i.FallsThrough →
    ∀ eh ∈ body.eh, i.next ∉ eh.entries
  inside : ¬Reachable body.eh is body.code.size

theorem ValidBody.range_boundary {body : MethodBody} {is : List RawInstr} (h : ValidBody body is)
    {eh : EhInfo} (heh : eh ∈ body.eh) {k : RangeKind} {r : ℕ × ℕ} (hr : r ∈ eh.range k) :
    (IsStart is r.1 ∨ r.1 = body.code.size) ∧ (IsStart is r.2 ∨ r.2 = body.code.size) := by
  have hboundary := h.boundaries eh heh
  cases k with
  | tryBlock =>
      obtain rfl : (eh.tryOffset, (eh.tryOffset + eh.tryLength) % 2 ^ 32) = r := Option.some.inj hr
      exact ⟨hboundary _ (by simp [EhInfo.boundaries]), hboundary _ (by simp [EhInfo.boundaries])⟩
  | filter =>
      rw [EhInfo.range] at hr
      split at hr
      · rename_i hfilter
        obtain rfl : (eh.classTokenOrFilterOffset, eh.handlerOffset) = r := Option.some.inj hr
        exact ⟨hboundary _ (by simp [EhInfo.boundaries, EhInfo.entries, hfilter]),
          hboundary _ (by simp [EhInfo.boundaries, EhInfo.entries])⟩
      · cases hr
  | handler =>
      obtain rfl : (eh.handlerOffset, (eh.handlerOffset + eh.handlerLength) % 2 ^ 32) = r :=
        Option.some.inj hr
      exact ⟨hboundary _ (by simp [EhInfo.boundaries, EhInfo.entries]),
        hboundary _ (by simp [EhInfo.boundaries])⟩

variable {eh : List EhInfo} {is : List RawInstr}

theorem Reachable.entry {v : ℕ} (h : v ∈ entryOffsets eh) : Reachable eh is v :=
  ⟨v, h, Relation.ReflTransGen.refl⟩

theorem Reachable.step {v t : ℕ} (h : Reachable eh is v) (hstep : CanGo is v t) :
    Reachable eh is t := by
  obtain ⟨r, hr, hpath⟩ := h
  exact ⟨r, hr, hpath.tail hstep⟩

/-- What contains the entries and is closed under control flow contains all reachable offsets. -/
theorem Reachable.closed {P : ℕ → Prop} {v : ℕ} (h : Reachable eh is v)
    (hentry : ∀ r ∈ entryOffsets eh, P r) (hstep : ∀ a b, P a → CanGo is a b → P b) : P v := by
  obtain ⟨r, hr, hpath⟩ := h
  induction hpath with
  | refl => exact hentry r hr
  | tail _ hab ih => exact hstep _ _ ih hab

/-- Control stays in every set of offsets that contains the entries and is closed. -/
theorem not_reachable_of_closed (offsets : List ℕ) {v : ℕ}
    (hentry : ∀ r ∈ entryOffsets eh, r ∈ offsets)
    (hclosed : ∀ i ∈ is, i.offset ∈ offsets → ∀ t ∈ i.successors, t ∈ offsets)
    (hv : v ∉ offsets) : ¬Reachable eh is v := by
  intro h
  refine hv (h.closed (P := fun v => v ∈ offsets) hentry ?_)
  rintro a t ha ⟨i, hi, rfl, ht⟩
  exact hclosed i hi ha t ht

namespace ValidBody

variable {body : MethodBody}

theorem consecutive (h : ValidBody body is) : Consecutive 0 is body.code.size :=
  (decodeAll_spec body.code.size 0 is h.decodes (Nat.zero_le _) (by omega)).1

theorem decodedAt (h : ValidBody body is) {i : RawInstr} (hi : i ∈ is) :
    DecodedAt body.code i.offset i :=
  (decodeAll_spec body.code.size 0 is h.decodes (Nat.zero_le _) (by omega)).2 i hi

end ValidBody

/-- Distinct instructions of a decoded body start at distinct offsets. -/
theorem Consecutive.eq_of_offset {start stop : ℕ} (h : Consecutive start is stop) {i j : RawInstr}
    (hi : i ∈ is) (hj : j ∈ is) (heq : i.offset = j.offset) : i = j :=
  h.disjoint hi hj (le_of_eq heq) (heq ▸ i.offset_lt_next)

/-- Behind an instruction stands another one, or the end. -/
theorem Consecutive.next_isStart {start stop : ℕ} (h : Consecutive start is stop) {i : RawInstr}
    (hi : i ∈ is) : IsStart is i.next ∨ i.next = stop := by
  induction is generalizing start with
  | nil => cases hi
  | cons j is ih =>
      rcases List.mem_cons.mp hi with rfl | hi
      · cases is with
        | nil => exact Or.inr h.2
        | cons k is => exact Or.inl ⟨k, by simp, h.2.1⟩
      · rcases ih h.2 hi with ⟨k, hk, hoffset⟩ | hstop
        · exact Or.inl ⟨k, List.mem_cons_of_mem j hk, hoffset⟩
        · exact Or.inr hstop

namespace ValidBody

variable {body : MethodBody}

/-- Reachable control is at an instruction. -/
theorem isStart_of_reachable (h : ValidBody body is) {v : ℕ} (hv : Reachable body.eh is v) :
    IsStart is v := by
  have hall : IsStart is v ∨ v = body.code.size := by
    refine hv.closed (P := fun v => IsStart is v ∨ v = body.code.size) ?_ ?_
    · intro r hr
      rcases List.mem_cons.mp hr with rfl | hr
      · have hcons := h.consecutive
        cases is with
        | nil => exact Or.inr hcons
        | cons i is => exact Or.inl ⟨i, List.mem_cons_self, hcons.1⟩
      · obtain ⟨clause, hclause, hr⟩ := List.mem_flatMap.mp hr
        exact h.boundaries clause hclause r (List.mem_append_right _ hr)
    · rintro a b - ⟨i, hi, -, hb⟩
      rcases List.mem_append.mp hb with hb | hb
      · split at hb
        · rw [List.mem_singleton.mp hb]
          exact h.consecutive.next_isStart hi
        · cases hb
      · exact h.targets i hi b hb
  exact hall.resolve_right fun hend => h.inside (hend ▸ hv)

theorem next_isStart (h : ValidBody body is) {i : RawInstr} (hi : i ∈ is)
    (hreach : Reachable body.eh is i.offset) (hfalls : i.FallsThrough) : IsStart is i.next := by
  refine h.isStart_of_reachable (hreach.step ⟨i, hi, rfl, ?_⟩)
  rw [RawInstr.successors, if_pos hfalls]
  exact List.mem_append_left _ (List.mem_singleton_self _)

end ValidBody

/-! ### The managed transitions -/

/-- The managed opcode at an instruction: unassigned ones read as `nop`. -/
def managedOpCode (opcode : ℕ) : ℕ := if Assigned opcode then opcode else ceeNop

theorem getOpCode_eq {code : IlCode} {offset opcode : ℕ} (h : decodeOpcode code offset = .ok opcode) :
    getOpCode code offset = .ok (managedOpCode opcode) := by
  simp only [decodeOpcode] at h
  rw [getOpCode]
  split at h
  · rename_i hlead
    split at h
    · cases h
    · rename_i hfits
      obtain rfl := Except.ok.inj h
      rw [if_neg (by simp [isSingleByteOpCode, hlead]), if_neg hfits]
      rfl
  · rename_i hlead
    obtain rfl := Except.ok.inj h
    rw [if_pos (by simpa [isSingleByteOpCode] using hlead)]
    rfl

/-- An unassigned opcode neither branches nor calls. -/
theorem opCtrl_of_not_assigned {opcode : ℕ} (hlt : opcode < ceeCount) (h : ¬Assigned opcode) :
    opCtrl opcode = .ctrlNext ∨ opCtrl opcode = .ctrlMeta := by
  have hall : ∀ opcode < ceeCount, ¬Assigned opcode →
      opCtrl opcode = .ctrlNext ∨ opCtrl opcode = .ctrlMeta := by decide +kernel
  exact hall opcode hlt h

theorem buildInstrs_opcode {bytecode : IlCode} (fuel : ℕ) : ∀ (offset : ℕ) (js : List IlInstr),
    buildInstrs bytecode fuel offset = .ok js →
      ∀ j ∈ js, getOpCode bytecode j.offset = .ok j.opcode := by
  induction fuel with
  | zero =>
      intro offset js h j hj
      obtain rfl : [] = js := Except.ok.inj h
      cases hj
  | succ fuel ih =>
      intro offset js h j hj
      rw [buildInstrs] at h
      split at h
      · cases hop : getOpCode bytecode offset with
        | error e => rw [hop] at h; cases h
        | ok op =>
            rw [hop] at h
            change (if offset + (⟨op, offset⟩ : IlInstr).size > bytecode.size then _ else _) = _ at h
            split at h
            · cases h
            · cases hrest : buildInstrs bytecode fuel (offset + (⟨op, offset⟩ : IlInstr).size) with
              | error e => rw [hrest] at h; cases h
              | ok rest =>
                  rw [hrest] at h
                  obtain rfl : ⟨op, offset⟩ :: rest = js := Except.ok.inj h
                  rcases List.mem_cons.mp hj with rfl | hj
                  · exact hop
                  · exact ih _ rest hrest j hj
      · obtain rfl : [] = js := Except.ok.inj h
        cases hj

theorem lookup_foldl_set_of_notMem {o : ℕ} (js : List IlInstr) : ∀ d : Dictionary ℕ IlInstr,
    o ∉ js.map IlInstr.offset →
      (js.foldl (fun dictionary inst => dictionary.set inst.offset inst) d).lookup o
        = d.lookup o := by
  induction js with
  | nil => intro d _; rfl
  | cons j js ih =>
      intro d h
      rw [List.map_cons, List.mem_cons, not_or] at h
      rw [List.foldl_cons, ih _ h.2, Dictionary.lookup_set_of_ne h.1]

/-- The dictionary finds every instruction. -/
theorem lookup_foldl_set {j : IlInstr} (js : List IlInstr) : ∀ d : Dictionary ℕ IlInstr,
    (js.map IlInstr.offset).Nodup → j ∈ js →
      (js.foldl (fun dictionary inst => dictionary.set inst.offset inst) d).lookup j.offset
        = some j := by
  induction js with
  | nil => intro d _ h; cases h
  | cons k js ih =>
      intro d hnodup h
      obtain ⟨hhead, htail⟩ := List.nodup_cons.mp hnodup
      rw [List.foldl_cons]
      rcases List.mem_cons.mp h with rfl | h
      · rw [lookup_foldl_set_of_notMem js _ hhead, Dictionary.lookup_set_self]
      · exact ih _ htail h

/-- Instructions of both decoders that start alike also end alike. -/
theorem Adjacent.forall₂ {start stop : ℕ} {js : List IlInstr} (hadjacent : Adjacent start js stop)
    (hcons : Consecutive start is stop) (h : js.map IlInstr.offset = is.map RawInstr.offset) :
    List.Forall₂ (fun j i => j.offset = i.offset ∧ j.offset + j.size = i.next) js is := by
  induction js generalizing start is with
  | nil =>
      obtain rfl : is = [] := by simpa using h.symm
      exact List.Forall₂.nil
  | cons j js ih =>
      cases is with
      | nil => cases h
      | cons i is =>
          simp only [List.map_cons, List.cons.injEq] at h
          have hnext : start + j.size = i.next := by
            cases js with
            | nil =>
                obtain rfl : is = [] := by simpa using h.2.symm
                exact hadjacent.2.trans hcons.2.symm
            | cons j' js =>
                cases is with
                | nil => cases h.2
                | cons i' is =>
                    have hstart : j'.offset = i'.offset := (List.cons.inj h.2).1
                    exact hadjacent.2.1.symm.trans (hstart.trans hcons.2.1)
          refine List.Forall₂.cons ⟨h.1, by rw [hadjacent.1, hnext]⟩ (ih ?_ hcons.2 h.2)
          rw [← hnext]
          exact hadjacent.2

/-! ### The transition of a decoded instruction -/

/-- Where control goes from an instruction, as a managed transition. -/
def RawInstr.transition (i : RawInstr) : IpTransition :=
  match opCtrl i.opcode with
  | .ctrlBranch => .unconditionalBranch i.argWord
  | .ctrlCondBranch => .conditionalBranch i.next i.targets
  | .ctrlReturn => .ret
  | .ctrlThrow => .exceptionMechanism
  | _ => .fallThrough i.next

section Decoding

variable {code : IlCode} {i : RawInstr}

theorem opArgs_of_branch {opcode : ℕ} (hlt : opcode < ceeCount)
    (h : opCtrl opcode = .ctrlBranch ∨ opCtrl opcode = .ctrlCondBranch) :
    Assigned opcode ∧ (opArgs opcode = .inlineBrTarget ∨ opArgs opcode = .shortInlineBrTarget
      ∨ opcode = ceeSwitch) := by
  have hall : ∀ opcode < ceeCount,
      (opCtrl opcode = .ctrlBranch ∨ opCtrl opcode = .ctrlCondBranch) →
        Assigned opcode ∧ (opArgs opcode = .inlineBrTarget ∨ opArgs opcode = .shortInlineBrTarget
          ∨ opcode = ceeSwitch) := by decide +kernel
  exact hall opcode hlt h

/-- The branch operand as the managed side reads it. -/
theorem extract_operand (hdec : DecodedAt code i.offset i) {w : ℕ}
    (hsize : operandSize i.opcode = w) :
    extractWord code (i.offset + opcodeSize i.opcode) w = .ok i.operand := by
  have hfits := hdec.next_le
  have hword := hdec.operand_eq
  unfold RawInstr.next RawInstr.operandOffset at hfits
  unfold RawInstr.operandOffset at hword
  rw [hsize] at hword
  rw [extractWord, if_neg (by omega), hword]

theorem eq_switch_of_opArgs {opcode : ℕ} (h : opArgs opcode = .inlineSwitch) :
    opcode = ceeSwitch := by
  refine opCodeFlags_eq_switch_iff.mp ?_
  have harg : opcode ≠ ceeSwitchArg := by
    rintro rfl
    exact absurd h (by decide)
  rw [opCodeFlags, if_neg harg, h]
  rfl

/-- Where a branch goes. -/
theorem successors_of_branch (hne : i.opcode ≠ ceeSwitch) :
    (opCtrl i.opcode = .ctrlBranch → i.successors = [i.argWord])
      ∧ (opCtrl i.opcode = .ctrlCondBranch → i.successors = [i.next, i.argWord]) := by
  refine ⟨fun h => ?_, fun h => ?_⟩
  · have hfalls : ¬i.FallsThrough := by
      rintro (hcond | hterm)
      · rw [h] at hcond
        cases hcond
      · exact hterm (Or.inl h)
    rw [RawInstr.successors, if_neg hfalls, RawInstr.targets, h]
    rfl
  · have hfalls : i.FallsThrough := Or.inl h
    rw [RawInstr.successors, if_pos hfalls, RawInstr.targets, h]
    dsimp only
    rw [if_neg hne]
    rfl

/-- A branch offset relative to the end of the instruction. -/
theorem branch_argWord (hdec : DecodedAt code i.offset i)
    (hne : i.opcode ≠ ceeSwitch) :
    (opArgs i.opcode = .inlineBrTarget →
      i.argWord = intAdd i.operand i.next ∧ operandSize i.opcode = 4)
    ∧ (opArgs i.opcode = .shortInlineBrTarget →
      i.argWord = intAdd (signExtend8 i.operand) i.next ∧ operandSize i.opcode = 1) := by
  have hslots : i.slots.length = 0 := by rw [hdec.slots_length, if_neg hne]
  have harg : i.opcode ≠ ceeSwitchArg := by
    intro heq
    exact absurd (heq ▸ hdec.opcode_lt) (by decide)
  refine ⟨fun h => ?_, fun h => ?_⟩
  · have hflags : opCodeFlags i.opcode = .branch32 := by rw [opCodeFlags, if_neg harg, h]; rfl
    have hsize : operandSize i.opcode = 4 := by rw [operandSize, hflags]; rfl
    refine ⟨?_, hsize⟩
    simp only [RawInstr.argWord, hflags, intAdd, RawInstr.next, hsize, hslots]
    congr 1
    omega
  · have hflags : opCodeFlags i.opcode = .branch8 := by rw [opCodeFlags, if_neg harg, h]; rfl
    have hsize : operandSize i.opcode = 1 := by rw [operandSize, hflags]; rfl
    refine ⟨?_, hsize⟩
    simp only [RawInstr.argWord, hflags, intAdd, RawInstr.next, hsize, hslots]
    congr 1
    omega

theorem operandType2operandSize_eq {opcode : ℕ} (hne : opcode ≠ ceeSwitch)
    (hlt : opcode < ceeCount) : operandType2operandSize (opArgs opcode) = operandSize opcode := by
  have hall : ∀ opcode < ceeCount, opcode ≠ ceeSwitch →
      operandType2operandSize (opArgs opcode) = operandSize opcode := by decide +kernel
  exact hall opcode hlt hne

theorem nextInstruction_eq (hdec : DecodedAt code i.offset i) (hne : i.opcode ≠ ceeSwitch) :
    nextInstruction i.opcode i.offset = i.next := by
  have hslots : i.slots.length = 0 := by rw [hdec.slots_length, if_neg hne]
  rw [nextInstruction, operandType2operandSize_eq hne hdec.opcode_lt, RawInstr.next,
    RawInstr.operandOffset, hslots]
  rfl

/-- The slots as the managed side reads them. -/
theorem inlineSwitch_eq (hdec : DecodedAt code i.offset i) (hswitch : i.opcode = ceeSwitch) :
    inlineSwitch i.opcode code i.offset = .ok (.conditionalBranch i.next i.slotTargets) := by
  have hlength : i.slots.length = i.operand := by rw [hdec.slots_length, if_pos hswitch]
  have hsize : operandSize i.opcode = 4 := by rw [hswitch, operandSize_switch]
  have hend := hdec.next_le
  have hcode := code.length_lt
  change code.size < 2 ^ 31 at hcode
  have hnext : i.next = i.offset + opcodeSize i.opcode + 4 * i.operand + 4 := by
    rw [RawInstr.next, RawInstr.operandOffset, hsize, hlength]
    omega
  have hmod : (i.offset + opcodeSize i.opcode + 4 * i.operand + 4) % 2 ^ 32 = i.next := by
    rw [← hnext]
    exact Nat.mod_eq_of_lt (by omega)
  have hslot : ∀ x ∈ List.range i.operand, (do
      let slot ← extractInt32 code (i.offset + opcodeSize i.opcode + 4 * (x + 1))
      pure (intAdd i.next slot) : Except CfgError ℕ)
      = .ok (intAdd i.next (code.word (i.offset + opcodeSize i.opcode + 4 * (x + 1)) 4)) := by
    intro x hx
    have hlt := List.mem_range.mp hx
    rw [extractInt32, extractWord, if_neg (by omega)]
    rfl
  have htargets : (List.range i.operand).map (fun x =>
      intAdd i.next (code.word (i.offset + opcodeSize i.opcode + 4 * (x + 1)) 4))
      = i.slotTargets := by
    apply List.ext_getElem
    · rw [List.length_map, List.length_range, RawInstr.slotTargets, List.length_map, hlength]
    · intro k hk hk'
      have hks : k < i.slots.length := by rwa [RawInstr.slotTargets, List.length_map] at hk'
      rw [List.getElem_map, List.getElem_range]
      simp only [RawInstr.slotTargets, List.getElem_map]
      rw [hdec.slots_eq k hks, intAdd, RawInstr.operandOffset, hnext]
      congr 2
      · omega
      · congr 1
        omega
  rw [inlineSwitch, extractInt32, extract_operand hdec hsize]
  show (if i.operand ≥ 2 ^ 31 then _ else _) = _
  rw [if_neg (by omega), hmod, mapM_eq_ok hslot, htargets]
  rfl

/-- The distance of a branch as the managed side reads it. -/
theorem exists_branchOffset (hdec : DecodedAt code i.offset i)
    (hargs : opArgs i.opcode = .inlineBrTarget ∨ opArgs i.opcode = .shortInlineBrTarget) :
    ∃ offset, i.argWord = intAdd offset i.next
      ∧ (opArgs i.opcode = .inlineBrTarget →
        extractInt32 code (i.offset + opcodeSize i.opcode) = .ok offset)
      ∧ (opArgs i.opcode = .shortInlineBrTarget →
        extractInt8 code (i.offset + opcodeSize i.opcode) = .ok offset) := by
  have hne : i.opcode ≠ ceeSwitch := by
    intro hswitch
    rw [hswitch] at hargs
    exact absurd hargs (by decide)
  obtain ⟨hlong, hshort⟩ := branch_argWord hdec hne
  rcases hargs with hargs | hargs
  · obtain ⟨harg, hsize⟩ := hlong hargs
    refine ⟨i.operand, harg, fun _ => extract_operand hdec hsize, fun h => ?_⟩
    rw [hargs] at h
    cases h
  · obtain ⟨harg, hsize⟩ := hshort hargs
    refine ⟨signExtend8 i.operand, harg, fun h => ?_, fun _ => ?_⟩
    · rw [hargs] at h
      cases h
    · rw [extractInt8, extract_operand hdec hsize]
      rfl

theorem jumpTargetsForBranch_eq (hdec : DecodedAt code i.offset i)
    (hctrl : opCtrl i.opcode = .ctrlBranch) :
    jumpTargetsForBranch i.opcode code i.offset = .ok (.unconditionalBranch i.argWord) := by
  have hne : i.opcode ≠ ceeSwitch := by
    intro hswitch
    rw [hswitch] at hctrl
    exact absurd hctrl (by decide)
  have hargs := ((opArgs_of_branch hdec.opcode_lt (Or.inl hctrl)).2)
  rw [← or_assoc] at hargs
  have hargs' := hargs.resolve_right hne
  obtain ⟨offset, harg, hlong, hshort⟩ := exists_branchOffset hdec hargs'
  have hoffset : branchOffset i.opcode code (i.offset + opcodeSize i.opcode) = .ok offset := by
    rw [branchOffset]
    split
    · rename_i h
      exact hlong h
    · rename_i h
      exact hshort (hargs'.resolve_left h)
  have hend := hdec.next_le
  have hsize := code.length_lt
  change code.size < 2 ^ 31 at hsize
  rw [jumpTargetsForBranch, hoffset]
  show (if offset = 0 ∧ (!ceeLeaveOpCode i.opcode) = true then _ else _) = _
  rw [nextInstruction_eq hdec hne, harg]
  split
  · rename_i h
    -- a branch of distance zero is one to the next instruction
    rw [h.1, intAdd, Nat.zero_add, Nat.mod_eq_of_lt (by omega)]
    rfl
  · rfl

theorem inlineBrTarget_eq {extract : IlCode → ℕ → Except CfgError ℕ} {offset : ℕ}
    (hdec : DecodedAt code i.offset i) (hctrl : opCtrl i.opcode = .ctrlCondBranch)
    (hne : i.opcode ≠ ceeSwitch) (harg : i.argWord = intAdd offset i.next)
    (hextract : extract code (i.offset + opcodeSize i.opcode) = .ok offset) :
    inlineBrTarget extract i.opcode code i.offset
      = .ok (.conditionalBranch i.next i.targets) := by
  have htargets : i.targets = [intAdd i.next offset] := by
    rw [RawInstr.targets, hctrl]
    dsimp only
    rw [if_neg hne, harg, intAdd, intAdd, Nat.add_comm]
  rw [inlineBrTarget, hextract, htargets, ← nextInstruction_eq hdec hne]
  rfl

/-- **The transition** that the managed side finds at a decoded instruction. -/
theorem transition_of_decoded (hdec : DecodedAt code i.offset i) :
    findNextInstructionOffsetAndEdges i.opcode code i.offset = .ok i.transition := by
  rw [findNextInstructionOffsetAndEdges, RawInstr.transition]
  by_cases hswitch : i.opcode = ceeSwitch
  · have hctrl : opCtrl i.opcode = .ctrlCondBranch := by rw [hswitch]; decide
    have hargs : opArgs i.opcode = .inlineSwitch := by rw [hswitch]; decide
    have htargets : i.targets = i.slotTargets := by
      rw [RawInstr.targets, hctrl]
      exact if_pos hswitch
    rw [hctrl, hargs, htargets]
    exact inlineSwitch_eq hdec hswitch
  have hnext := nextInstruction_eq hdec hswitch
  cases hctrl : opCtrl i.opcode with
  | ctrlNext | ctrlCall | ctrlBreak | ctrlMeta => exact congrArg _ (congrArg _ hnext)
  | ctrlReturn | ctrlThrow => rfl
  | ctrlBranch => exact jumpTargetsForBranch_eq hdec hctrl
  | ctrlCondBranch =>
      have hargs := (opArgs_of_branch hdec.opcode_lt (Or.inr hctrl)).2
      rw [← or_assoc] at hargs
      have hargs' := hargs.resolve_right hswitch
      obtain ⟨offset, harg, hlong, hshort⟩ := exists_branchOffset hdec hargs'
      rcases hargs' with h | h
      · rw [h]
        exact inlineBrTarget_eq hdec hctrl hswitch harg (hlong h)
      · rw [h]
        exact inlineBrTarget_eq hdec hctrl hswitch harg (hshort h)

end Decoding

section Managed

variable {body : MethodBody} {resolves : ℕ → Bool} {m : Method}

theorem Method.ofBody_spec (h : Method.ofBody body resolves = .ok m) :
    m.bytecode = body.code ∧ m.ehClauses = body.eh.map EhClause.create
      ∧ m.resolvesMethod = resolves
      ∧ buildInstrs body.code body.code.size 0 = .ok m.instructions
      ∧ m.offsetToInstr = m.instructions.foldl
        (fun dictionary inst => dictionary.set inst.offset inst) Dictionary.empty := by
  rw [Method.ofBody, build] at h
  cases hbuild : buildInstrs body.code body.code.size 0 with
  | error e => rw [hbuild] at h; cases h
  | ok instructions =>
      rw [hbuild] at h
      obtain rfl := (Except.ok.inj h).symm
      exact ⟨rfl, rfl, rfl, rfl, rfl⟩

/-- The managed instructions start where the decoded ones do. -/
def SameStarts (m : Method) (is : List RawInstr) : Prop :=
  m.instructions.map IlInstr.offset = is.map RawInstr.offset

/-- The managed instruction at the offset of a decoded one. -/
structure ManagedAt (m : Method) (i : RawInstr) (j : IlInstr) : Prop where
  lookup : m.offsetToInstr.lookup i.offset = some j
  offset_eq : j.offset = i.offset
  opcode_eq : j.opcode = managedOpCode i.opcode
  next_eq : i.offset + j.size = i.next

theorem exists_managedAt (hvalid : ValidBody body is) (hm : Method.ofBody body resolves = .ok m)
    (hstarts : SameStarts m is) {i : RawInstr} (hi : i ∈ is) : ∃ j, ManagedAt m i j := by
  obtain ⟨-, -, -, hbuild, hdictionary⟩ := Method.ofBody_spec hm
  have hcons := hvalid.consecutive
  have hadjacent := buildInstrs_adjacent body.code.size 0 m.instructions hbuild (Nat.zero_le _)
    (by omega)
  obtain ⟨j, hj, hoffset, hnext⟩ := forall₂_exists_left (hadjacent.forall₂ hcons hstarts) hi
  have hop := buildInstrs_opcode body.code.size 0 m.instructions hbuild j hj
  have hnodup : (m.instructions.map IlInstr.offset).Nodup := by
    rw [hstarts]
    exact hcons.offsets_pairwise.imp fun h => ne_of_lt h
  refine ⟨j, ?_, hoffset, ?_, hoffset ▸ hnext⟩
  · rw [hdictionary, ← hoffset]
    exact lookup_foldl_set m.instructions Dictionary.empty hnodup hj
  · rw [hoffset, getOpCode_eq (hvalid.decodedAt hi).opcode_eq] at hop
    exact (Except.ok.inj hop).symm

/-- The keys of the dictionary are the instruction starts. -/
theorem mem_keys_offsetToInstr (hm : Method.ofBody body resolves = .ok m)
    (hstarts : SameStarts m is) {o : ℕ} : o ∈ m.offsetToInstr.keys ↔ IsStart is o := by
  obtain ⟨-, -, -, -, hdictionary⟩ := Method.ofBody_spec hm
  rw [hdictionary, mem_keys_foldl_set, hstarts, List.mem_map]
  simp [Dictionary.keys, Dictionary.empty, IsStart]

/-- A transition that says where control goes from an instruction. -/
inductive TransitionOf (i : RawInstr) : IpTransition → Prop where
  | fallThrough (hterm : ¬i.IsTerminator) (hsucc : i.successors = [i.next]) :
      TransitionOf i (.fallThrough i.next)
  | ret (hterm : i.IsTerminator) (hsucc : i.successors = []) : TransitionOf i .ret
  | exceptionMechanism (hterm : i.IsTerminator) (hsucc : i.successors = []) :
      TransitionOf i .exceptionMechanism
  | unconditionalBranch {t : ℕ} (hterm : i.IsTerminator) (hsucc : i.successors = [t]) :
      TransitionOf i (.unconditionalBranch t)
  | conditionalBranch {t : ℕ} (hterm : i.IsTerminator) (hsucc : i.successors = [i.next, t]) :
      TransitionOf i (.conditionalBranch i.next [t])

/-- A `switch` would have a table that the managed builder does not step over. -/
theorem ManagedAt.ne_switch {i : RawInstr} {j : IlInstr} (hj : ManagedAt m i j) :
    i.opcode ≠ ceeSwitch := by
  intro hswitch
  have hop := hj.opcode_eq
  have hnext := hj.next_eq
  have hassigned : Assigned ceeSwitch := by decide
  rw [hswitch, managedOpCode, if_pos hassigned] at hop
  have hsize : j.size = 1 := by rw [IlInstr.size, hop]; decide
  rw [hsize, RawInstr.next, RawInstr.operandOffset, hswitch, operandSize_switch] at hnext
  have hopcode : opcodeSize ceeSwitch = 1 := by decide
  omega

theorem ManagedAt.nextInstruction_eq {i : RawInstr} {j : IlInstr} (hj : ManagedAt m i j) :
    nextInstruction j.opcode i.offset = i.next := by
  have hne : opArgs j.opcode ≠ .inlineSwitch := by
    intro hargs
    have hop := hj.opcode_eq
    rw [eq_switch_of_opArgs hargs, managedOpCode] at hop
    split at hop
    · exact hj.ne_switch hop.symm
    · exact absurd hop (by decide)
  have hsize : operandType2operandSize (opArgs j.opcode) = instrOperandSize (opArgs j.opcode) := by
    revert hne
    cases opArgs j.opcode <;> simp [operandType2operandSize, instrOperandSize]
  rw [← hj.next_eq, nextInstruction, hsize, IlInstr.size, Nat.add_assoc]

/-- An opcode that is assigned is the same on both sides. -/
theorem ManagedAt.opcode_of_assigned {i : RawInstr} {j : IlInstr} (hj : ManagedAt m i j)
    (h : Assigned i.opcode) : j.opcode = i.opcode := by
  rw [hj.opcode_eq, managedOpCode, if_pos h]

/-- What a transition says about the control flow. -/
theorem RawInstr.transitionOf {i : RawInstr} (hne : i.opcode ≠ ceeSwitch) (hjmp : i.opcode ≠ ceeJmp) :
    TransitionOf i i.transition := by
  obtain ⟨hbranch, hcond⟩ := successors_of_branch hne
  have hthrough : opCtrl i.opcode ≠ .ctrlBranch → opCtrl i.opcode ≠ .ctrlCondBranch →
      opCtrl i.opcode ≠ .ctrlReturn → opCtrl i.opcode ≠ .ctrlThrow →
        TransitionOf i (.fallThrough i.next) := by
    intro h₁ h₂ h₃ h₄
    have hterm : ¬i.IsTerminator := by simp [RawInstr.IsTerminator, h₁, h₂, h₃, h₄, hjmp]
    refine TransitionOf.fallThrough hterm ?_
    have hfalls : i.FallsThrough := Or.inr hterm
    have htargets : i.targets = [] := by unfold RawInstr.targets; split <;> simp_all
    rw [RawInstr.successors, if_pos hfalls, htargets]
    rfl
  have hstop : ∀ c, opCtrl i.opcode = c → (c = .ctrlReturn ∨ c = .ctrlThrow) →
      i.IsTerminator ∧ i.successors = [] := by
    intro c hc hstop
    have hterm : i.IsTerminator := by
      rcases hstop with rfl | rfl
      · exact Or.inr (Or.inr (Or.inl hc))
      · exact Or.inr (Or.inr (Or.inr (Or.inl hc)))
    have hfalls : ¬i.FallsThrough := by
      rintro (h | h)
      · rw [hc] at h
        subst h
        rcases hstop with h | h <;> cases h
      · exact h hterm
    have htargets : i.targets = [] := by
      rw [RawInstr.targets, hc]
      rcases hstop with rfl | rfl <;> rfl
    exact ⟨hterm, by rw [RawInstr.successors, if_neg hfalls, htargets]; rfl⟩
  rw [RawInstr.transition]
  cases hc : opCtrl i.opcode with
  | ctrlNext | ctrlCall | ctrlBreak | ctrlMeta =>
      exact hthrough (by simp [hc]) (by simp [hc]) (by simp [hc]) (by simp [hc])
  | ctrlReturn =>
      obtain ⟨hterm, hsucc⟩ := hstop _ hc (Or.inl rfl)
      exact TransitionOf.ret hterm hsucc
  | ctrlThrow =>
      obtain ⟨hterm, hsucc⟩ := hstop _ hc (Or.inr rfl)
      exact TransitionOf.exceptionMechanism hterm hsucc
  | ctrlBranch => exact TransitionOf.unconditionalBranch (Or.inl hc) (hbranch hc)
  | ctrlCondBranch =>
      have htargets : i.targets = [i.argWord] := by
        rw [RawInstr.targets, hc]
        exact if_neg hne
      dsimp only
      rw [htargets]
      exact TransitionOf.conditionalBranch (Or.inr (Or.inl hc)) (hcond hc)

/-- **The managed transition** of an instruction is its control flow. -/
theorem transition_at (hvalid : ValidBody body is) (hm : Method.ofBody body resolves = .ok m)
    {i : RawInstr} (hi : i ∈ is) (hjmp : i.opcode ≠ ceeJmp) {j : IlInstr} (hj : ManagedAt m i j) :
    ∃ tr, findNextInstructionOffsetAndEdges j.opcode m.bytecode i.offset = .ok tr
      ∧ TransitionOf i tr := by
  have hdec := hvalid.decodedAt hi
  rw [(Method.ofBody_spec hm).1]
  by_cases hassigned : Assigned i.opcode
  · rw [hj.opcode_of_assigned hassigned]
    exact ⟨_, transition_of_decoded hdec, RawInstr.transitionOf hj.ne_switch hjmp⟩
  · have hnext := hj.nextInstruction_eq
    have hctrl := opCtrl_of_not_assigned hdec.opcode_lt hassigned
    have htransition : i.transition = .fallThrough i.next := by
      rw [RawInstr.transition]
      rcases hctrl with h | h <;> rw [h]
    rw [hj.opcode_eq, managedOpCode, if_neg hassigned] at hnext ⊢
    refine ⟨.fallThrough (nextInstruction ceeNop i.offset), rfl, ?_⟩
    rw [hnext, ← htransition]
    exact RawInstr.transitionOf hj.ne_switch hjmp

/-- The managed side takes for a call what is one; `tail.` apart. -/
theorem isDemandingCall_iff {i : RawInstr} {j : IlInstr} (hj : ManagedAt m i j)
    (htail : i.opcode ≠ ceeTailcall) :
    isDemandingCallOpCode j.opcode = true ↔ i.IsDemandingCall := by
  have hiff : ∀ opcode, opcode ≠ ceeTailcall → (isDemandingCallOpCode opcode = true
      ↔ opcode = ceeCall ∨ opcode = ceeCallvirt ∨ opcode = ceeNewobj) := by
    intro opcode hne
    simp only [isDemandingCallOpCode, isCallOpCode, isNewObjOpCode, Bool.or_eq_true,
      decide_eq_true_eq]
    tauto
  unfold RawInstr.IsDemandingCall
  by_cases hassigned : Assigned i.opcode
  · rw [hj.opcode_of_assigned hassigned]
    exact hiff _ htail
  · rw [hj.opcode_eq, managedOpCode, if_neg hassigned]
    constructor
    · intro h
      exact absurd h (by decide)
    · rintro (h | h | h) <;> rw [h] at hassigned <;> exact absurd (by decide) hassigned

/-- A call site whose token the module resolves. -/
theorem parseCallSite_at (hvalid : ValidBody body is) (hm : Method.ofBody body resolves = .ok m)
    {i : RawInstr} (hi : i ∈ is) {j : IlInstr} (hj : ManagedAt m i j) (hcall : i.IsDemandingCall)
    (hresolves : resolves i.operand = true) : m.parseCallSite i.offset = .ok j.opcode := by
  obtain ⟨hbytes, -, hres, -, -⟩ := Method.ofBody_spec hm
  have hdec := hvalid.decodedAt hi
  have hassigned : Assigned i.opcode ∧ operandSize i.opcode = 4 := by
    rcases hcall with h | h | h <;> rw [h] <;> decide
  have hop := hj.opcode_of_assigned hassigned.1
  have hread : readOpCode m.bytecode i.offset = .ok j.opcode := by
    rw [readOpCode, hbytes, getOpCode_eq hdec.opcode_eq, ← hj.opcode_eq]
  have htoken : extractInt32 m.bytecode (i.offset + opcodeSize j.opcode) = .ok i.operand := by
    rw [hbytes, hop]
    exact extract_operand hdec hassigned.2
  rw [Method.parseCallSite, hread]
  show (extractInt32 m.bytecode (i.offset + opcodeSize j.opcode) >>= _) = _
  rw [htoken]
  show (if m.resolvesMethod i.operand then _ else _) = _
  rw [hres, if_pos hresolves]
  rfl

end Managed

end TestExecutor
