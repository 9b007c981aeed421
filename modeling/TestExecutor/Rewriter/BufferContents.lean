import Mathlib.Data.List.GetD
import TestExecutor.Rewriter.ExportStores

/-!
# What Export leaves in its buffer

The buffer comes from `new BYTE[]` and is not cleared between the rounds.

* `BufferStore.apply`, `applyStores` — a buffer behind some stores; `applyStores_congr`: what it
  held before does not matter where they are;
* `emissionLoop_applied` — the first pass, which leaves the operands of the branches open;
* `resolve_eq` — the second pass, as the model of `Export` has it;
* `patchLoop_covers` — it closes them all when no branch is widened;
* `roundLog_eq`, `exportLog_code` — so behind the last round the buffer holds the code that the
  model of `Export` computes, whatever it held before.
-/

namespace TestExecutor

open TestExecutor.Library

/-! ### Stores -/

/-- The buffer behind a store. -/
def BufferStore.apply (store : BufferStore) (buffer : ℕ → UInt8) (k : ℕ) : UInt8 :=
  if store.index ≤ k ∧ k < store.index + store.bytes.length then
    store.bytes.getD (k - store.index) 0
  else buffer k

def applyStores (buffer : ℕ → UInt8) (stores : List BufferStore) : ℕ → UInt8 :=
  stores.foldl (fun buffer store => store.apply buffer) buffer

theorem applyStores_append (buffer : ℕ → UInt8) (stores stores' : List BufferStore) :
    applyStores buffer (stores ++ stores') = applyStores (applyStores buffer stores) stores' :=
  List.foldl_append

/-- What is stored over does not matter. -/
theorem applyStores_congr {stores : List BufferStore} {buffer buffer' : ℕ → UInt8} {k : ℕ}
    (h : buffer k = buffer' k ∨ ∃ store ∈ stores, k ∈ store.indices) :
    applyStores buffer stores k = applyStores buffer' stores k := by
  induction stores generalizing buffer buffer' with
  | nil =>
      rcases h with h | ⟨store, hstore, -⟩
      · exact h
      · exact absurd hstore List.not_mem_nil
  | cons store stores ih =>
      refine ih ?_
      by_cases hk : store.index ≤ k ∧ k < store.index + store.bytes.length
      · left
        show store.apply buffer k = store.apply buffer' k
        rw [BufferStore.apply, BufferStore.apply, if_pos hk, if_pos hk]
      · rcases h with h | ⟨store', hstore', hk'⟩
        · left
          show store.apply buffer k = store.apply buffer' k
          rw [BufferStore.apply, BufferStore.apply, if_neg hk, if_neg hk, h]
        · rcases List.mem_cons.mp hstore' with rfl | hstore'
          · exact absurd (List.mem_range'_1.mp hk') hk
          · exact Or.inr ⟨store', hstore', hk'⟩

theorem applyStores_notMem {stores : List BufferStore} {buffer : ℕ → UInt8} {k : ℕ}
    (h : ∀ store ∈ stores, k ∉ store.indices) : applyStores buffer stores k = buffer k := by
  induction stores generalizing buffer with
  | nil => rfl
  | cons store stores ih =>
      have hk : ¬(store.index ≤ k ∧ k < store.index + store.bytes.length) := fun hk =>
        h store List.mem_cons_self (List.mem_range'_1.mpr hk)
      refine (ih fun store' hstore' => h store' (List.mem_cons_of_mem store hstore')).trans ?_
      exact if_neg hk

/-- Bytes as a buffer with nothing behind them. -/
def bufferOf (bytes : List UInt8) (k : ℕ) : UInt8 := bytes.getD k 0

/-- A store into bytes that are there. -/
def storeBytes (bytes : List UInt8) (store : BufferStore) : List UInt8 :=
  bytes.take store.index ++ store.bytes ++ bytes.drop (store.index + store.bytes.length)

theorem patchBytes_eq (bytes : List UInt8) (p w v : ℕ) :
    patchBytes bytes p w v = storeBytes bytes ⟨p, leBytes w v⟩ := by
  rw [patchBytes, storeBytes, leBytes_length]

theorem storeBytes_length {bytes : List UInt8} {store : BufferStore}
    (h : store.index + store.bytes.length ≤ bytes.length) :
    (storeBytes bytes store).length = bytes.length := by
  simp only [storeBytes, List.length_append, List.length_take, List.length_drop]
  omega

theorem apply_bufferOf {bytes : List UInt8} {store : BufferStore}
    (h : store.index + store.bytes.length ≤ bytes.length) :
    store.apply (bufferOf bytes) = bufferOf (storeBytes bytes store) := by
  funext k
  unfold BufferStore.apply bufferOf storeBytes
  have htake : (bytes.take store.index).length = store.index := by
    rw [List.length_take]
    omega
  rw [List.append_assoc]
  by_cases hbefore : k < store.index
  · rw [if_neg (by omega), List.getD_append _ _ _ _ (by omega), List.getD_eq_getElem?_getD,
      List.getD_eq_getElem?_getD, List.getElem?_take_of_lt hbefore]
  · rw [List.getD_append_right _ _ _ _ (by omega), htake]
    by_cases hbehind : k < store.index + store.bytes.length
    · rw [if_pos (by omega), List.getD_append _ _ _ _ (by omega)]
    · rw [if_neg (by omega), List.getD_append_right _ _ _ _ (by omega),
        List.getD_eq_getElem?_getD, List.getD_eq_getElem?_getD, List.getElem?_drop]
      congr 2
      omega

theorem foldl_storeBytes_length {stores : List BufferStore} {bytes : List UInt8}
    (h : ∀ store ∈ stores, store.index + store.bytes.length ≤ bytes.length) :
    (stores.foldl storeBytes bytes).length = bytes.length := by
  induction stores generalizing bytes with
  | nil => rfl
  | cons store stores ih =>
      have hlength := storeBytes_length (h store List.mem_cons_self)
      rw [List.foldl_cons, ih fun store' hstore' => ?_, hlength]
      rw [hlength]
      exact h store' (List.mem_cons_of_mem store hstore')

theorem applyStores_bufferOf {stores : List BufferStore} {bytes : List UInt8}
    (h : ∀ store ∈ stores, store.index + store.bytes.length ≤ bytes.length) :
    applyStores (bufferOf bytes) stores = bufferOf (stores.foldl storeBytes bytes) := by
  induction stores generalizing bytes with
  | nil => rfl
  | cons store stores ih =>
      have hfits := h store List.mem_cons_self
      show applyStores (store.apply (bufferOf bytes)) stores = _
      rw [apply_bufferOf hfits, List.foldl_cons]
      refine ih fun store' hstore' => ?_
      rw [storeBytes_length hfits]
      exact h store' (List.mem_cons_of_mem store hstore')

/-! ### The first pass -/

theorem emitOpcode_applied {offset opcode k : ℕ} (buffer : ℕ → UInt8) (hle : offset ≤ k)
    (hlt : k < (emitOpcode offset opcode).2) :
    applyStores buffer (emitOpcode offset opcode).1 k
      = (opcodeBytes opcode).getD (k - offset) 0 := by
  unfold emitOpcode opcodeBytes at *
  split_ifs at hlt ⊢
  · obtain rfl | rfl : k = offset ∨ k = offset + 1 := by
      dsimp only at hlt
      omega
    · simp [applyStores, BufferStore.apply]
    · simp [applyStores, BufferStore.apply]
  · obtain rfl : k = offset := by
      dsimp only at hlt
      omega
    simp [applyStores, BufferStore.apply]
  · dsimp only at hlt
    omega

theorem emitOperand_applied {offset k : ℕ} {i : ILInstr} (buffer : ℕ → UInt8)
    (hplain : (opCodeFlags i.m_opcode).branchTarget = false) (hle : offset ≤ k)
    (hlt : k < (emitOperand offset i).2) :
    applyStores buffer (emitOperand offset i).1 k = (operandBytes i).getD (k - offset) 0 := by
  have hstored : ∀ w v, k < offset + w → applyStores buffer [⟨offset, leBytes w v⟩] k
      = (leBytes w v).getD (k - offset) 0 := by
    intro w v hk
    refine if_pos ⟨hle, ?_⟩
    rw [leBytes_length]
    exact hk
  rw [emitOperand_next] at hlt
  unfold emitOperand operandBytes operandSize at *
  cases hflags : opCodeFlags i.m_opcode with
  | branch8 | branch32 =>
      rw [hflags] at hplain
      cases hplain
  | arg0 =>
      rw [hflags] at hlt
      exact absurd hlt (not_lt.mpr hle)
  | arg8 | arg16 | arg32 | arg64 | switch =>
      rw [hflags] at hlt
      exact hstored _ _ hlt

/-- The place of a branch operand, which the first pass leaves open. -/
def OpenAt (nodes : List ILInstr) (k : ℕ) : Prop :=
  ∃ i ∈ nodes, (opCodeFlags i.m_opcode).branchTarget = true
    ∧ i.operandStart ≤ k ∧ k < i.m_offset + i.byteSize

/-- The bytes of one node, but for an operand that is left open. -/
theorem emitInstr_applied {offset k : ℕ} (i : ILInstr) (buffer : ℕ → UInt8) (hle : offset ≤ k)
    (hlt : k < offset + i.byteSize) :
    applyStores buffer ((emitOpcode offset i.m_opcode).1
        ++ (emitOperand (emitOpcode offset i.m_opcode).2 i).1) k = (rawBytes i).getD (k - offset) 0
      ∨ (opCodeFlags i.m_opcode).branchTarget = true
        ∧ offset + i.byteSize - operandSize i.m_opcode ≤ k := by
  have hopcode := emitOpcode_next offset i.m_opcode
  have hlength := opcodeBytes_length i.m_opcode
  have hsize : i.byteSize = (opcodeBytes i.m_opcode).length + operandSize i.m_opcode := by
    rw [hlength, ILInstr.byteSize]
  rw [applyStores_append, rawBytes]
  by_cases hoperand : k < (emitOpcode offset i.m_opcode).2
  · left
    rw [List.getD_append _ _ _ _ (by omega), ← emitOpcode_applied buffer hle hoperand]
    refine applyStores_notMem fun store hstore hk => ?_
    have := (emitOperand_within hstore).bounds hk
    omega
  · by_cases hbranch : (opCodeFlags i.m_opcode).branchTarget = true
    · exact Or.inr ⟨hbranch, by omega⟩
    · left
      have hnext := emitOperand_next (emitOpcode offset i.m_opcode).2 i
      rw [List.getD_append_right _ _ _ _ (by omega),
        emitOperand_applied _ (by simpa using hbranch) (by omega) (by omega)]
      congr 1
      omega

/-- **The first pass** leaves the bytes of the layout, but for the operands of the branches. -/
theorem emissionLoop_applied {il : List ILInstr} {offset k : ℕ} (buffer : ℕ → UInt8)
    (hle : offset ≤ k) (hlt : k < offset + totalSize il) :
    applyStores buffer (emissionLoop offset il).2.1 k = (il.flatMap rawBytes).getD (k - offset) 0
      ∨ OpenAt (countOffsetsFrom offset il) k := by
  induction il generalizing offset buffer with
  | nil =>
      rw [totalSize_nil] at hlt
      omega
  | cons i is ih =>
      have hlength := rawBytes_length i
      rw [totalSize_cons] at hlt
      rw [emissionLoop_cons]
      dsimp only
      rw [applyStores_append, List.flatMap_cons, countOffsetsFrom]
      by_cases hinstr : k < offset + i.byteSize
      · have hlater : ∀ store ∈ (emissionLoop (offset + i.byteSize) is).2.1, k ∉ store.indices := by
          intro store hstore hk
          have := (emissionLoop_within hstore).bounds hk
          omega
        rw [applyStores_notMem hlater, List.getD_append _ _ _ _ (by omega)]
        rcases emitInstr_applied i buffer hle hinstr with hbytes | ⟨hbranch, hstart⟩
        · exact Or.inl hbytes
        · exact Or.inr ⟨_, List.mem_cons_self, hbranch, hstart, hinstr⟩
      · rw [List.getD_append_right _ _ _ _ (by omega), hlength,
          show k - offset - i.byteSize = k - (offset + i.byteSize) by omega]
        have hstart : offset + i.byteSize ≤ k := not_lt.mp hinstr
        rcases ih _ hstart (by omega) with hbytes | ⟨j, hj, hopen⟩
        · exact Or.inl hbytes
        · exact Or.inr ⟨j, List.mem_cons_of_mem _ hj, hopen⟩

/-! ### The second pass -/

theorem patchLoop_cons {offsetOf : ℕ → Except RewriteError ℕ} {endOffset switchBase : ℕ}
    {i : ILInstr} {is : List ILInstr} {r : List BackPatch × ILInstr × ℕ × Bool}
    (h : patchInstr offsetOf (headOffset endOffset is) switchBase i = .ok r) :
    patchLoop offsetOf endOffset switchBase (i :: is)
      = (r.1 ++ (patchLoop offsetOf endOffset r.2.2.1 is).1,
        (patchLoop offsetOf endOffset r.2.2.1 is).2.map fun r' =>
          (r.2.1 :: r'.1, r.2.2.2 || r'.2)) := by
  rw [patchLoop, h]

/-- The second pass from a node on, as `resolve` has it: the node is patched, then the rest. -/
theorem resolve_cons {offsetOf : ℕ → Except RewriteError ℕ} {endOffset switchBase : ℕ}
    {i : ILInstr} {is : List ILInstr} {r : List BackPatch × ILInstr × ℕ × Bool}
    {bytes : List UInt8} {resolved : Except RewriteError (List ILInstr × List UInt8 × Bool)}
    (h : patchInstr offsetOf (headOffset endOffset is) switchBase i = .ok r)
    (hrest : resolved = (patchLoop offsetOf endOffset r.2.2.1 is).2.map fun r' =>
      (r'.1, ((patchLoop offsetOf endOffset r.2.2.1 is).1.map BackPatch.store).foldl storeBytes
        ((r.1.map BackPatch.store).foldl storeBytes bytes), r'.2)) :
    (do
      let (nodes, bytes, again) ← resolved
      pure (r.2.1 :: nodes, bytes, r.2.2.2 || again))
      = (patchLoop offsetOf endOffset switchBase (i :: is)).2.map fun r' =>
        (r'.1, ((patchLoop offsetOf endOffset switchBase (i :: is)).1.map BackPatch.store).foldl
          storeBytes bytes, r'.2) := by
  rw [patchLoop_cons h, hrest]
  generalize patchLoop offsetOf endOffset r.2.2.1 is = rest
  obtain ⟨rest, outcome⟩ := rest
  cases outcome with
  | error e => rfl
  | ok r' =>
      show Except.ok _ = Except.ok _
      dsimp only
      rw [List.map_append, List.foldl_append]

/-- **The second pass** is that of `resolve`. -/
theorem resolve_eq (offsetOf : ℕ → Except RewriteError ℕ) (endOffset : ℕ) (is : List ILInstr) :
    ∀ (switchBase : ℕ) (bytes : List UInt8), resolve offsetOf endOffset switchBase is bytes
      = (patchLoop offsetOf endOffset switchBase is).2.map fun r =>
        (r.1, ((patchLoop offsetOf endOffset switchBase is).1.map BackPatch.store).foldl storeBytes
          bytes, r.2) := by
  induction is with
  | nil => intro switchBase bytes; rfl
  | cons i is ih =>
      intro switchBase bytes
      rw [resolve]
      by_cases hswitch : i.m_opcode = ceeSwitch
      · have hinstr : patchInstr offsetOf (headOffset endOffset is) switchBase i
            = .ok ([], i, (i.m_offset + 1 + 4 * (i.m_Arg32 + 1)) % 2 ^ 32, false) := if_pos hswitch
        rw [if_pos hswitch]
        exact resolve_cons hinstr (ih _ bytes)
      rw [if_neg hswitch]
      by_cases hslot : i.m_opcode = ceeSwitchArg
      · rw [if_pos hslot]
        have hinstr : patchInstr offsetOf (headOffset endOffset is) switchBase i = _ :=
          (if_neg hswitch).trans (if_pos hslot)
        cases htarget : offsetOf i.m_pTarget with
        | error e =>
            rw [htarget] at hinstr
            rw [patchLoop, hinstr]
            rfl
        | ok target =>
            rw [htarget] at hinstr
            show (resolve offsetOf endOffset switchBase is _ >>= _) = _
            rw [patchBytes_eq]
            exact resolve_cons hinstr (ih _ _)
      rw [if_neg hslot]
      by_cases hbranch : (opCodeFlags i.m_opcode).branchTarget = true
      · rw [if_pos hbranch]
        have hinstr : patchInstr offsetOf (headOffset endOffset is) switchBase i = _ :=
          (if_neg hswitch).trans ((if_neg hslot).trans (if_pos hbranch))
        cases htarget : offsetOf i.m_pTarget with
        | error e =>
            rw [htarget] at hinstr
            rw [patchLoop, hinstr]
            rfl
        | ok target =>
            rw [htarget] at hinstr
            show (if opCodeFlags i.m_opcode = .branch8 then _ else _ : Except _ _) = _
            by_cases hshort : opCodeFlags i.m_opcode = .branch8
            · replace hinstr := hinstr.trans (if_pos hshort)
              rw [if_pos hshort]
              by_cases hfar : (!fitsInt8 (offsetDelta target (headOffset endOffset is))) = true
              · rw [if_pos hfar] at hinstr ⊢
                exact resolve_cons hinstr (ih _ bytes)
              · rw [if_neg hfar] at hinstr ⊢
                rw [patchBytes_eq]
                exact resolve_cons hinstr (ih _ _)
            · rw [if_neg hshort, patchBytes_eq]
              exact resolve_cons (hinstr.trans (if_neg hshort)) (ih _ _)
      · rw [if_neg hbranch]
        have hinstr : patchInstr offsetOf (headOffset endOffset is) switchBase i
            = .ok ([], i, switchBase, false) :=
          (if_neg hswitch).trans ((if_neg hslot).trans (if_neg hbranch))
        exact resolve_cons hinstr (ih _ bytes)

/-- What a pass that succeeds does, it also does when more pointers can be followed. -/
theorem patchLoop_extend {f g : ℕ → Except RewriteError ℕ} {endOffset : ℕ}
    (hfg : ∀ p target, f p = .ok target → g p = .ok target) {is : List ILInstr} :
    ∀ {switchBase : ℕ} {r : List ILInstr × Bool},
      (patchLoop f endOffset switchBase is).2 = .ok r →
        patchLoop g endOffset switchBase is = patchLoop f endOffset switchBase is := by
  induction is with
  | nil => intro switchBase r _; rfl
  | cons i is ih =>
      intro switchBase r h
      rw [patchLoop] at h
      cases hinstr : patchInstr f (headOffset endOffset is) switchBase i with
      | error e => rw [hinstr] at h; cases h
      | ok r' =>
          have hinstr' : patchInstr g (headOffset endOffset is) switchBase i = .ok r' := by
            revert hinstr
            unfold patchInstr
            cases htarget : f i.m_pTarget with
            | ok target => rw [hfg _ _ htarget]; exact id
            | error e =>
                dsimp only
                split_ifs <;> intro hinstr <;> first | exact hinstr | cases hinstr
          rw [hinstr] at h
          change (patchLoop f endOffset r'.2.2.1 is).2.map _ = _ at h
          cases hrest : (patchLoop f endOffset r'.2.2.1 is).2 with
          | error e => rw [hrest] at h; cases h
          | ok rest => rw [patchLoop_cons hinstr, patchLoop_cons hinstr', ih hrest]

/-- A branch that is not widened has its whole operand patched. -/
theorem patchInstr_covers {offsetOf : ℕ → Except RewriteError ℕ} {next switchBase switchBase' k : ℕ}
    {i i' : ILInstr} {patches : List BackPatch} (hnext : next = i.m_offset + i.byteSize)
    (h : patchInstr offsetOf next switchBase i = .ok (patches, i', switchBase', false))
    (hbranch : (opCodeFlags i.m_opcode).branchTarget = true) (hstart : i.operandStart ≤ k)
    (hstop : k < i.m_offset + i.byteSize) :
    ∃ store ∈ patches.map BackPatch.store, k ∈ store.indices := by
  have hsize : operandSize i.m_opcode ≤ i.byteSize := Nat.le_add_left _ _
  rw [ILInstr.operandStart] at hstart
  rcases patchInstr_cases h with ⟨-, hagain⟩ | ⟨v, -, -, ⟨hslot, rfl⟩ | rfl⟩
  · exact absurd (hagain hbranch) Bool.false_ne_true
  · have hoperand : operandSize i.m_opcode = 4 := by rw [hslot]; decide
    have hbytes : i.byteSize = 4 := byteSize_slot hslot
    refine ⟨_, List.mem_singleton_self _, List.mem_range'_1.mpr ⟨?_, ?_⟩⟩
    · dsimp only
      omega
    · dsimp only
      rw [leBytes_length]
      omega
  · refine ⟨_, List.mem_singleton_self _, List.mem_range'_1.mpr ⟨?_, ?_⟩⟩
    · dsimp only
      omega
    · dsimp only
      rw [leBytes_length]
      omega

/-- When no branch is widened, every operand that was left open is patched. -/
theorem patchLoop_covers {offsetOf : ℕ → Except RewriteError ℕ} {endOffset k : ℕ}
    {il : List ILInstr} : ∀ {o switchBase : ℕ} {nodes : List ILInstr},
      endOffset = o + totalSize il →
      (patchLoop offsetOf endOffset switchBase (countOffsetsFrom o il)).2 = .ok (nodes, false) →
      OpenAt (countOffsetsFrom o il) k →
      ∃ store ∈ (patchLoop offsetOf endOffset switchBase
        (countOffsetsFrom o il)).1.map BackPatch.store, k ∈ store.indices := by
  induction il with
  | nil =>
      intro o switchBase nodes _ _ hopen
      obtain ⟨i, hi, -⟩ := hopen
      exact absurd hi List.not_mem_nil
  | cons i is ih =>
      intro o switchBase nodes hend h hopen
      rw [totalSize_cons, ← Nat.add_assoc] at hend
      have hnext := headOffset_countOffsetsFrom hend
      rw [countOffsetsFrom] at h hopen ⊢
      cases hinstr : patchInstr offsetOf
          (headOffset endOffset (countOffsetsFrom (o + i.byteSize) is)) switchBase
          { i with m_offset := o } with
      | error e => rw [patchLoop, hinstr] at h; cases h
      | ok r =>
          rw [patchLoop_cons hinstr] at h ⊢
          cases hrest : (patchLoop offsetOf endOffset r.2.2.1
              (countOffsetsFrom (o + i.byteSize) is)).2 with
          | error e => rw [hrest] at h; cases h
          | ok rest =>
              rw [hrest] at h
              obtain ⟨-, hagain⟩ := Prod.mk.inj (Except.ok.inj h)
              obtain ⟨hagain, hrest'⟩ := Bool.or_eq_false_iff.mp hagain
              rw [List.map_append]
              obtain ⟨j, hj, hbranch, hstart, hstop⟩ := hopen
              rcases List.mem_cons.mp hj with rfl | hj
              · obtain ⟨patches, i', switchBase', again⟩ := r
                obtain rfl : again = false := hagain
                obtain ⟨store, hstore, hk⟩ := patchInstr_covers hnext hinstr hbranch hstart hstop
                exact ⟨store, List.mem_append_left _ hstore, hk⟩
              · obtain ⟨store, hstore, hk⟩ := ih hend
                  (hrest.trans (congrArg Except.ok (Prod.ext rfl hrest')))
                  ⟨j, hj, hbranch, hstart, hstop⟩
                exact ⟨store, List.mem_append_right _ hstore, hk⟩

/-! ### The rounds are those of `exportRounds` -/

theorem nodeOffset_through (outside : ℕ → Except RewriteError ℕ) (nodes : List ILInstr)
    (endOffset p target : ℕ) (h : nodeOffset nodes endOffset p = .ok target) :
    offsetThrough outside nodes endOffset p = .ok target := by
  unfold nodeOffset at h
  unfold offsetThrough
  split_ifs at h ⊢
  · exact h
  · cases hnode : findNode ILInstr.addr p nodes with
    | none => rw [hnode] at h; cases h
    | some i => rw [hnode] at h; exact h

/-- **A round that succeeds** has the same log whatever lies outside of the list, ends with the
nodes of `exportRound`, and leaves its bytes when nothing was widened. -/
theorem roundLog_eq {maxSize : ℕ} {il nodes : List ILInstr} {bytes : List UInt8} {again : Bool}
    (h : exportRound maxSize il = .ok (nodes, bytes, again))
    (outside : ℕ → Except RewriteError ℕ) :
    (roundLog outside il).2 = .ok (nodes, again)
      ∧ (again = false → ∀ (buffer : ℕ → UInt8), ∀ k < bytes.length,
        applyStores buffer (roundLog outside il).1.allStores k = bufferOf bytes k) := by
  have hstop : (emissionLoop 0 il).2.2 = totalSize il := by
    rw [emissionLoop_stop, Nat.zero_add]
  have hlayout : (emissionLoop 0 il).1 = countOffsetsFrom 0 il := emissionLoop_nodes 0 il
  by_cases hfits : totalSize il ≤ maxSize
  · rw [exportRound, emit_eq il 0 (by omega)] at h
    change resolve (nodeOffset (countOffsetsFrom 0 il) (il.flatMap rawBytes).length)
      (il.flatMap rawBytes).length 0 (countOffsetsFrom 0 il) (il.flatMap rawBytes) = _ at h
    rw [rawBytes_flatMap_length, resolve_eq] at h
    cases hpatched : (patchLoop (nodeOffset (countOffsetsFrom 0 il) (totalSize il)) (totalSize il) 0
        (countOffsetsFrom 0 il)).2 with
    | error e => rw [hpatched] at h; cases h
    | ok r =>
        rw [hpatched] at h
        obtain ⟨nodes', again'⟩ := r
        obtain ⟨rfl, hbytes, rfl⟩ : nodes' = nodes ∧ _ = bytes ∧ again' = again := by
          simpa using Except.ok.inj h
        have hlog : roundLog outside il
            = (⟨countOffsetsFrom 0 il, (emissionLoop 0 il).2.1,
                (patchLoop (nodeOffset (countOffsetsFrom 0 il) (totalSize il)) (totalSize il) 0
                  (countOffsetsFrom 0 il)).1⟩,
              .ok (nodes', again')) := by
          rw [← hpatched, ← patchLoop_extend (nodeOffset_through outside _ _) hpatched, ← hlayout,
            ← hstop]
          rfl
        rw [hlog]
        refine ⟨rfl, fun hagain buffer k hk => ?_⟩
        rw [hagain] at hpatched
        have hpatches : ∀ store ∈ (patchLoop (nodeOffset (countOffsetsFrom 0 il) (totalSize il))
            (totalSize il) 0 (countOffsetsFrom 0 il)).1.map BackPatch.store,
            store.index + store.bytes.length ≤ (il.flatMap rawBytes).length := by
          intro store hstore
          obtain ⟨patch, hpatch, rfl⟩ := List.mem_map.mp hstore
          obtain ⟨hnode, hin⟩ := patchLoop_within (Nat.zero_add _).symm hpatch
          have hle := countOffsetsFrom_end_le hnode
          have := hin.2
          rw [rawBytes_flatMap_length]
          omega
        have hlength : bytes.length = totalSize il := by
          rw [← hbytes, foldl_storeBytes_length hpatches, rawBytes_flatMap_length]
        show applyStores buffer ((emissionLoop 0 il).2.1 ++ _) k = _
        rw [applyStores_append, ← hbytes, ← applyStores_bufferOf hpatches]
        refine applyStores_congr ?_
        have hemitted : applyStores buffer (emissionLoop 0 il).2.1 k
            = (il.flatMap rawBytes).getD (k - 0) 0 ∨ OpenAt (countOffsetsFrom 0 il) k :=
          emissionLoop_applied buffer (Nat.zero_le k) (by omega)
        rcases hemitted with hraw | hopen
        · exact Or.inl hraw
        · exact Or.inr (patchLoop_covers (Nat.zero_add _).symm hpatched hopen)
  · rw [exportRound, emit_overrun il 0 (Nat.zero_le _) (by omega)] at h
    cases h

/-- **The code of `exportRounds`** is what the buffer holds behind all stores of all rounds,
whatever it held before. -/
theorem exportLog_code {maxSize : ℕ} (outside : ℕ → Except RewriteError ℕ) (rounds : ℕ) :
    ∀ {il nodes : List ILInstr} {code : List UInt8},
      exportRounds maxSize rounds il = some (.ok (nodes, code)) →
      ∀ (buffer : ℕ → UInt8), ∀ k < code.length,
        applyStores buffer ((exportLog outside rounds il).flatMap RoundLog.allStores) k
          = bufferOf code k := by
  induction rounds with
  | zero => intro il nodes code h; cases h
  | succ rounds ih =>
      intro il nodes code h buffer k hk
      rw [exportRounds] at h
      cases hround : exportRound maxSize il with
      | error e => rw [hround] at h; cases h
      | ok r =>
          obtain ⟨nodes', bytes, again⟩ := r
          obtain ⟨houtcome, hbytes⟩ := roundLog_eq hround outside
          rw [hround] at h
          rw [exportLog]
          dsimp only at h ⊢
          rw [houtcome]
          cases again with
          | true =>
              rw [if_pos rfl] at h
              rw [List.flatMap_cons, applyStores_append]
              exact ih h _ k hk
          | false =>
              obtain ⟨rfl, rfl⟩ : nodes' = nodes ∧ bytes = code := by simpa using h
              rw [List.flatMap_singleton]
              exact hbytes rfl buffer k hk

end TestExecutor
