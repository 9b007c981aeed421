import TestExecutor.Rewriter.Layouts

/-!
# What Export writes into its buffer

The two passes of `Export` as the stores that they make, over every round of its `again` loop.

* `patchInstr`, `patchLoop` — the second pass, with its stores up to where it crashes;
* `roundLog`, `exportLog` — one round, and all rounds; `outside` is what following a pointer reads
  that is not in the list;
* `emissionLoop_within`, `patchLoop_within` — where the stores of the passes are;
* `exportLog_within` — no round writes behind ten bytes a node, and every patch stays in the
  operand of its own node.
-/

namespace TestExecutor

open TestExecutor.Library

/-! ### The second pass -/

/-- A store of the second pass, and the node whose operand it is. -/
structure BackPatch where
  node : ILInstr
  store : BufferStore
  deriving DecidableEq, Repr

/-- The second pass at one node: what it stores, the node and `switchBase` behind it, and whether a
branch was widened.  Nothing is stored before the target is read. -/
def patchInstr (offsetOf : ℕ → Except RewriteError ℕ) (next switchBase : ℕ) (i : ILInstr) :
    Except RewriteError (List BackPatch × ILInstr × ℕ × Bool) :=
  let opcode := i.m_opcode
  if opcode = ceeSwitch then
    .ok ([], i, (i.m_offset + 1 + 4 * (i.m_Arg32 + 1)) % 2 ^ 32, false)
  else if opcode = ceeSwitchArg then do
    let target ← offsetOf i.m_pTarget
    pure ([⟨i, i.m_offset, leBytes 4 (offsetDelta target switchBase)⟩], i, switchBase, false)
  else
    let flags := opCodeFlags opcode
    if flags.branchTarget then do
      let target ← offsetOf i.m_pTarget
      let delta := offsetDelta target next
      if flags = .branch8 then
        if !fitsInt8 delta then
          pure ([], { i with m_opcode := widenOpcode opcode }, switchBase, true)
        else pure ([⟨i, next - 1, leBytes 1 delta⟩], i, switchBase, false)
      else pure ([⟨i, next - 4, leBytes 4 delta⟩], i, switchBase, false)
    else .ok ([], i, switchBase, false)

/-- The second pass over the rest of the list: its stores, and how it ends. -/
def patchLoop (offsetOf : ℕ → Except RewriteError ℕ) (endOffset : ℕ) :
    ℕ → List ILInstr → List BackPatch × Except RewriteError (List ILInstr × Bool)
  | _, [] => ([], .ok ([], false))
  | switchBase, i :: is =>
      match patchInstr offsetOf (headOffset endOffset is) switchBase i with
      | .error e => ([], .error e)
      | .ok (patches, i', switchBase', again) =>
          let (rest, outcome) := patchLoop offsetOf endOffset switchBase' is
          (patches ++ rest, outcome.map fun r => (i' :: r.1, again || r.2))

/-! ### The rounds -/

/-- What one round from the label `again` does: the nodes with their offsets, and the stores. -/
structure RoundLog where
  nodes : List ILInstr
  stores : List BufferStore
  patches : List BackPatch
  deriving DecidableEq, Repr

/-- All stores of a round, in order. -/
def RoundLog.allStores (log : RoundLog) : List BufferStore :=
  log.stores ++ log.patches.map BackPatch.store

/-- `m_offset` through a pointer. -/
def offsetThrough (outside : ℕ → Except RewriteError ℕ) (nodes : List ILInstr) (endOffset p : ℕ) :
    Except RewriteError ℕ :=
  if p = pIL then .ok endOffset
  else
    match findNode ILInstr.addr p nodes with
    | none => outside p
    | some i => .ok i.m_offset

def roundLog (outside : ℕ → Except RewriteError ℕ) (il : List ILInstr) :
    RoundLog × Except RewriteError (List ILInstr × Bool) :=
  let (nodes, stores, endOffset) := emissionLoop 0 il
  let (patches, outcome) := patchLoop (offsetThrough outside nodes endOffset) endOffset 0 nodes
  (⟨nodes, stores, patches⟩, outcome)

/-- The `again` loop, as many rounds as it is given. -/
def exportLog (outside : ℕ → Except RewriteError ℕ) : ℕ → List ILInstr → List RoundLog
  | 0, _ => []
  | rounds + 1, il =>
      let (log, outcome) := roundLog outside il
      match outcome with
      | .ok (nodes, true) => log :: exportLog outside rounds nodes
      | _ => [log]

/-! ### Where the stores are -/

/-- The indices of the bytes of a store. -/
def BufferStore.indices (store : BufferStore) : List ℕ :=
  List.range' store.index store.bytes.length

/-- All bytes of a store are from one index on and below another. -/
def BufferStore.Within (store : BufferStore) (start stop : ℕ) : Prop :=
  start ≤ store.index ∧ store.index + store.bytes.length ≤ stop

theorem BufferStore.Within.mono {store : BufferStore} {start stop start' stop' : ℕ}
    (h : store.Within start stop) (hstart : start' ≤ start) (hstop : stop ≤ stop') :
    store.Within start' stop' := ⟨hstart.trans h.1, h.2.trans hstop⟩

theorem BufferStore.Within.bounds {store : BufferStore} {start stop k : ℕ}
    (h : store.Within start stop) (hk : k ∈ store.indices) : start ≤ k ∧ k < stop := by
  obtain ⟨hle, hlt⟩ := List.mem_range'_1.mp hk
  obtain ⟨hstart, hstop⟩ := h
  omega

/-- Where the operand of a node starts. -/
def ILInstr.operandStart (i : ILInstr) : ℕ := i.m_offset + i.byteSize - operandSize i.m_opcode

/-- A patch of the second pass stays in the operand of its node; that of a switch slot is the
slot. -/
def BackPatch.InOwnOperand (patch : BackPatch) : Prop :=
  patch.store.Within patch.node.operandStart (patch.node.m_offset + patch.node.byteSize)

theorem emitOpcode_within {offset opcode : ℕ} {store : BufferStore}
    (h : store ∈ (emitOpcode offset opcode).1) :
    store.Within offset (emitOpcode offset opcode).2 := by
  unfold emitOpcode at h ⊢
  split_ifs at h ⊢
  · rcases List.mem_cons.mp h with rfl | h
    · exact ⟨le_refl _, Nat.le_succ _⟩
    · rw [List.mem_singleton.mp h]
      exact ⟨Nat.le_succ _, le_refl _⟩
  · rw [List.mem_singleton.mp h]
    exact ⟨le_refl _, le_refl _⟩
  · exact absurd h List.not_mem_nil

theorem emitOperand_within {offset : ℕ} {i : ILInstr} {store : BufferStore}
    (h : store ∈ (emitOperand offset i).1) : store.Within offset (emitOperand offset i).2 := by
  unfold emitOperand at h ⊢
  cases hflags : opCodeFlags i.m_opcode with
  | arg0 | branch8 | branch32 =>
      rw [hflags] at h
      exact absurd h List.not_mem_nil
  | arg8 | arg16 | arg32 | arg64 | switch =>
      rw [hflags] at h
      rw [List.mem_singleton.mp h]
      refine ⟨le_refl _, ?_⟩
      dsimp only
      rw [leBytes_length]
      exact le_refl _

/-- **The first pass** stores between its two ends. -/
theorem emissionLoop_within {il : List ILInstr} {offset : ℕ} {store : BufferStore}
    (h : store ∈ (emissionLoop offset il).2.1) :
    store.Within offset (offset + totalSize il) := by
  induction il generalizing offset with
  | nil => exact absurd h List.not_mem_nil
  | cons i is ih =>
      have hopcode := emitOpcode_next offset i.m_opcode
      have hoperand := emitOperand_next (emitOpcode offset i.m_opcode).2 i
      have hsize : i.byteSize
          = (if i.m_opcode < ceeCount then opcodeSize i.m_opcode else 0) + operandSize i.m_opcode :=
        rfl
      rw [emissionLoop_cons] at h
      rw [totalSize_cons]
      rcases List.mem_append.mp h with h | h
      · rcases List.mem_append.mp h with h | h
        · exact (emitOpcode_within h).mono (le_refl _) (by omega)
        · exact (emitOperand_within h).mono (by omega) (by omega)
      · exact (ih h).mono (by omega) (by omega)

/-- **One node of the second pass**: nothing is stored, as for a branch that is widened, or all of
the node's operand is. -/
theorem patchInstr_cases {offsetOf : ℕ → Except RewriteError ℕ} {next switchBase switchBase' : ℕ}
    {i i' : ILInstr} {patches : List BackPatch} {again : Bool}
    (h : patchInstr offsetOf next switchBase i = .ok (patches, i', switchBase', again)) :
    patches = [] ∧ ((opCodeFlags i.m_opcode).branchTarget = true → again = true)
      ∨ ∃ v, i' = i ∧ again = false
        ∧ (i.m_opcode = ceeSwitchArg ∧ patches = [⟨i, i.m_offset, leBytes 4 v⟩]
          ∨ patches = [⟨i, next - operandSize i.m_opcode, leBytes (operandSize i.m_opcode) v⟩]) := by
  unfold patchInstr at h
  dsimp only at h
  split at h
  · rename_i hswitch
    cases h
    rw [hswitch]
    exact Or.inl ⟨rfl, fun hbranch => absurd hbranch (by decide)⟩
  · split at h
    · rename_i hslot
      cases htarget : offsetOf i.m_pTarget with
      | error e => rw [htarget] at h; cases h
      | ok target =>
          rw [htarget] at h
          cases h
          exact Or.inr ⟨_, rfl, rfl, Or.inl ⟨hslot, rfl⟩⟩
    · split at h
      · rename_i hbranch
        cases htarget : offsetOf i.m_pTarget with
        | error e => rw [htarget] at h; cases h
        | ok target =>
            rw [htarget] at h
            rcases opCodeFlags_branchTarget_iff.mp hbranch with hflags | hflags
            · have hsize : operandSize i.m_opcode = 1 := by rw [operandSize, hflags]; rfl
              change (if opCodeFlags i.m_opcode = .branch8 then _ else _) = _ at h
              rw [if_pos hflags] at h
              split at h
              · cases h
                exact Or.inl ⟨rfl, fun _ => rfl⟩
              · cases h
                rw [hsize]
                exact Or.inr ⟨_, rfl, rfl, Or.inr rfl⟩
            · have hsize : operandSize i.m_opcode = 4 := by rw [operandSize, hflags]; rfl
              change (if opCodeFlags i.m_opcode = .branch8 then _ else _) = _ at h
              rw [if_neg (by rw [hflags]; decide)] at h
              cases h
              rw [hsize]
              exact Or.inr ⟨_, rfl, rfl, Or.inr rfl⟩
      · rename_i hplain
        cases h
        exact Or.inl ⟨rfl, fun hbranch => absurd hbranch hplain⟩

/-- At a node that has been laid out the operand ends where the next node starts. -/
theorem patchInstr_within {offsetOf : ℕ → Except RewriteError ℕ} {next switchBase switchBase' : ℕ}
    {i i' : ILInstr} {patches : List BackPatch} {again : Bool}
    (hnext : next = i.m_offset + i.byteSize)
    (h : patchInstr offsetOf next switchBase i = .ok (patches, i', switchBase', again)) :
    ∀ patch ∈ patches, patch.node = i ∧ patch.InOwnOperand := by
  have hsize : operandSize i.m_opcode ≤ i.byteSize := Nat.le_add_left _ _
  intro patch hpatch
  rcases patchInstr_cases h with ⟨rfl, -⟩ | ⟨v, -, -, ⟨hslot, rfl⟩ | rfl⟩
  · exact absurd hpatch List.not_mem_nil
  · -- a slot is its operand
    have hoperand : operandSize i.m_opcode = 4 := by rw [hslot]; decide
    have hbytes : i.byteSize = 4 := byteSize_slot hslot
    rw [List.mem_singleton.mp hpatch]
    refine ⟨rfl, ?_, ?_⟩
    · show i.operandStart ≤ i.m_offset
      rw [ILInstr.operandStart]
      omega
    · show i.m_offset + (leBytes 4 v).length ≤ i.m_offset + i.byteSize
      rw [leBytes_length]
      omega
  · rw [List.mem_singleton.mp hpatch]
    refine ⟨rfl, ?_, ?_⟩
    · show i.operandStart ≤ next - operandSize i.m_opcode
      rw [ILInstr.operandStart, hnext]
    · show next - operandSize i.m_opcode + (leBytes _ v).length ≤ i.m_offset + i.byteSize
      rw [leBytes_length]
      omega

/-- **The second pass** stores in the operands of the nodes that it stores for. -/
theorem patchLoop_within {offsetOf : ℕ → Except RewriteError ℕ} {endOffset : ℕ}
    {il : List ILInstr} {o switchBase : ℕ} (hend : endOffset = o + totalSize il)
    {patch : BackPatch}
    (h : patch ∈ (patchLoop offsetOf endOffset switchBase (countOffsetsFrom o il)).1) :
    patch.node ∈ countOffsetsFrom o il ∧ patch.InOwnOperand := by
  induction il generalizing o switchBase with
  | nil => exact absurd h List.not_mem_nil
  | cons i is ih =>
      rw [totalSize_cons, ← Nat.add_assoc] at hend
      rw [countOffsetsFrom, patchLoop, headOffset_countOffsetsFrom hend] at h
      rw [countOffsetsFrom]
      cases hinstr : patchInstr offsetOf (o + i.byteSize) switchBase { i with m_offset := o } with
      | error e =>
          rw [hinstr] at h
          exact absurd h List.not_mem_nil
      | ok r =>
          rw [hinstr] at h
          rcases List.mem_append.mp h with h | h
          · obtain ⟨hnode, hin⟩ := patchInstr_within rfl hinstr patch h
            exact ⟨hnode ▸ List.mem_cons_self, hin⟩
          · obtain ⟨hnode, hin⟩ := ih hend h
            exact ⟨List.mem_cons_of_mem _ hnode, hin⟩

theorem patchLoop_length {offsetOf : ℕ → Except RewriteError ℕ} {endOffset : ℕ}
    {is is' : List ILInstr} {switchBase : ℕ} {again : Bool}
    (h : (patchLoop offsetOf endOffset switchBase is).2 = .ok (is', again)) :
    is'.length = is.length := by
  induction is generalizing switchBase is' again with
  | nil =>
      rw [patchLoop] at h
      cases h
      rfl
  | cons i is ih =>
      rw [patchLoop] at h
      cases hinstr : patchInstr offsetOf (headOffset endOffset is) switchBase i with
      | error e => rw [hinstr] at h; cases h
      | ok r =>
          rw [hinstr] at h
          change (patchLoop offsetOf endOffset r.2.2.1 is).2.map _ = _ at h
          cases hrest : (patchLoop offsetOf endOffset r.2.2.1 is).2 with
          | error e => rw [hrest] at h; cases h
          | ok r' =>
              rw [hrest] at h
              cases h
              rw [List.length_cons, List.length_cons, ih hrest]

/-- A node ends before the end of its layout. -/
theorem countOffsetsFrom_end_le {il : List ILInstr} {o : ℕ} {i : ILInstr}
    (h : i ∈ countOffsetsFrom o il) : i.m_offset + i.byteSize ≤ o + totalSize il := by
  induction il generalizing o with
  | nil => exact absurd h List.not_mem_nil
  | cons j is ih =>
      rw [totalSize_cons]
      cases h with
      | head =>
          show o + j.byteSize ≤ _
          omega
      | tail _ h =>
          have := ih h
          omega

/-! ### Every round -/

/-- A round that stays in a buffer of a size, and in the operands that it patches. -/
structure RoundLog.InBuffer (log : RoundLog) (size : ℕ) : Prop where
  stores : ∀ store ∈ log.allStores, ∀ k ∈ store.indices, k < size
  patches : ∀ patch ∈ log.patches, patch.node ∈ log.nodes ∧ patch.InOwnOperand

theorem roundLog_within (outside : ℕ → Except RewriteError ℕ) (il : List ILInstr) :
    (roundLog outside il).1.InBuffer (totalSize il) := by
  have hstop : (emissionLoop 0 il).2.2 = 0 + totalSize il := emissionLoop_stop 0 il
  have hpatches : ∀ patch ∈ (roundLog outside il).1.patches,
      patch.node ∈ (roundLog outside il).1.nodes ∧ patch.InOwnOperand := by
    intro patch hpatch
    change patch ∈ (patchLoop _ (emissionLoop 0 il).2.2 0 (emissionLoop 0 il).1).1 at hpatch
    change patch.node ∈ (emissionLoop 0 il).1 ∧ _
    rw [emissionLoop_nodes] at hpatch ⊢
    exact patchLoop_within hstop hpatch
  refine ⟨fun store hstore k hk => ?_, hpatches⟩
  rcases List.mem_append.mp hstore with hstore | hstore
  · have := (emissionLoop_within hstore).bounds hk
    omega
  · obtain ⟨patch, hpatch, rfl⟩ := List.mem_map.mp hstore
    obtain ⟨hnode, hin⟩ := hpatches patch hpatch
    change patch.node ∈ (emissionLoop 0 il).1 at hnode
    rw [emissionLoop_nodes] at hnode
    have hle := countOffsetsFrom_end_le hnode
    have := hin.bounds hk
    omega

theorem roundLog_length {outside : ℕ → Except RewriteError ℕ} {il nodes : List ILInstr}
    {again : Bool} (h : (roundLog outside il).2 = .ok (nodes, again)) :
    nodes.length = il.length := by
  have hlength := patchLoop_length h
  rw [hlength, emissionLoop_nodes]
  simpa using congrArg List.length (countOffsetsFrom_map_addr il 0)

/-- **No round** writes behind ten bytes a node: widening changes sizes, not the number of nodes. -/
theorem exportLog_within (outside : ℕ → Except RewriteError ℕ) {size : ℕ} (rounds : ℕ) :
    ∀ il : List ILInstr, 10 * il.length ≤ size →
      ∀ log ∈ exportLog outside rounds il, log.InBuffer size := by
  induction rounds with
  | zero => intro il _ log hlog; exact absurd hlog List.not_mem_nil
  | succ rounds ih =>
      intro il hsize log hlog
      have hround : (roundLog outside il).1.InBuffer size := by
        have hwithin := roundLog_within outside il
        have htotal := totalSize_le il
        refine ⟨fun store hstore k hk => ?_, hwithin.patches⟩
        exact lt_of_lt_of_le (hwithin.stores store hstore k hk) (by omega)
      rw [exportLog] at hlog
      dsimp only at hlog
      split at hlog
      · rename_i nodes houtcome
        rcases List.mem_cons.mp hlog with rfl | hlog
        · exact hround
        · exact ih nodes (by rw [roundLog_length houtcome]; exact hsize) log hlog
      · rw [List.mem_singleton.mp hlog]
        exact hround

end TestExecutor
