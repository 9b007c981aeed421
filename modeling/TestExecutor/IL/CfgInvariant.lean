import TestExecutor.IL.Cfg
import TestExecutor.IL.ControlFlow

/-!
# What the walk keeps

The invariant of the walk of `CFG.fs`, and what each of its local functions does to it.

* `DfsState.start`, `DfsState.final`, `DfsState.HasEdge`, `DfsState.GoesTo` — reading the state;
* `Inv` — the slots of the instructions are the blocks, whose instructions follow one another;
* `findFinalVertex_eq` — the instruction in front of a vertex;
* `IsSplit`, `splitBasicBlock_spec`, `Inv.split` — splitting a block;
* `addEdge_spec`, `Inv.addEdge` — a new edge.
-/

namespace TestExecutor

open TestExecutor.Library

namespace DfsState

variable (s : DfsState)

def start (b : ℕ) : ℕ := (s.basicBlocks b).startOffset

def final (b : ℕ) : ℕ := (s.basicBlocks b).finalOffset

def incoming (b : ℕ) : HashSet ℕ := (s.basicBlocks b).incomingCFGEdges

def HasEdge (b c : ℕ) : Prop := ∃ edges, (s.basicBlocks b).outgoingEdges = some edges ∧ c ∈ edges

/-- A block has an edge to the block that starts at an offset. -/
def GoesTo (b t : ℕ) : Prop := ∃ c, s.HasEdge b c ∧ s.start c = t

/-- An instruction of a block that is not its last one. -/
def Inner (v : ℕ) : Prop := ∃ b < s.basicBlocksCount, s.start b ≤ v ∧ v < s.final b

/-- The graph knows that control can go from the instruction at `v` to `t`. -/
def Linked (v t : ℕ) : Prop :=
  s.Inner v ∨ ∃ b < s.basicBlocksCount, s.final b = v ∧ s.GoesTo b t

@[simp] theorem modifyBlock_basicBlocks (b c : ℕ) (f : BasicBlock → BasicBlock) :
    (s.modifyBlock b f).basicBlocks c = if c = b then f (s.basicBlocks b) else s.basicBlocks c := by
  rw [modifyBlock]
  dsimp only
  rw [Function.update_apply]

end DfsState

/-- Where blocks have to start. -/
def Leader (eh : List EhInfo) (is : List RawInstr) (t : ℕ) : Prop :=
  t ∈ entryOffsets eh ∨ ∃ i ∈ is, Reachable eh is i.offset ∧ i.EndsBlock ∧ t ∈ i.successors

/-- The invariant of the walk.  `fresh` is the start of a block that was created but not yet
visited. -/
structure Inv (eh : List EhInfo) (is : List RawInstr) (s : DfsState) (fresh : Option ℕ) : Prop where
  slot : ∀ i ∈ is, ∀ b, s.vertexToBasicBlock i.offset = some b
    ↔ b < s.basicBlocksCount ∧ s.start b ≤ i.offset ∧ i.offset ≤ s.final b
  assigned : ∀ i ∈ is, (∃ b, s.vertexToBasicBlock i.offset = some b)
    ↔ i.offset ∈ s.used ∨ fresh = some i.offset
  start_isStart : ∀ b < s.basicBlocksCount, IsStart is (s.start b)
  final_isStart : ∀ b < s.basicBlocksCount, IsStart is (s.final b)
  start_le : ∀ b < s.basicBlocksCount, s.start b ≤ s.final b
  interior : ∀ b < s.basicBlocksCount, ∀ i ∈ is, s.start b ≤ i.offset → i.offset < s.final b →
    ¬i.EndsBlock
  leader : ∀ b < s.basicBlocksCount, Leader eh is (s.start b)
  reachable : ∀ v ∈ s.used, Reachable eh is v
  edge : ∀ b < s.basicBlocksCount, ∀ c, s.HasEdge b c →
    c < s.basicBlocksCount ∧ ∃ i ∈ is, i.offset = s.final b ∧ s.start c ∈ i.successors
  inverse : ∀ b < s.basicBlocksCount, ∀ c < s.basicBlocksCount, b ∈ s.incoming c ↔ s.HasEdge b c
  incoming_lt : ∀ c < s.basicBlocksCount, ∀ b ∈ s.incoming c, b < s.basicBlocksCount
  grey : ∀ v ∈ s.greyVertices, v ∈ s.used

/-- What the walk relies on. -/
structure Walkable (m : Method) (eh : List EhInfo) (is : List RawInstr) : Prop where
  consecutive : Consecutive 0 is m.bytecode.size
  keys : ∀ o, o ∈ m.offsetToInstr.keys ↔ IsStart is o
  starts : ∀ v, Reachable eh is v → IsStart is v
  instr : ∀ i ∈ is, ∃ j tr, m.offsetToInstr.lookup i.offset = some j
    ∧ findNextInstructionOffsetAndEdges j.opcode m.bytecode i.offset = .ok tr
    ∧ TransitionOf i tr ∧ (isDemandingCallOpCode j.opcode = true ↔ i.IsDemandingCall)
    ∧ (i.IsDemandingCall → m.parseCallSite i.offset = .ok j.opcode)

variable {m : Method} {eh : List EhInfo} {is : List RawInstr}

/-! ### Neighbours -/

/-- In front of every instruction but the first stands another one. -/
theorem Consecutive.exists_prev {start stop p : ℕ} (h : Consecutive start is stop)
    (hp : IsStart is p) (hlt : start < p) : ∃ w ∈ is, w.next = p := by
  induction is generalizing start with
  | nil => obtain ⟨i, hi, -⟩ := hp; cases hi
  | cons j is ih =>
      obtain ⟨i, hi, rfl⟩ := hp
      rcases List.mem_cons.mp hi with rfl | hi
      · exact absurd h.1 (by omega)
      · by_cases hnext : j.next < i.offset
        · obtain ⟨w, hw, hoffset⟩ := ih h.2 ⟨i, hi, rfl⟩ hnext
          exact ⟨w, List.mem_cons_of_mem j hw, hoffset⟩
        · have hbounds := (h.2.bounds hi).1
          exact ⟨j, List.mem_cons_self, by omega⟩

/-! ### The last instruction in front of a vertex -/

theorem lastSlot_eq {slots : ℕ → Option ℕ} {b w : ℕ} (hw : slots w = some b) : ∀ n, w < n →
    ∃ k, lastSlot slots b n = .ok k ∧ w ≤ k ∧ k < n := by
  intro n
  induction n with
  | zero => intro h; omega
  | succ n ih =>
      intro h
      rw [lastSlot]
      split
      · exact ⟨n, rfl, by omega, by omega⟩
      · rename_i hne
        have hlt : w < n := by
          rcases Nat.lt_succ_iff_lt_or_eq.mp h with hlt | rfl
          · exact hlt
          · exact absurd hw hne
        obtain ⟨k, hk, hle, hkn⟩ := ih hlt
        exact ⟨k, hk, hle, by omega⟩

theorem lastInstr_eq {offsetToInstr : Dictionary ℕ IlInstr} {w : ℕ} (hw : w ∈ offsetToInstr.keys) :
    ∀ k, w ≤ k → (∀ o, w < o → o ≤ k → o ∉ offsetToInstr.keys) →
      lastInstr offsetToInstr k = .ok w := by
  intro k
  induction k with
  | zero =>
      intro hle _
      obtain rfl : w = 0 := by omega
      rw [lastInstr, if_pos hw]
  | succ k ih =>
      intro hle hnone
      rw [lastInstr]
      rcases Nat.lt_or_ge w (k + 1) with hlt | hge
      · rw [if_neg (hnone (k + 1) hlt (le_refl _))]
        exact ih (by omega) fun o ho hok => hnone o ho (by omega)
      · obtain rfl : w = k + 1 := by omega
        rw [if_pos hw]

/-- The scan of `findFinalVertex` ends at the instruction in front. -/
theorem findFinalVertex_eq (hm : Walkable m eh is) {s : DfsState} {b : ℕ} {w : RawInstr}
    (hw : w ∈ is) (hslot : s.vertexToBasicBlock w.offset = some b) :
    m.findFinalVertex s w.next b = .ok w.offset := by
  obtain ⟨k, hk, hle, hlt⟩ := lastSlot_eq hslot w.next w.offset_lt_next
  have hkey : w.offset ∈ m.offsetToInstr.keys := (hm.keys _).mpr ⟨w, hw, rfl⟩
  have hinstr := lastInstr_eq hkey k hle fun o ho hok hmem => by
    obtain ⟨i, hi, rfl⟩ := (hm.keys o).mp hmem
    have := (hm.consecutive.lt_next_iff hi hw).mp (by omega)
    omega
  rw [Method.findFinalVertex, hk]
  exact hinstr

/-! ### Blocks of the invariant -/

section Blocks

variable {s : DfsState} {fresh : Option ℕ}

/-- An instruction lies in one block only. -/
theorem Inv.block_unique (h : Inv eh is s fresh) {i : RawInstr} (hi : i ∈ is) {b c : ℕ}
    (hb : b < s.basicBlocksCount) (hc : c < s.basicBlocksCount)
    (hbi : s.start b ≤ i.offset ∧ i.offset ≤ s.final b)
    (hci : s.start c ≤ i.offset ∧ i.offset ≤ s.final c) : b = c := by
  have h₁ := (h.slot i hi b).mpr ⟨hb, hbi⟩
  have h₂ := (h.slot i hi c).mpr ⟨hc, hci⟩
  exact Option.some.inj (h₁.symm.trans h₂)

theorem Inv.eq_of_start (h : Inv eh is s fresh) {b c : ℕ} (hb : b < s.basicBlocksCount)
    (hc : c < s.basicBlocksCount) (heq : s.start b = s.start c) : b = c := by
  obtain ⟨i, hi, hoffset⟩ := h.start_isStart b hb
  have hble := h.start_le b hb
  have hcle := h.start_le c hc
  exact h.block_unique hi hb hc ⟨by omega, by omega⟩ ⟨by omega, by omega⟩

theorem Inv.eq_of_final (h : Inv eh is s fresh) {b c : ℕ} (hb : b < s.basicBlocksCount)
    (hc : c < s.basicBlocksCount) (heq : s.final b = s.final c) : b = c := by
  obtain ⟨i, hi, hoffset⟩ := h.final_isStart b hb
  have hble := h.start_le b hb
  have hcle := h.start_le c hc
  exact h.block_unique hi hb hc ⟨by omega, by omega⟩ ⟨by omega, by omega⟩

/-- The last instruction of a block is not inside another one. -/
theorem Inv.not_inner_final (h : Inv eh is s fresh) {b : ℕ} (hb : b < s.basicBlocksCount) :
    ¬s.Inner (s.final b) := by
  rintro ⟨c, hc, hle, hlt⟩
  obtain ⟨i, hi, hoffset⟩ := h.final_isStart b hb
  have hble := h.start_le b hb
  have heq := h.block_unique hi hb hc ⟨by omega, by omega⟩ ⟨by omega, by omega⟩
  subst heq
  omega

/-- An edge to a block is a way to its start. -/
theorem Inv.hasEdge_iff (h : Inv eh is s fresh) {b c : ℕ} (hb : b < s.basicBlocksCount)
    (hc : c < s.basicBlocksCount) : s.HasEdge b c ↔ s.GoesTo b (s.start c) := by
  constructor
  · exact fun hedge => ⟨c, hedge, rfl⟩
  · rintro ⟨d, hd, hstart⟩
    have hlt := (h.edge b hb d hd).1
    rwa [h.eq_of_start hlt hc hstart] at hd

end Blocks

/-! ### Splitting a block -/

/-- The state after a block was split in front of `p`, behind the instruction at `w`. -/
structure IsSplit (s : DfsState) (b p w : ℕ) (s' : DfsState) : Prop where
  count : s'.basicBlocksCount = s.basicBlocksCount + 1
  used : s'.used = s.used
  grey : s'.greyVertices = s.greyVertices
  slots : ∀ v, s'.vertexToBasicBlock v
    = if s.start b ≤ v ∧ v < p then some s.basicBlocksCount else s.vertexToBasicBlock v
  start : ∀ c, s'.start c
    = if c = s.basicBlocksCount then s.start b else if c = b then p else s.start c
  final : ∀ c, s'.final c = if c = s.basicBlocksCount then w else s.final c
  edges : ∀ c d, s'.HasEdge c d ↔ if c = s.basicBlocksCount then d = b
    else if c ∈ s.incoming b then d = s.basicBlocksCount ∨ (d ≠ b ∧ s.HasEdge c d)
    else s.HasEdge c d
  incoming : ∀ d c, c ∈ s'.incoming d ↔ if d = b then c = s.basicBlocksCount
    else if d = s.basicBlocksCount then c ∈ s.incoming b else c ∈ s.incoming d

theorem addNew_eq {set : HashSet ℕ} {x : ℕ} (h : x ∉ set) : addNew set x = .ok (set.insert x) :=
  if_neg h

/-- One round of the loop over the parents: the edge of `p` to `b` leads to the new block. -/
theorem redirectParent_spec {s : DfsState} {b new p : ℕ} (hp : p ≠ new) (hedge : s.HasEdge p b)
    (hnotNew : ¬s.HasEdge p new) (hnotIn : p ∉ s.incoming new) :
    ∃ s₁, redirectParent b new s p = .ok s₁
      ∧ s₁ = { s with basicBlocks := s₁.basicBlocks }
      ∧ (∀ c, s₁.start c = s.start c ∧ s₁.final c = s.final c)
      ∧ (∀ c d, s₁.HasEdge c d
        ↔ if c = p then d = new ∨ (d ≠ b ∧ s.HasEdge p d) else s.HasEdge c d)
      ∧ (∀ d c, c ∈ s₁.incoming d ↔ c ∈ s.incoming d ∨ (d = new ∧ c = p)) := by
  obtain ⟨edges, hout, hmem⟩ := hedge
  have hnotNew' : new ∉ edges.remove b := fun h =>
    hnotNew ⟨edges, hout, (HashSet.mem_remove.mp h).2⟩
  obtain ⟨s₁, hs₁⟩ : ∃ s₁, s₁ = (s.modifyBlock p fun blk =>
      { blk with outgoingEdges := some ((edges.remove b).insert new) }).modifyBlock new fun blk =>
        { blk with incomingCFGEdges := (s.incoming new).insert p } := ⟨_, rfl⟩
  have hblocks : ∀ c, s₁.basicBlocks c = if c = new
      then { s.basicBlocks new with incomingCFGEdges := (s.incoming new).insert p }
      else if c = p then
        { s.basicBlocks p with outgoingEdges := some ((edges.remove b).insert new) }
      else s.basicBlocks c := by
    intro c
    rw [hs₁]
    simp only [DfsState.modifyBlock_basicBlocks, if_neg hp.symm]
  refine ⟨s₁, ?_, by rw [hs₁]; rfl, fun c => ?_, fun c d => ?_, fun d c => ?_⟩
  · have hsame : (s.modifyBlock p fun blk =>
        { blk with outgoingEdges := some ((edges.remove b).insert new) }).incoming new
          = s.incoming new := by
      rw [DfsState.incoming, DfsState.modifyBlock_basicBlocks, if_neg hp.symm]
      rfl
    have hadd := addNew_eq hnotIn
    rw [← hsame, DfsState.incoming] at hadd
    rw [redirectParent, hout]
    dsimp only
    rw [if_neg (not_not.mpr hmem), addNew_eq hnotNew', hs₁, ← hsame]
    show (addNew _ p >>= _) = _
    rw [hadd]
    rfl
  · rw [DfsState.start, DfsState.final, hblocks]
    split
    · subst c
      exact ⟨rfl, rfl⟩
    · split
      · subst c
        exact ⟨rfl, rfl⟩
      · exact ⟨rfl, rfl⟩
  · rw [DfsState.HasEdge, hblocks]
    by_cases hc : c = new
    · subst hc
      rw [if_pos rfl, if_neg hp.symm]
      rfl
    · rw [if_neg hc]
      by_cases hcp : c = p
      · rw [if_pos hcp, if_pos hcp]
        simp [DfsState.HasEdge, hout]
      · rw [if_neg hcp, if_neg hcp]
        rfl
  · rw [DfsState.incoming, hblocks]
    by_cases hd : d = new
    · subst hd
      rw [if_pos rfl]
      dsimp only
      rw [HashSet.mem_insert]
      tauto
    · rw [if_neg hd]
      by_cases hdp : d = p
      · subst hdp
        rw [if_pos rfl]
        simp [hd, DfsState.incoming]
      · rw [if_neg hdp]
        simp [hd, DfsState.incoming]

/-- The loop over the parents changes their edges and the incoming edges of the new block. -/
theorem redirectParents_spec {b new : ℕ} (parents : List ℕ) :
    ∀ s : DfsState, parents.Nodup → new ∉ parents →
      (∀ c ∈ parents, s.HasEdge c b ∧ ¬s.HasEdge c new) →
      (∀ c ∈ parents, c ∉ s.incoming new) →
      ∃ blocks, parents.foldlM (redirectParent b new) s = .ok { s with basicBlocks := blocks }
        ∧ (∀ c, (blocks c).startOffset = s.start c ∧ (blocks c).finalOffset = s.final c)
        ∧ (∀ c d, (∃ edges, (blocks c).outgoingEdges = some edges ∧ d ∈ edges)
          ↔ if c ∈ parents then d = new ∨ (d ≠ b ∧ s.HasEdge c d) else s.HasEdge c d)
        ∧ (∀ d c, c ∈ (blocks d).incomingCFGEdges
          ↔ c ∈ s.incoming d ∨ (d = new ∧ c ∈ parents)) := by
  induction parents with
  | nil =>
      intro s _ _ _ _
      refine ⟨s.basicBlocks, rfl, fun c => ⟨rfl, rfl⟩, fun c d => ?_, fun d c => ?_⟩
      · simp [DfsState.HasEdge]
      · simp [DfsState.incoming]
  | cons p parents ih =>
      intro s hnodup hnew hedges hincoming
      obtain ⟨hp, hnodup⟩ := List.nodup_cons.mp hnodup
      rw [List.mem_cons, not_or] at hnew
      obtain ⟨hedge, hnotNew⟩ := hedges p List.mem_cons_self
      obtain ⟨s₁, hstep, hs₁, hother, hedge₁, hincoming₁⟩ := redirectParent_spec
        (Ne.symm hnew.1) hedge hnotNew (hincoming p List.mem_cons_self)
      have hne_p : ∀ c ∈ parents, c ≠ p := fun c hc heq => hp (heq ▸ hc)
      obtain ⟨blocks, hrun, h₁, h₂, h₃⟩ := ih s₁ hnodup hnew.2
        (fun c hc => by
          rw [hedge₁, hedge₁, if_neg (hne_p c hc), if_neg (hne_p c hc)]
          exact hedges c (List.mem_cons_of_mem p hc))
        (fun c hc => by
          rw [hincoming₁]
          rintro (h | ⟨-, h⟩)
          · exact hincoming c (List.mem_cons_of_mem p hc) h
          · exact hne_p c hc h)
      refine ⟨blocks, ?_, fun c => ?_, fun c d => ?_, fun d c => ?_⟩
      · rw [List.foldlM_cons, hstep]
        refine hrun.trans ?_
        rw [hs₁]
      · exact ⟨(h₁ c).1.trans (hother c).1, (h₁ c).2.trans (hother c).2⟩
      · rw [h₂ c d]
        by_cases hc : c ∈ parents
        · rw [if_pos hc, if_pos (List.mem_cons_of_mem p hc), hedge₁, if_neg (hne_p c hc)]
        · rw [if_neg hc, hedge₁]
          by_cases hcp : c = p
          · subst hcp
            rw [if_pos rfl, if_pos List.mem_cons_self]
          · rw [if_neg hcp, if_neg (by simp [hcp, hc])]
      · rw [h₃ d c, hincoming₁, List.mem_cons]
        tauto

/-! The state in front of the loop over the parents, and what follows the loop. -/

section SplitState

variable (s : DfsState) (b p w : ℕ)

/-- The block is cut into two, with the edges at its ends; the new block has no edges yet. -/
def DfsState.cutBlock : DfsState := { s with
  basicBlocks := Function.update (Function.update
    (Function.update s.basicBlocks s.basicBlocksCount (.new (s.start b))) b
      { s.basicBlocks b with startOffset := p })
    s.basicBlocksCount ⟨s.start b, w, .empty, none⟩
  basicBlocksCount := s.basicBlocksCount + 1
  vertexToBasicBlock := fun v => if s.start b ≤ v ∧ v < p then some s.basicBlocksCount
    else s.vertexToBasicBlock v }

/-- The edge from the new block to the old one. -/
def DfsState.linkHalves (new : ℕ) : DfsState :=
  (s.modifyBlock b fun blk => { blk with incomingCFGEdges := .singleton new }).modifyBlock new
    fun blk => { blk with outgoingEdges := some (.singleton b) }

variable {s b}

theorem DfsState.cutBlock_basicBlocks (c : ℕ) : (s.cutBlock b p w).basicBlocks c
    = if c = s.basicBlocksCount then ⟨s.start b, w, .empty, none⟩
      else if c = b then { s.basicBlocks b with startOffset := p } else s.basicBlocks c := by
  rw [cutBlock]
  dsimp only
  rw [Function.update_apply]
  by_cases hc : c = s.basicBlocksCount
  · rw [if_pos hc, if_pos hc]
  · rw [if_neg hc, if_neg hc, Function.update_apply]
    by_cases hcb : c = b
    · rw [if_pos hcb, if_pos hcb]
    · rw [if_neg hcb, if_neg hcb, Function.update_of_ne hc]

theorem DfsState.cutBlock_hasEdge (c d : ℕ) :
    (s.cutBlock b p w).HasEdge c d ↔ c ≠ s.basicBlocksCount ∧ s.HasEdge c d := by
  rw [HasEdge, cutBlock_basicBlocks]
  by_cases hc : c = s.basicBlocksCount
  · simp [hc]
  · rw [if_neg hc]
    by_cases hcb : c = b
    · subst hcb
      rw [if_pos rfl]
      simp [hc, HasEdge]
    · rw [if_neg hcb]
      simp [hc, HasEdge]

theorem DfsState.cutBlock_incoming (d c : ℕ) :
    c ∈ (s.cutBlock b p w).incoming d ↔ d ≠ s.basicBlocksCount ∧ c ∈ s.incoming d := by
  rw [incoming, cutBlock_basicBlocks]
  by_cases hd : d = s.basicBlocksCount
  · simp [hd]
  · rw [if_neg hd]
    by_cases hdb : d = b
    · subst hdb
      rw [if_pos rfl]
      simp [hd, incoming]
    · rw [if_neg hdb]
      simp [hd, incoming]

theorem DfsState.linkHalves_basicBlocks {new : ℕ} (hne : b ≠ new) (c : ℕ) :
    (s.linkHalves b new).basicBlocks c
      = if c = new then { s.basicBlocks new with outgoingEdges := some (.singleton b) }
        else if c = b then { s.basicBlocks b with incomingCFGEdges := .singleton new }
        else s.basicBlocks c := by
  rw [linkHalves]
  simp only [modifyBlock_basicBlocks, if_neg hne.symm]

/-- `splitBasicBlock` around its loop. -/
theorem splitBasicBlock_eq {v : ℕ} (hb : b < s.basicBlocksCount)
    (hfind : ∀ s' : DfsState, s'.vertexToBasicBlock = s.vertexToBasicBlock →
      m.findFinalVertex s' p b = .ok v) :
    m.splitBasicBlock s b p = ((s.incoming b).elems.foldlM (redirectParent b s.basicBlocksCount)
        (s.cutBlock b p v)).map fun s' => s'.linkHalves b s.basicBlocksCount := by
  have hne : b ≠ s.basicBlocksCount := ne_of_lt hb
  have hfound := hfind ({ s with
    basicBlocks := Function.update s.basicBlocks s.basicBlocksCount (.new (s.start b))
    basicBlocksCount := s.basicBlocksCount + 1 }.modifyBlock b fun blk =>
      { blk with startOffset := p }) rfl
  rw [Method.splitBasicBlock]
  dsimp only
  change (m.findFinalVertex ({ s with
      basicBlocks := Function.update s.basicBlocks s.basicBlocksCount (.new (s.start b))
      basicBlocksCount := s.basicBlocksCount + 1 }.modifyBlock b fun blk =>
        { blk with startOffset := p }) p b >>= _) = _
  rw [hfound]
  have hstate : { (({ s with
      basicBlocks := Function.update s.basicBlocks s.basicBlocksCount (.new (s.start b))
      basicBlocksCount := s.basicBlocksCount + 1 }.modifyBlock b fun blk =>
        { blk with startOffset := p }).setFinalOffset s.basicBlocksCount v) with
      vertexToBasicBlock := fun u => if s.start b ≤ u ∧ u < p then some s.basicBlocksCount
        else s.vertexToBasicBlock u } = s.cutBlock b p v := by
    simp only [DfsState.setFinalOffset, DfsState.modifyBlock, DfsState.cutBlock]
    congr 2
    · rw [Function.update_of_ne hne]
    · rw [Function.update_of_ne hne.symm, Function.update_self]
      rfl
  have hrest : ∀ t : DfsState, t = s.cutBlock b p v →
      ((t.basicBlocks b).incomingCFGEdges.elems.foldlM (redirectParent b s.basicBlocksCount) t
        >>= fun t => pure (t.linkHalves b s.basicBlocksCount))
      = ((s.incoming b).elems.foldlM (redirectParent b s.basicBlocksCount)
        (s.cutBlock b p v)).map fun s' => s'.linkHalves b s.basicBlocksCount := by
    rintro t rfl
    have hparents : ((s.cutBlock b p v).basicBlocks b).incomingCFGEdges = s.incoming b := by
      rw [DfsState.cutBlock_basicBlocks, if_neg hne, if_pos rfl]
      rfl
    rw [hparents]
    exact map_eq_pure_bind _ _ |>.symm
  exact hrest _ hstate

/-- After the loop over the parents, the two halves are linked. -/
theorem isSplit_linkHalves {blocks : ℕ → BasicBlock} (hb : b < s.basicBlocksCount)
    (hoffsets : ∀ c, (blocks c).startOffset = (s.cutBlock b p w).start c
      ∧ (blocks c).finalOffset = (s.cutBlock b p w).final c)
    (hedges : ∀ c d, (∃ edges, (blocks c).outgoingEdges = some edges ∧ d ∈ edges)
      ↔ if c ∈ (s.incoming b).elems
        then d = s.basicBlocksCount ∨ (d ≠ b ∧ (s.cutBlock b p w).HasEdge c d)
        else (s.cutBlock b p w).HasEdge c d)
    (hincoming : ∀ d c, c ∈ (blocks d).incomingCFGEdges
      ↔ c ∈ (s.cutBlock b p w).incoming d ∨ (d = s.basicBlocksCount ∧ c ∈ (s.incoming b).elems)) :
    IsSplit s b p w
      ({ s.cutBlock b p w with basicBlocks := blocks }.linkHalves b s.basicBlocksCount) := by
  have hne : b ≠ s.basicBlocksCount := ne_of_lt hb
  have hfinal := DfsState.linkHalves_basicBlocks (s := { s.cutBlock b p w with basicBlocks := blocks }) hne
  refine ⟨rfl, rfl, rfl, fun v => rfl, fun c => ?start, fun c => ?final, fun c d => ?edges,
    fun d c => ?incoming⟩
  case start =>
    have hstart : ((DfsState.linkHalves { s.cutBlock b p w with basicBlocks := blocks } b
        s.basicBlocksCount).basicBlocks c).startOffset = (blocks c).startOffset := by
      rw [hfinal]
      split
      · rename_i hc
        rw [hc]
      · split
        · rename_i hc
          rw [hc]
        · rfl
    rw [DfsState.start, hstart, (hoffsets c).1, DfsState.start, DfsState.cutBlock_basicBlocks]
    split
    · rfl
    · split <;> rfl
  case final =>
    have hend : ((DfsState.linkHalves { s.cutBlock b p w with basicBlocks := blocks } b
        s.basicBlocksCount).basicBlocks c).finalOffset = (blocks c).finalOffset := by
      rw [hfinal]
      split
      · rename_i hc
        rw [hc]
      · split
        · rename_i hc
          rw [hc]
        · rfl
    rw [DfsState.final, hend, (hoffsets c).2, DfsState.final, DfsState.cutBlock_basicBlocks]
    split
    · rfl
    · split
      · rename_i hc
        rw [hc]
        rfl
      · rfl
  case edges =>
    rw [DfsState.HasEdge, hfinal]
    by_cases hc : c = s.basicBlocksCount
    · rw [if_pos hc, if_pos hc]
      simp
    · have hout : (∃ edges, (blocks c).outgoingEdges = some edges ∧ d ∈ edges)
          ↔ if c ∈ s.incoming b then d = s.basicBlocksCount ∨ (d ≠ b ∧ s.HasEdge c d)
            else s.HasEdge c d := by
        rw [hedges c d, DfsState.cutBlock_hasEdge]
        simp only [ne_eq, hc, not_false_eq_true, true_and]
        rfl
      rw [if_neg hc, if_neg hc, ← hout]
      by_cases hcb : c = b
      · rw [if_pos hcb, hcb]
      · rw [if_neg hcb]
  case incoming =>
    rw [DfsState.incoming, hfinal]
    by_cases hd : d = s.basicBlocksCount
    · have hdb : d ≠ b := by rw [hd]; exact hne.symm
      rw [if_pos hd, if_neg hdb, if_pos hd]
      show c ∈ (blocks s.basicBlocksCount).incomingCFGEdges ↔ _
      rw [hincoming, DfsState.cutBlock_incoming]
      simp only [ne_eq, not_true_eq_false, false_and, true_and, false_or]
      rfl
    · rw [if_neg hd]
      by_cases hdb : d = b
      · rw [if_pos hdb, if_pos hdb]
        exact HashSet.mem_singleton
      · rw [if_neg hdb, if_neg hdb, if_neg hd, hincoming, DfsState.cutBlock_incoming]
        simp only [ne_eq, hd, not_false_eq_true, true_and, false_and, or_false]

end SplitState

/-- **Splitting** a block of the graph in front of one of its instructions. -/
theorem splitBasicBlock_spec (hm : Walkable m eh is) {s : DfsState} (h : Inv eh is s none)
    {b p : ℕ} (hb : b < s.basicBlocksCount) (hp : IsStart is p) (hlt : s.start b < p)
    (hle : p ≤ s.final b) :
    ∃ w ∈ is, w.next = p ∧ s.start b ≤ w.offset
      ∧ ∃ s', m.splitBasicBlock s b p = .ok s' ∧ IsSplit s b p w.offset s' := by
  obtain ⟨w, hw, rfl⟩ := hm.consecutive.exists_prev hp (by omega)
  obtain ⟨first, hfirst, hstart⟩ := h.start_isStart b hb
  have hwstart : s.start b ≤ w.offset := by
    rw [← hstart] at hlt ⊢
    exact (hm.consecutive.lt_next_iff hfirst hw).mp hlt
  refine ⟨w, hw, rfl, hwstart, ?_⟩
  have hwlt := w.offset_lt_next
  have hslot : s.vertexToBasicBlock w.offset = some b :=
    (h.slot w hw b).mpr ⟨hb, hwstart, by omega⟩
  have hparents : ∀ c ∈ (s.incoming b).elems, c < s.basicBlocksCount := h.incoming_lt b hb
  obtain ⟨blocks, hrun, hoffsets, hedges, hincoming⟩ := redirectParents_spec
    (s.incoming b).elems (s.cutBlock b w.next w.offset) (s.incoming b).nodup
    (fun hmem => lt_irrefl _ (hparents _ hmem))
    (fun c hc => by
      have hclt := hparents c hc
      refine ⟨(DfsState.cutBlock_hasEdge _ _ c b).mpr
        ⟨ne_of_lt hclt, (h.inverse c hclt b hb).mp hc⟩, fun hnew => ?_⟩
      exact lt_irrefl _ (h.edge c hclt _ ((DfsState.cutBlock_hasEdge _ _ _ _).mp hnew).2).1)
    (fun c _ hmem => ((DfsState.cutBlock_incoming _ _ _ _).mp hmem).1 rfl)
  refine ⟨_, ?_, isSplit_linkHalves _ _ hb hoffsets hedges hincoming⟩
  have hsplit := splitBasicBlock_eq (m := m) w.next hb fun s' hslots =>
    findFinalVertex_eq hm hw ((congrFun hslots w.offset).trans hslot)
  rw [hsplit, hrun]
  rfl

section Split

variable {s s' : DfsState} {b : ℕ} {w : RawInstr}

theorem IsSplit.start_old {p v : ℕ} (h : IsSplit s b p v s') {c : ℕ} (hc : c < s.basicBlocksCount)
    (hne : c ≠ b) : s'.start c = s.start c := by
  rw [h.start, if_neg (by omega), if_neg hne]

theorem IsSplit.start_tail {p v : ℕ} (h : IsSplit s b p v s') (hb : b < s.basicBlocksCount) :
    s'.start b = p := by
  rw [h.start, if_neg (by omega), if_pos rfl]

theorem IsSplit.start_head {p v : ℕ} (h : IsSplit s b p v s') :
    s'.start s.basicBlocksCount = s.start b := by
  rw [h.start, if_pos rfl]

theorem IsSplit.final_old {p v : ℕ} (h : IsSplit s b p v s') {c : ℕ}
    (hc : c < s.basicBlocksCount) : s'.final c = s.final c := by
  rw [h.final, if_neg (by omega)]

theorem IsSplit.final_head {p v : ℕ} (h : IsSplit s b p v s') :
    s'.final s.basicBlocksCount = v := by
  rw [h.final, if_pos rfl]

/-- The edges of an old block lead where they led before. -/
theorem IsSplit.goesTo_old {p v : ℕ} (h : IsSplit s b p v s') (hinv : Inv eh is s none)
    (hb : b < s.basicBlocksCount) {c : ℕ} (hc : c < s.basicBlocksCount) (t : ℕ) :
    s'.GoesTo c t ↔ s.GoesTo c t := by
  have hne : c ≠ s.basicBlocksCount := ne_of_lt hc
  constructor
  · rintro ⟨d, hd, rfl⟩
    rw [h.edges, if_neg hne] at hd
    split at hd
    · rename_i hparent
      rcases hd with rfl | ⟨hdb, hd⟩
      · rw [h.start_head]
        exact ⟨b, (hinv.inverse c hc b hb).mp hparent, rfl⟩
      · rw [h.start_old (hinv.edge c hc d hd).1 hdb]
        exact ⟨d, hd, rfl⟩
    · rename_i hparent
      have hdb : d ≠ b := by
        rintro rfl
        exact hparent ((hinv.inverse c hc d hb).mpr hd)
      rw [h.start_old (hinv.edge c hc d hd).1 hdb]
      exact ⟨d, hd, rfl⟩
  · rintro ⟨d, hd, rfl⟩
    have hdlt := (hinv.edge c hc d hd).1
    by_cases hdb : d = b
    · subst hdb
      refine ⟨s.basicBlocksCount, ?_, h.start_head⟩
      rw [h.edges, if_neg hne, if_pos ((hinv.inverse c hc d hb).mpr hd)]
      exact Or.inl rfl
    · refine ⟨d, ?_, h.start_old hdlt hdb⟩
      rw [h.edges, if_neg hne]
      split
      · exact Or.inr ⟨hdb, hd⟩
      · exact hd

/-- Every block behind a split is the new head, the tail or an old block. -/
theorem IsSplit.block_cases {p v : ℕ} (h : IsSplit s b p v s') (hb : b < s.basicBlocksCount)
    {c : ℕ} (hc : c < s'.basicBlocksCount) :
    c = s.basicBlocksCount ∨ c = b ∨ (c < s.basicBlocksCount ∧ c ≠ b) := by
  have hcount := h.count
  omega

/-- The slots hold the blocks of the instructions. -/
theorem IsSplit.slot (h : IsSplit s b w.next w.offset s') (hinv : Inv eh is s none)
    (hcons : Consecutive 0 is m.bytecode.size) (hb : b < s.basicBlocksCount) (hw : w ∈ is)
    (hstart : s.start b ≤ w.offset) (hle : w.next ≤ s.final b) :
    ∀ i ∈ is, ∀ c, s'.vertexToBasicBlock i.offset = some c
      ↔ c < s'.basicBlocksCount ∧ s'.start c ≤ i.offset ∧ i.offset ≤ s'.final c := by
  have hwlt := w.offset_lt_next
  have hcount := h.count
  intro i hi c
  have hbefore := hcons.lt_next_iff hi hw
  rw [h.slots]
  by_cases hhead : s.start b ≤ i.offset ∧ i.offset < w.next
  · rw [if_pos hhead]
    constructor
    · intro hc
      obtain rfl := (Option.some.inj hc).symm
      rw [h.start_head, h.final_head, hcount]
      exact ⟨by omega, hhead.1, hbefore.mp hhead.2⟩
    · rintro ⟨hc, hle₁, hle₂⟩
      rcases h.block_cases hb hc with rfl | rfl | ⟨hclt, hcb⟩
      · rfl
      · rw [h.start_tail hb] at hle₁
        omega
      · rw [h.start_old hclt hcb] at hle₁
        rw [h.final_old hclt] at hle₂
        exact absurd (hinv.block_unique hi hclt hb ⟨hle₁, hle₂⟩ ⟨hhead.1, by omega⟩) hcb
  · rw [if_neg hhead, hinv.slot i hi c]
    constructor
    · rintro ⟨hc, hle₁, hle₂⟩
      refine ⟨by omega, ?_, ?_⟩
      · by_cases hcb : c = b
        · subst hcb
          rw [h.start_tail hb]
          omega
        · rwa [h.start_old hc hcb]
      · rwa [h.final_old hc]
    · rintro ⟨hc, hle₁, hle₂⟩
      rcases h.block_cases hb hc with rfl | rfl | ⟨hclt, hcb⟩
      · rw [h.start_head] at hle₁
        rw [h.final_head] at hle₂
        omega
      · rw [h.start_tail hb] at hle₁
        rw [h.final_old hb] at hle₂
        exact ⟨hb, by omega, hle₂⟩
      · rw [h.start_old hclt hcb] at hle₁
        rw [h.final_old hclt] at hle₂
        exact ⟨hclt, hle₁, hle₂⟩

theorem IsSplit.assigned (h : IsSplit s b w.next w.offset s') (hinv : Inv eh is s none)
    (hb : b < s.basicBlocksCount) (hle : w.next ≤ s.final b) :
    ∀ i ∈ is, (∃ c, s'.vertexToBasicBlock i.offset = some c)
      ↔ i.offset ∈ s'.used ∨ none = some i.offset := by
  intro i hi
  rw [h.used, ← hinv.assigned i hi, h.slots]
  by_cases hhead : s.start b ≤ i.offset ∧ i.offset < w.next
  · rw [if_pos hhead]
    have hold := (hinv.slot i hi b).mpr ⟨hb, hhead.1, by omega⟩
    exact ⟨fun _ => ⟨b, hold⟩, fun _ => ⟨_, rfl⟩⟩
  · rw [if_neg hhead]

/-- Only the last instruction of a block ends one. -/
theorem IsSplit.interior (h : IsSplit s b w.next w.offset s') (hinv : Inv eh is s none)
    (hb : b < s.basicBlocksCount) (hstart : s.start b ≤ w.offset) (hle : w.next ≤ s.final b) :
    ∀ c < s'.basicBlocksCount, ∀ i ∈ is, s'.start c ≤ i.offset → i.offset < s'.final c →
      ¬i.EndsBlock := by
  have hwlt := w.offset_lt_next
  intro c hc i hi hle₁ hlt₁
  rcases h.block_cases hb hc with rfl | rfl | ⟨hclt, hcb⟩
  · rw [h.start_head] at hle₁
    rw [h.final_head] at hlt₁
    exact hinv.interior b hb i hi hle₁ (by omega)
  · rw [h.start_tail hb] at hle₁
    rw [h.final_old hb] at hlt₁
    exact hinv.interior c hb i hi (by omega) hlt₁
  · rw [h.start_old hclt hcb] at hle₁
    rw [h.final_old hclt] at hlt₁
    exact hinv.interior c hclt i hi hle₁ hlt₁

/-- The edges lead to successors: the one of the head to the tail, those of the old blocks to where
they led before. -/
theorem IsSplit.edge (h : IsSplit s b w.next w.offset s') (hinv : Inv eh is s none)
    (hb : b < s.basicBlocksCount) (hw : w ∈ is) (hinner : ¬w.EndsBlock) :
    ∀ c < s'.basicBlocksCount, ∀ d, s'.HasEdge c d → d < s'.basicBlocksCount
      ∧ ∃ i ∈ is, i.offset = s'.final c ∧ s'.start d ∈ i.successors := by
  have hcount := h.count
  intro c hc d hd
  have hold : ∀ c < s.basicBlocksCount, s'.HasEdge c d → d < s'.basicBlocksCount
      ∧ ∃ i ∈ is, i.offset = s'.final c ∧ s'.start d ∈ i.successors := by
    intro c hclt hd
    have hgoes : s'.GoesTo c (s'.start d) := ⟨d, hd, rfl⟩
    rw [h.goesTo_old hinv hb hclt] at hgoes
    obtain ⟨e, he, hestart⟩ := hgoes
    obtain ⟨helt, i, hi, hoffset, hsucc⟩ := hinv.edge c hclt e he
    refine ⟨?_, i, hi, by rw [h.final_old hclt, hoffset], hestart ▸ hsucc⟩
    rw [h.edges, if_neg (by omega)] at hd
    split at hd
    · rcases hd with rfl | ⟨-, hd⟩
      · omega
      · have := (hinv.edge c hclt d hd).1
        omega
    · have := (hinv.edge c hclt d hd).1
      omega
  rcases h.block_cases hb hc with rfl | rfl | ⟨hclt, -⟩
  · rw [h.edges, if_pos rfl] at hd
    subst hd
    refine ⟨by omega, w, hw, h.final_head.symm, ?_⟩
    rw [h.start_tail hb, RawInstr.successors_of_not_endsBlock hinner]
    exact List.mem_singleton_self _
  · exact hold c hb hd
  · exact hold c hclt hd

/-- The incoming edges are the inverse of the outgoing ones. -/
theorem IsSplit.inverse {p v : ℕ} (h : IsSplit s b p v s') (hinv : Inv eh is s none)
    (hb : b < s.basicBlocksCount) :
    ∀ c < s'.basicBlocksCount, ∀ d < s'.basicBlocksCount,
      c ∈ s'.incoming d ↔ s'.HasEdge c d := by
  have hcount := h.count
  intro c hc d hd
  rw [h.incoming, h.edges]
  by_cases hdb : d = b
  · subst hdb
    rw [if_pos rfl]
    by_cases hcn : c = s.basicBlocksCount
    · rw [if_pos hcn]
      simp [hcn]
    · rw [if_neg hcn]
      have hclt : c < s.basicBlocksCount := by omega
      split
      · rename_i hparent
        simp only [ne_eq, not_true_eq_false, false_and, or_false, hcn, false_iff]
        omega
      · rename_i hparent
        rw [← hinv.inverse c hclt d hb]
        simp [hcn, hparent]
  · rw [if_neg hdb]
    by_cases hdn : d = s.basicBlocksCount
    · rw [if_pos hdn]
      by_cases hcn : c = s.basicBlocksCount
      · rw [if_pos hcn]
        constructor
        · intro hparent
          have := hinv.incoming_lt b hb c hparent
          omega
        · intro heq
          exact absurd heq hdb
      · rw [if_neg hcn]
        have hclt : c < s.basicBlocksCount := by omega
        by_cases hparent : c ∈ s.incoming b
        · rw [if_pos hparent]
          exact ⟨fun _ => Or.inl hdn, fun _ => hparent⟩
        · rw [if_neg hparent]
          constructor
          · intro h'
            exact absurd h' hparent
          · intro hedge
            have := (hinv.edge c hclt d hedge).1
            omega
    · rw [if_neg hdn]
      have hdlt : d < s.basicBlocksCount := by omega
      by_cases hcn : c = s.basicBlocksCount
      · rw [if_pos hcn]
        constructor
        · intro hmem
          have := hinv.incoming_lt d hdlt c hmem
          omega
        · intro heq
          exact absurd heq hdb
      · rw [if_neg hcn]
        have hclt : c < s.basicBlocksCount := by omega
        rw [hinv.inverse c hclt d hdlt]
        split
        · simp [hdn, hdb]
        · exact Iff.rfl

/-- Splitting keeps the invariant. -/
theorem Inv.split (hcons : Consecutive 0 is m.bytecode.size) (hinv : Inv eh is s none)
    (hb : b < s.basicBlocksCount) (hw : w ∈ is) (hstart : s.start b ≤ w.offset)
    (hlt : s.start b < w.next) (hle : w.next ≤ s.final b) (hleader : Leader eh is w.next)
    (hnext : IsStart is w.next) (h : IsSplit s b w.next w.offset s') : Inv eh is s' none := by
  have hwlt := w.offset_lt_next
  have hcount := h.count
  have hinner : ¬w.EndsBlock := hinv.interior b hb w hw hstart (by omega)
  refine ⟨h.slot hinv hcons hb hw hstart hle, h.assigned hinv hb hle, ?startIsStart, ?finalIsStart,
    ?startLe, h.interior hinv hb hstart hle, ?leader, ?reachable, h.edge hinv hb hw hinner,
    h.inverse hinv hb, ?incomingLt, ?grey⟩
  case startIsStart =>
    intro c hc
    rcases h.block_cases hb hc with rfl | rfl | ⟨hclt, hcb⟩
    · rw [h.start_head]
      exact hinv.start_isStart b hb
    · rw [h.start_tail hb]
      exact hnext
    · rw [h.start_old hclt hcb]
      exact hinv.start_isStart c hclt
  case finalIsStart =>
    intro c hc
    rcases h.block_cases hb hc with rfl | rfl | ⟨hclt, hcb⟩
    · rw [h.final_head]
      exact ⟨w, hw, rfl⟩
    · rw [h.final_old hb]
      exact hinv.final_isStart c hb
    · rw [h.final_old hclt]
      exact hinv.final_isStart c hclt
  case startLe =>
    intro c hc
    rcases h.block_cases hb hc with rfl | rfl | ⟨hclt, hcb⟩
    · rw [h.start_head, h.final_head]
      exact hstart
    · rw [h.start_tail hb, h.final_old hb]
      exact hle
    · rw [h.start_old hclt hcb, h.final_old hclt]
      exact hinv.start_le c hclt
  case leader =>
    intro c hc
    rcases h.block_cases hb hc with rfl | rfl | ⟨hclt, hcb⟩
    · rw [h.start_head]
      exact hinv.leader b hb
    · rw [h.start_tail hb]
      exact hleader
    · rw [h.start_old hclt hcb]
      exact hinv.leader c hclt
  case reachable =>
    rw [h.used]
    exact hinv.reachable
  case incomingLt =>
    intro d hd c hmem
    rw [h.incoming] at hmem
    split at hmem
    · omega
    · split at hmem
      · have := hinv.incoming_lt b hb c hmem
        omega
      · have := hinv.incoming_lt d (by omega) c hmem
        omega
  case grey =>
    rw [h.grey, h.used]
    exact hinv.grey

end Split

/-! ### A new edge -/

/-- The state with one more edge. -/
structure IsEdgeAdded (s : DfsState) (b c : ℕ) (s' : DfsState) : Prop where
  count : s'.basicBlocksCount = s.basicBlocksCount
  used : s'.used = s.used
  grey : s'.greyVertices = s.greyVertices
  slots : s'.vertexToBasicBlock = s.vertexToBasicBlock
  start : ∀ d, s'.start d = s.start d
  final : ∀ d, s'.final d = s.final d
  edges : ∀ d e, s'.HasEdge d e ↔ s.HasEdge d e ∨ (d = b ∧ e = c)
  incoming : ∀ e d, d ∈ s'.incoming e ↔ d ∈ s.incoming e ∨ (d = b ∧ e = c)

theorem addEdge_spec {s : DfsState} {b c : ℕ} (hin : b ∉ s.incoming c) (hout : ¬s.HasEdge b c) :
    ∃ s', addEdge s b c = .ok s' ∧ IsEdgeAdded s b c s' := by
  obtain ⟨s₁, hs₁⟩ : ∃ s₁, s₁ = s.modifyBlock c fun blk =>
      { blk with incomingCFGEdges := (s.incoming c).insert b } := ⟨_, rfl⟩
  have hblocks₁ : ∀ d, s₁.basicBlocks d = if d = c
      then { s.basicBlocks c with incomingCFGEdges := (s.incoming c).insert b }
      else s.basicBlocks d := by
    intro d
    rw [hs₁, DfsState.modifyBlock_basicBlocks]
  have hedges₁ : ∀ d, (s₁.basicBlocks d).outgoingEdges = (s.basicBlocks d).outgoingEdges := by
    intro d
    rw [hblocks₁]
    split
    · rename_i hd
      rw [hd]
    · rfl
  obtain ⟨edges', hnew, hmem, hrun⟩ : ∃ edges', (∀ e, e ∈ edges' ↔ s.HasEdge b e ∨ e = c)
      ∧ c ∈ edges' ∧ addEdge s b c
        = .ok (s₁.modifyBlock b fun blk => { blk with outgoingEdges := some edges' }) := by
    have hadd := addNew_eq hin
    rw [DfsState.incoming] at hadd
    rw [addEdge, hadd]
    cases hb : (s.basicBlocks b).outgoingEdges with
    | none =>
        refine ⟨.singleton c, fun e => ?_, by simp, ?_⟩
        · simp [DfsState.HasEdge, hb]
        · rw [← hedges₁, hs₁, DfsState.incoming] at hb
          simp only [bind, Except.bind, hb]
          rw [hs₁]
          rfl
    | some edges =>
        have hnot : c ∉ edges := fun hc => hout ⟨edges, hb, hc⟩
        refine ⟨edges.insert c, fun e => ?_, by simp, ?_⟩
        · simp only [HashSet.mem_insert, DfsState.HasEdge, hb, Option.some.injEq,
            exists_eq_left']
          tauto
        · rw [← hedges₁, hs₁, DfsState.incoming] at hb
          simp only [bind, Except.bind, hb, addNew_eq hnot]
          rw [hs₁]
          rfl
  refine ⟨_, hrun, ?_⟩
  have hblocks : ∀ d, (s₁.modifyBlock b fun blk =>
      { blk with outgoingEdges := some edges' }).basicBlocks d
        = if d = b then { s₁.basicBlocks b with outgoingEdges := some edges' }
          else s₁.basicBlocks d := by
    intro d
    rw [DfsState.modifyBlock_basicBlocks]
  have hparts : ∀ d, ((s₁.modifyBlock b fun blk =>
      { blk with outgoingEdges := some edges' }).basicBlocks d).startOffset = s.start d
      ∧ ((s₁.modifyBlock b fun blk =>
        { blk with outgoingEdges := some edges' }).basicBlocks d).finalOffset = s.final d
      ∧ ((s₁.modifyBlock b fun blk =>
        { blk with outgoingEdges := some edges' }).basicBlocks d).incomingCFGEdges
          = (s₁.basicBlocks d).incomingCFGEdges := by
    intro d
    have hold : (s₁.basicBlocks d).startOffset = s.start d
        ∧ (s₁.basicBlocks d).finalOffset = s.final d := by
      rw [hblocks₁]
      split
      · rename_i hd
        rw [hd]
        exact ⟨rfl, rfl⟩
      · exact ⟨rfl, rfl⟩
    rw [hblocks]
    split
    · rename_i hd
      rw [← hd]
      exact ⟨hold.1, hold.2, rfl⟩
    · exact ⟨hold.1, hold.2, rfl⟩
  constructor
  · rw [hs₁]
    rfl
  · rw [hs₁]
    rfl
  · rw [hs₁]
    rfl
  · rw [hs₁]
    rfl
  · exact fun d => (hparts d).1
  · exact fun d => (hparts d).2.1
  · intro d e
    rw [DfsState.HasEdge, hblocks]
    by_cases hd : d = b
    · subst hd
      rw [if_pos rfl]
      simp only [Option.some.injEq, exists_eq_left', hnew, true_and]
    · rw [if_neg hd, hedges₁]
      simp only [hd, false_and, or_false]
      rfl
  · intro e d
    rw [DfsState.incoming, (hparts e).2.2, hblocks₁]
    split
    · rename_i he
      subst he
      dsimp only
      rw [HashSet.mem_insert]
      tauto
    · rename_i he
      simp only [he, and_false, or_false]
      rfl

theorem IsEdgeAdded.goesTo {s s' : DfsState} {b c : ℕ} (h : IsEdgeAdded s b c s') (d t : ℕ) :
    s'.GoesTo d t ↔ s.GoesTo d t ∨ (d = b ∧ t = s.start c) := by
  simp only [DfsState.GoesTo, h.edges, h.start]
  constructor
  · rintro ⟨e, hedge | ⟨rfl, rfl⟩, rfl⟩
    · exact Or.inl ⟨e, hedge, rfl⟩
    · exact Or.inr ⟨rfl, rfl⟩
  · rintro (⟨e, hedge, rfl⟩ | ⟨rfl, rfl⟩)
    · exact ⟨e, Or.inl hedge, rfl⟩
    · exact ⟨c, Or.inr ⟨rfl, rfl⟩, rfl⟩

/-- An edge along the control flow keeps the invariant. -/
theorem Inv.addEdge {s s' : DfsState} {fresh : Option ℕ} {b c : ℕ} (hinv : Inv eh is s fresh)
    (hb : b < s.basicBlocksCount) (hc : c < s.basicBlocksCount) {i : RawInstr} (hi : i ∈ is)
    (hoffset : i.offset = s.final b) (hsucc : s.start c ∈ i.successors)
    (h : IsEdgeAdded s b c s') : Inv eh is s' fresh where
  slot := by
    intro i hi d
    rw [h.slots, h.count, h.start, h.final]
    exact hinv.slot i hi d
  assigned := by
    intro i hi
    rw [h.slots, h.used]
    exact hinv.assigned i hi
  start_isStart := by
    intro d hd
    rw [h.start]
    exact hinv.start_isStart d (h.count ▸ hd)
  final_isStart := by
    intro d hd
    rw [h.final]
    exact hinv.final_isStart d (h.count ▸ hd)
  start_le := by
    intro d hd
    rw [h.start, h.final]
    exact hinv.start_le d (h.count ▸ hd)
  interior := by
    intro d hd
    rw [h.start, h.final]
    exact hinv.interior d (h.count ▸ hd)
  leader := by
    intro d hd
    rw [h.start]
    exact hinv.leader d (h.count ▸ hd)
  reachable := by
    rw [h.used]
    exact hinv.reachable
  edge := by
    intro d hd e hedge
    rw [h.edges] at hedge
    rw [h.count, h.final, h.start]
    rcases hedge with hedge | ⟨rfl, rfl⟩
    · exact hinv.edge d (h.count ▸ hd) e hedge
    · exact ⟨hc, i, hi, hoffset, hsucc⟩
  inverse := by
    intro d hd e he
    rw [h.incoming, h.edges, hinv.inverse d (h.count ▸ hd) e (h.count ▸ he)]
  incoming_lt := by
    intro e he d hmem
    rw [h.incoming] at hmem
    rw [h.count]
    rcases hmem with hmem | ⟨rfl, -⟩
    · exact hinv.incoming_lt e (h.count ▸ he) d hmem
    · exact hb
  grey := by
    rw [h.grey, h.used]
    exact hinv.grey

end TestExecutor
