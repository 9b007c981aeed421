import TestExecutor.IL.CfgExact
import TestExecutor.IL.DecoderAgreement
import TestExecutor.Library.Loops

/-!
# Where blocks end

The walk of `CFG.fs` on any valid body whose opcodes are assigned, be it with `tail.`, `jmp` or a
`switch`, behind which the builder may have gone astray.  If the construction returns, then it has only
visited instructions that both decoders know, and every block ends at the start of one.

* `Visitable` — what the walk relies on;
* `Good`, `Starts` — the bytes that a block may hold, and the invariant;
* `splitBasicBlock_starts`, `makeNewBasicBlock_starts`, `addEdge_same` — what the local functions keep;
* `dfs'_starts` — the walk keeps the invariant, if it returns;
* `Method.final_isStart` — every block of the graph ends at the start of an instruction.
-/

namespace TestExecutor

open TestExecutor.Library

variable {body : MethodBody} {is : List RawInstr} {resolves : ℕ → Bool} {m : Method}

/-! ### Instructions of both decoders -/

/-- What the walk relies on. -/
structure Visitable (m : Method) (is : List RawInstr) : Prop where
  consecutive : Consecutive 0 is m.bytecode.size
  key_lt : ∀ v ∈ m.offsetToInstr.keys, v < m.bytecode.size
  -- behind a `switch` the builder goes on inside the table
  inside : ∀ i ∈ is, i.offset ∈ m.offsetToInstr.keys → i.opcode ≠ ceeSwitch →
    ∀ o, i.offset < o → o < i.next → o ∉ m.offsetToInstr.keys
  transition : ∀ i ∈ is, ∀ j, m.offsetToInstr.lookup i.offset = some j →
    findNextInstructionOffsetAndEdges j.opcode m.bytecode i.offset = .ok i.transition
  targets : ∀ i ∈ is, ∀ t ∈ i.targets, IsStart is t ∨ t = m.bytecode.size

theorem Adjacent.start_le {stop : ℕ} {js : List IlInstr} : ∀ {start : ℕ}, Adjacent start js stop →
    ∀ j ∈ js, start ≤ j.offset := by
  induction js with
  | nil => exact fun _ j hj => absurd hj List.not_mem_nil
  | cons i js ih =>
      intro start h j hj
      rcases List.mem_cons.mp hj with rfl | hj
      · exact le_of_eq h.1.symm
      · exact (Nat.le_add_right _ _).trans (ih h.2 j hj)

/-- Built instructions do not overlap. -/
theorem Adjacent.pairwise {stop : ℕ} {js : List IlInstr} : ∀ {start : ℕ}, Adjacent start js stop →
    js.Pairwise fun j k => j.offset + j.size ≤ k.offset := by
  induction js with
  | nil => exact fun _ => List.Pairwise.nil
  | cons i js ih =>
      intro start h
      refine List.pairwise_cons.mpr ⟨fun j hj => ?_, ih h.2⟩
      rw [h.1]
      exact h.2.start_le j hj

theorem Adjacent.end_le {start stop : ℕ} {js : List IlInstr} (h : Adjacent start js stop)
    {j k : IlInstr} (hj : j ∈ js) (hk : k ∈ js) (hlt : j.offset < k.offset) :
    j.offset + j.size ≤ k.offset := by
  obtain ⟨a, ha, rfl⟩ := List.mem_iff_getElem.mp hj
  obtain ⟨b, hb, rfl⟩ := List.mem_iff_getElem.mp hk
  have hpairwise := List.pairwise_iff_getElem.mp h.pairwise
  rcases Nat.lt_trichotomy a b with hab | rfl | hba
  · exact hpairwise a b ha hb hab
  · exact absurd hlt (lt_irrefl _)
  · have hle := hpairwise b a hb ha hba
    omega

section Body

variable (hm : Method.ofBody body resolves = .ok m)

include hm

theorem Method.adjacent : Adjacent 0 m.instructions body.code.size :=
  buildInstrs_adjacent body.code.size 0 m.instructions (Method.ofBody_spec hm).2.2.2.1 (Nat.zero_le _)
    (by omega)

/-- What the dictionary finds was built at that offset. -/
theorem Method.lookup_spec {o : ℕ} {j : IlInstr} (hj : m.offsetToInstr.lookup o = some j) :
    j ∈ m.instructions ∧ j.offset = o ∧ getOpCode body.code o = .ok j.opcode := by
  obtain ⟨-, -, -, hbuild, hdictionary⟩ := Method.ofBody_spec hm
  have hnodup : (m.instructions.map IlInstr.offset).Nodup := by
    refine List.pairwise_map.mpr ((Method.adjacent hm).pairwise.imp fun {j k} hle heq => ?_)
    have hpos := j.size_pos
    omega
  have hkey : o ∈ m.offsetToInstr.keys := Dictionary.mem_keys_iff.mpr ⟨j, hj⟩
  rw [hdictionary, mem_keys_foldl_set] at hkey
  rcases hkey with hkey | hkey
  · exact absurd hkey (by simp [Dictionary.keys, Dictionary.empty])
  · obtain ⟨k, hk, rfl⟩ := List.mem_map.mp hkey
    have hfind := lookup_foldl_set m.instructions Dictionary.empty hnodup hk
    rw [hdictionary, hfind] at hj
    obtain rfl := Option.some.inj hj
    exact ⟨hk, rfl, buildInstrs_opcode body.code.size 0 m.instructions hbuild k hk⟩

/-- Valid bodies of assigned opcodes can be visited. -/
theorem Method.visitable (hvalid : ValidBody body is) (hassigned : ∀ i ∈ is, Assigned i.opcode) :
    Visitable m is := by
  have hcode := (Method.ofBody_spec hm).1
  have hadjacent := Method.adjacent hm
  have hopcode : ∀ i ∈ is, ∀ j, m.offsetToInstr.lookup i.offset = some j → j.opcode = i.opcode := by
    intro i hi j hj
    have hread := (Method.lookup_spec hm hj).2.2
    rw [getOpCode_of_decodeOpcode (hvalid.decodedAt hi).opcode_eq (hassigned i hi)] at hread
    exact (Except.ok.inj hread).symm
  refine ⟨hcode ▸ hvalid.consecutive, fun v hv => ?_, fun i hi hkey hswitch o hlt hnext hmem => ?_,
    fun i hi j hj => ?_, hcode ▸ hvalid.targets⟩
  · obtain ⟨j, hj⟩ := Dictionary.mem_keys_iff.mp hv
    obtain ⟨hmem, rfl, -⟩ := Method.lookup_spec hm hj
    have hle := hadjacent.le_of_mem hmem
    have hpos := j.size_pos
    rw [hcode]
    omega
  · obtain ⟨j, hj⟩ := Dictionary.mem_keys_iff.mp hkey
    obtain ⟨k, hk⟩ := Dictionary.mem_keys_iff.mp hmem
    obtain ⟨hjmem, hjoffset, -⟩ := Method.lookup_spec hm hj
    obtain ⟨hkmem, hkoffset, -⟩ := Method.lookup_spec hm hk
    have hle := hadjacent.end_le hjmem hkmem (by omega)
    have hsame : j = i.toIlInstr := by
      rw [RawInstr.toIlInstr, ← hopcode i hi j hj, ← hjoffset]
    have hsize := toIlInstr_size (hvalid.decodedAt hi) hswitch
    rw [hsame, hkoffset, show i.toIlInstr.offset = i.offset from rfl] at hle
    omega
  · rw [hopcode i hi j hj, hcode]
    exact transition_of_decoded (hvalid.decodedAt hi)

end Body

/-! ### The invariant -/

/-- The byte belongs to an instruction that was visited; inside one, it is none of a `switch`. -/
def Good (is : List RawInstr) (s : DfsState) (v : ℕ) : Prop :=
  ∃ i ∈ is, i.offset ∈ s.used
    ∧ (v = i.offset ∨ (i.offset < v ∧ v < i.next ∧ i.opcode ≠ ceeSwitch))

/-- The invariant of the walk.  A `pending` vertex is the one that the walk is about to go to. -/
structure Starts (m : Method) (is : List RawInstr) (s : DfsState) (pending : Option ℕ) : Prop where
  used : ∀ v ∈ s.used, IsStart is v ∧ v ∈ m.offsetToInstr.keys
  slot_lt : ∀ v b, s.vertexToBasicBlock v = some b → b < s.basicBlocksCount
  slot_start : ∀ v b, s.vertexToBasicBlock v = some b → s.start b ≤ v
  slot_good : ∀ v b, s.vertexToBasicBlock v = some b → Good is s v ∨ pending = some v
  range_good : ∀ v b, s.vertexToBasicBlock v = some b → ∀ u, s.start b ≤ u → u < v → Good is s u
  final : ∀ b < s.basicBlocksCount, IsStart is (s.final b) ∨ pending = some (s.final b)

/-- The walk can go on in a block to a vertex. -/
structure GoesInto (is : List RawInstr) (s : DfsState) (b v : ℕ) : Prop where
  lt : b < s.basicBlocksCount
  start_le : s.start b ≤ v
  good : ∀ u, s.start b ≤ u → u < v → Good is s u

/-- States that differ in edges, loops and sinks only. -/
structure SameBlocks (s s' : DfsState) : Prop where
  used : s'.used = s.used
  slots : s'.vertexToBasicBlock = s.vertexToBasicBlock
  count : s'.basicBlocksCount = s.basicBlocksCount
  start : ∀ b, s'.start b = s.start b
  final : ∀ b, s'.final b = s.final b

variable {s s' : DfsState} {b c v : ℕ} {pending : Option ℕ}

theorem Good.mono (h : Good is s v) (hused : ∀ u ∈ s.used, u ∈ s'.used) : Good is s' v := by
  obtain ⟨i, hi, hmem, hv⟩ := h
  exact ⟨i, hi, hused _ hmem, hv⟩

namespace SameBlocks

theorem refl (s : DfsState) : SameBlocks s s := ⟨rfl, rfl, rfl, fun _ => rfl, fun _ => rfl⟩

theorem trans {s'' : DfsState} (h : SameBlocks s s') (h' : SameBlocks s' s'') : SameBlocks s s'' where
  used := h'.used.trans h.used
  slots := h'.slots.trans h.slots
  count := h'.count.trans h.count
  start := fun b => (h'.start b).trans (h.start b)
  final := fun b => (h'.final b).trans (h.final b)

theorem good (h : SameBlocks s s') (hv : Good is s v) : Good is s' v :=
  hv.mono fun _ hu => h.used ▸ hu

theorem starts (h : SameBlocks s s') (hs : Starts m is s pending) : Starts m is s' pending where
  used := by
    rw [h.used]
    exact hs.used
  slot_lt := by
    rw [h.slots, h.count]
    exact hs.slot_lt
  slot_start := fun v b hv => by
    rw [h.start]
    exact hs.slot_start v b (h.slots ▸ hv)
  slot_good := fun v b hv => (hs.slot_good v b (h.slots ▸ hv)).imp_left h.good
  range_good := fun v b hv u hle hlt =>
    h.good (hs.range_good v b (h.slots ▸ hv) u (h.start b ▸ hle) hlt)
  final := fun b hb => by
    rw [h.final]
    exact hs.final b (h.count ▸ hb)

theorem goesInto (h : SameBlocks s s') (hs : GoesInto is s b v) : GoesInto is s' b v where
  lt := h.count ▸ hs.lt
  start_le := (h.start b).trans_le hs.start_le
  good := fun _ hle hlt => h.good (hs.good _ (h.start b ▸ hle) hlt)

/-- A change of edges. -/
theorem modifyBlock (s : DfsState) (b : ℕ) {f : BasicBlock → BasicBlock}
    (hstart : ∀ block, (f block).startOffset = block.startOffset)
    (hfinal : ∀ block, (f block).finalOffset = block.finalOffset) :
    SameBlocks s (s.modifyBlock b f) := by
  refine ⟨rfl, rfl, rfl, fun c => ?_, fun c => ?_⟩
  · rw [DfsState.start, DfsState.start, DfsState.modifyBlock_basicBlocks]
    split
    · rename_i hc
      rw [hstart, hc]
    · rfl
  · rw [DfsState.final, DfsState.final, DfsState.modifyBlock_basicBlocks]
    split
    · rename_i hc
      rw [hfinal, hc]
    · rfl

end SameBlocks

theorem addEdge_same (hrun : addEdge s b c = .ok s') : SameBlocks s s' := by
  obtain ⟨incoming, -, hrun⟩ := exists_of_bind_eq_ok hrun
  have hin := SameBlocks.modifyBlock s c (f := fun b => { b with incomingCFGEdges := incoming })
    (fun _ => rfl) fun _ => rfl
  refine hin.trans ?_
  dsimp only at hrun
  split at hrun
  · obtain ⟨edges, -, hrun⟩ := exists_of_bind_eq_ok hrun
    obtain rfl := Except.ok.inj hrun
    exact .modifyBlock _ _ (fun _ => rfl) fun _ => rfl
  · obtain rfl := Except.ok.inj hrun
    exact .modifyBlock _ _ (fun _ => rfl) fun _ => rfl

theorem redirectParent_same {block newBlock parent : ℕ}
    (hrun : redirectParent block newBlock s parent = .ok s') : SameBlocks s s' := by
  rw [redirectParent] at hrun
  split at hrun
  · cases hrun
  · split at hrun
    · cases hrun
    · obtain ⟨edges, -, hrun⟩ := exists_of_bind_eq_ok hrun
      obtain ⟨incoming, -, hrun⟩ := exists_of_bind_eq_ok hrun
      obtain rfl := Except.ok.inj hrun
      have hout := SameBlocks.modifyBlock s parent (f := fun b => { b with outgoingEdges := some edges })
        (fun _ => rfl) fun _ => rfl
      exact hout.trans (.modifyBlock _ _ (fun _ => rfl) fun _ => rfl)

theorem DfsState.linkHalves_same (s : DfsState) (b new : ℕ) : SameBlocks s (s.linkHalves b new) := by
  have hin := SameBlocks.modifyBlock s b (f := fun b => { b with incomingCFGEdges := .singleton new })
    (fun _ => rfl) fun _ => rfl
  exact hin.trans (.modifyBlock _ _ (fun _ => rfl) fun _ => rfl)

theorem DfsState.leave_same (hrun : s.leave v = .ok s') : SameBlocks s s' := by
  rw [DfsState.leave] at hrun
  split at hrun
  · obtain rfl := Except.ok.inj hrun
    exact ⟨rfl, rfl, rfl, fun _ => rfl, fun _ => rfl⟩
  · cases hrun

/-! ### The local functions -/

theorem lastSlot_spec {slots : ℕ → Option ℕ} {k : ℕ} : ∀ n, lastSlot slots b n = .ok k →
    k < n ∧ slots k = some b := by
  intro n
  induction n with
  | zero => exact fun h => nomatch h
  | succ n ih =>
      intro h
      rw [lastSlot] at h
      split at h
      · rename_i hslot
        obtain rfl := Except.ok.inj h
        exact ⟨Nat.lt_succ_self n, hslot⟩
      · obtain ⟨hlt, hslot⟩ := ih h
        exact ⟨Nat.lt_succ_of_lt hlt, hslot⟩

/-- What `findFinalVertex` finds is the start of an instruction. -/
theorem findFinalVertex_isStart (hvis : Visitable m is) {w : ℕ}
    (hkeys : ∀ u ∈ s.used, u ∈ m.offsetToInstr.keys)
    (hgood : ∀ k < v, s.vertexToBasicBlock k = some b → Good is s k)
    (hrun : m.findFinalVertex s v b = .ok w) : IsStart is w := by
  obtain ⟨k, hslot, hrun⟩ := exists_of_bind_eq_ok hrun
  obtain ⟨hlt, hslot⟩ := lastSlot_spec v hslot
  obtain ⟨i, hi, hused, hk⟩ := hgood k hlt hslot
  have hkey := hkeys _ hused
  have hinstr : lastInstr m.offsetToInstr k = .ok i.offset := by
    refine lastInstr_eq hkey k (by omega) fun o ho hok => ?_
    rcases hk with rfl | ⟨-, hnext, hswitch⟩
    · omega
    · exact hvis.inside i hi hkey hswitch o ho (by omega)
  obtain rfl := Except.ok.inj (hinstr.symm.trans hrun)
  exact ⟨i, hi, rfl⟩

/-- Cutting a block. -/
theorem Starts.cutBlock (hs : Starts m is s none) {p w : ℕ} (hslot : s.vertexToBasicBlock p = some b)
    (hw : IsStart is w) : Starts m is (s.cutBlock b p w) none := by
  have hb := hs.slot_lt p b hslot
  have hstart : ∀ c, (s.cutBlock b p w).start c
      = if c = s.basicBlocksCount then s.start b else if c = b then p else s.start c := by
    intro c
    rw [DfsState.start, DfsState.cutBlock_basicBlocks]
    split
    · rfl
    · split <;> rfl
  have hfinal : ∀ c, (s.cutBlock b p w).final c
      = if c = s.basicBlocksCount then w else s.final c := by
    intro c
    rw [DfsState.final, DfsState.cutBlock_basicBlocks]
    split
    · rfl
    · split
      · rename_i hc
        rw [hc]
        rfl
      · rfl
  have hgood : ∀ {v}, Good is s v → Good is (s.cutBlock b p w) v := fun h => h.mono fun _ hu => hu
  -- a slot is one of the new block, or an old one
  have hcases : ∀ {v c}, (s.cutBlock b p w).vertexToBasicBlock v = some c →
      (c = s.basicBlocksCount ∧ s.start b ≤ v ∧ v < p)
        ∨ (s.vertexToBasicBlock v = some c ∧ c ≠ s.basicBlocksCount ∧ (c = b → p ≤ v)) := by
    intro v c hv
    change (if s.start b ≤ v ∧ v < p then some s.basicBlocksCount else s.vertexToBasicBlock v) = some c
      at hv
    split at hv
    · rename_i hin
      exact Or.inl ⟨(Option.some.inj hv).symm, hin⟩
    · rename_i hout
      refine Or.inr ⟨hv, ne_of_lt (hs.slot_lt v c hv), ?_⟩
      rintro rfl
      have hle := hs.slot_start v c hv
      omega
  refine ⟨hs.used, fun v c hv => ?_, fun v c hv => ?_, fun v c hv => ?_, fun v c hv u hle hlt => ?_,
    fun c hc => ?_⟩
  · show c < s.basicBlocksCount + 1
    rcases hcases hv with ⟨rfl, -⟩ | ⟨hold, -⟩
    · exact Nat.lt_succ_self _
    · exact Nat.lt_succ_of_lt (hs.slot_lt v c hold)
  · rw [hstart]
    rcases hcases hv with ⟨rfl, hle, -⟩ | ⟨hold, hne, hcut⟩
    · rwa [if_pos rfl]
    · rw [if_neg hne]
      split
      · exact hcut ‹_›
      · exact hs.slot_start v c hold
  · rcases hcases hv with ⟨rfl, hle, hlt⟩ | ⟨hold, -⟩
    · exact Or.inl (hgood (hs.range_good p b hslot v hle hlt))
    · exact (hs.slot_good v c hold).imp_left hgood
  · rw [hstart] at hle
    rcases hcases hv with ⟨rfl, -, hltp⟩ | ⟨hold, hne, hcut⟩
    · rw [if_pos rfl] at hle
      exact hgood (hs.range_good p b hslot u hle (hlt.trans hltp))
    · rw [if_neg hne] at hle
      split at hle
      · rename_i hcb
        subst hcb
        exact hgood (hs.range_good v c hold u ((hs.slot_start p c hslot).trans hle) hlt)
      · exact hgood (hs.range_good v c hold u hle hlt)
  · rw [hfinal]
    split
    · exact Or.inl hw
    · rename_i hne
      exact hs.final c (by have : c < s.basicBlocksCount + 1 := hc; omega)

/-- Splitting a block. -/
theorem splitBasicBlock_starts (hvis : Visitable m is) (hs : Starts m is s none) {p : ℕ}
    (hslot : s.vertexToBasicBlock p = some b) (hrun : m.splitBasicBlock s b p = .ok s') :
    Starts m is s' none ∧ GoesInto is s' b p := by
  have hb := hs.slot_lt p b hslot
  have hfirst := hrun
  rw [Method.splitBasicBlock] at hfirst
  obtain ⟨w, hfind, -⟩ := exists_of_bind_eq_ok hfirst
  rw [splitBasicBlock_eq p hb fun s' hslots => by
    rw [Method.findFinalVertex, hslots]
    exact hfind] at hrun
  have hw : IsStart is w := findFinalVertex_isStart hvis (fun u hu => (hs.used u hu).2)
    (fun k _ hk => (hs.slot_good k b hk).resolve_right (Option.some_ne_none k).symm) hfind
  -- the loop over the parents changes edges only
  obtain ⟨t, ht, rfl⟩ : ∃ t, (s.incoming b).elems.foldlM (redirectParent b s.basicBlocksCount)
      (s.cutBlock b p w) = .ok t ∧ t.linkHalves b s.basicBlocksCount = s' := by
    cases hloop : (s.incoming b).elems.foldlM (redirectParent b s.basicBlocksCount)
        (s.cutBlock b p w) with
    | error e =>
        rw [hloop] at hrun
        cases hrun
    | ok t =>
        rw [hloop] at hrun
        exact ⟨t, rfl, Except.ok.inj hrun⟩
  have hloop : SameBlocks (s.cutBlock b p w) t :=
    foldlM_invariant (fun _ t => SameBlocks (s.cutBlock b p w) t)
      (fun _ _ _ _ _ _ hsame hstep => hsame.trans (redirectParent_same hstep)) (.refl _) ht
  have hsame := hloop.trans (t.linkHalves_same b s.basicBlocksCount)
  refine ⟨hsame.starts (hs.cutBlock hslot hw), hsame.goesInto ⟨Nat.lt_succ_of_lt hb, ?_, ?_⟩⟩
  all_goals
    have hstart : (s.cutBlock b p w).start b = p := by
      rw [DfsState.start, DfsState.cutBlock_basicBlocks, if_neg (ne_of_lt hb), if_pos rfl]
  · exact le_of_eq hstart
  · intro u hle hlt
    omega

/-- The walk may be about to go anywhere. -/
theorem Starts.weaken (hs : Starts m is s none) (pending : Option ℕ) : Starts m is s pending where
  used := hs.used
  slot_lt := hs.slot_lt
  slot_start := hs.slot_start
  slot_good := fun v b hv => (hs.slot_good v b hv).imp_right fun h => nomatch h
  range_good := hs.range_good
  final := fun b hb => (hs.final b hb).imp_right fun h => nomatch h

/-- A new block. -/
theorem Starts.addBlock (hs : Starts m is s none) : Starts m is (s.addBlock v) (some v) := by
  have hold : ∀ {u c}, s.vertexToBasicBlock u = some c → c ≠ s.basicBlocksCount :=
    fun hu => ne_of_lt (hs.slot_lt _ _ hu)
  have hcases : ∀ {u c}, (s.addBlock v).vertexToBasicBlock u = some c →
      (u = v ∧ c = s.basicBlocksCount) ∨ s.vertexToBasicBlock u = some c := by
    intro u c hu
    change Function.update s.vertexToBasicBlock v (some s.basicBlocksCount) u = some c at hu
    by_cases huv : u = v
    · rw [huv, Function.update_self] at hu
      exact Or.inl ⟨huv, (Option.some.inj hu).symm⟩
    · rw [Function.update_of_ne huv] at hu
      exact Or.inr hu
  obtain ⟨hstart, hfinal, -, -⟩ := s.addBlock_new (v := v)
  refine ⟨hs.used, fun u c hu => ?_, fun u c hu => ?_, fun u c hu => ?_, fun u c hu w hle hlt => ?_,
    fun c hc => ?_⟩
  · rcases hcases hu with ⟨-, rfl⟩ | hu
    · exact Nat.lt_succ_self _
    · exact Nat.lt_succ_of_lt (hs.slot_lt u c hu)
  · rcases hcases hu with ⟨rfl, rfl⟩ | hu
    · exact le_of_eq hstart
    · rw [(DfsState.addBlock_old (hold hu)).1]
      exact hs.slot_start u c hu
  · rcases hcases hu with ⟨rfl, -⟩ | hu
    · exact Or.inr rfl
    · exact Or.inl ((hs.slot_good u c hu).resolve_right fun h => nomatch h)
  · rcases hcases hu with ⟨rfl, rfl⟩ | hu
    · rw [hstart] at hle
      omega
    · rw [(DfsState.addBlock_old (hold hu)).1] at hle
      exact hs.range_good u c hu w hle hlt
  · by_cases hcount : c = s.basicBlocksCount
    · rw [hcount, hfinal]
      exact Or.inr rfl
    · rw [(DfsState.addBlock_old hcount).2.1]
      have hlt : c < s.basicBlocksCount := by
        have hsucc : c < s.basicBlocksCount + 1 := hc
        omega
      exact (hs.weaken _).final c hlt

/-- The block at the target of a jump. -/
theorem makeNewBasicBlock_starts (hvis : Visitable m is) (hs : Starts m is s none)
    (hrun : m.makeNewBasicBlock s v = .ok (b, s')) :
    Starts m is s' (some v) ∧ GoesInto is s' b v := by
  rw [Method.makeNewBasicBlock] at hrun
  split at hrun
  · cases hrun
  · split at hrun
    · obtain ⟨rfl, rfl⟩ := Prod.mk.inj (Except.ok.inj hrun)
      obtain ⟨hstart, -⟩ := s.addBlock_new (v := v)
      refine ⟨hs.addBlock, Nat.lt_succ_self _, le_of_eq hstart, fun u hle hlt => ?_⟩
      change (s.addBlock v).start s.basicBlocksCount ≤ u at hle
      omega
    · rename_i block hslot
      split at hrun
      · rename_i hstart
        obtain ⟨rfl, rfl⟩ := Prod.mk.inj (Except.ok.inj hrun)
        exact ⟨hs.weaken _, hs.slot_lt v _ hslot, le_of_eq hstart,
          fun u hle hlt => hs.range_good v _ hslot u hle hlt⟩
      · obtain ⟨t, hsplit, hrun⟩ := exists_of_bind_eq_ok hrun
        obtain ⟨rfl, rfl⟩ := Prod.mk.inj (Except.ok.inj hrun)
        obtain ⟨hstarts, hinto⟩ := splitBasicBlock_starts hvis hs hslot hsplit
        exact ⟨hstarts.weaken _, hinto⟩

/-- A block may end at a start, or where the walk is about to go. -/
theorem Starts.setFinalOffset (hs : Starts m is s pending) {w : ℕ}
    (hw : IsStart is w ∨ pending = some w) : Starts m is (s.setFinalOffset b w) pending where
  used := hs.used
  slot_lt := hs.slot_lt
  slot_start := fun u c hu => by
    rw [DfsState.start_setFinalOffset]
    exact hs.slot_start u c hu
  slot_good := hs.slot_good
  range_good := fun u c hu => by
    rw [DfsState.start_setFinalOffset]
    exact hs.range_good u c hu
  final := fun c hc => by
    rw [DfsState.final_setFinalOffset]
    split
    · exact hw
    · exact hs.final c hc

theorem GoesInto.setFinalOffset (h : GoesInto is s b v) (w : ℕ) :
    GoesInto is (s.setFinalOffset b w) b v := by
  refine ⟨h.lt, ?_, fun u hle hlt => h.good u ?_ hlt⟩
  · rw [DfsState.start_setFinalOffset]
    exact h.start_le
  · rwa [DfsState.start_setFinalOffset] at hle

/-- The vertex was visited before. -/
theorem revisit_starts (hvis : Visitable m is) (hs : Starts m is s (some v)) (hused : v ∈ s.used)
    (hrun : m.revisit s b v = .ok s') : Starts m is s' none := by
  obtain ⟨hstart, hkey⟩ := hs.used v hused
  obtain ⟨i, hi, rfl⟩ := hstart
  have hgood : Good is s i.offset := ⟨i, hi, hused, Or.inl rfl⟩
  have hs : Starts m is s none :=
    { hs with
      slot_good := fun u c hu => Or.inl ((hs.slot_good u c hu).elim id fun h =>
        Option.some.inj h ▸ hgood)
      final := fun c hc => Or.inl ((hs.final c hc).elim id fun h =>
        Option.some.inj h ▸ ⟨i, hi, rfl⟩) }
  rw [Method.revisit] at hrun
  split at hrun
  · cases hrun
  · rename_i c hslot
    -- a loop entry is only noted
    have hmark : ∀ t, Starts m is t none →
        (if i.offset ∈ t.greyVertices then
          (pure { t with loopEntries := t.loopEntries.insert i.offset } : Except CfgError DfsState)
          else pure t) = .ok s' → Starts m is s' none := by
      intro t ht hmark
      split at hmark
      · obtain rfl := Except.ok.inj hmark
        exact SameBlocks.starts (s := t) ⟨rfl, rfl, rfl, fun _ => rfl, fun _ => rfl⟩ ht
      · obtain rfl := Except.ok.inj hmark
        exact ht
    dsimp only at hrun
    split at hrun
    · obtain ⟨w, hfind, hrun⟩ := exists_of_bind_eq_ok hrun
      obtain ⟨t, hadd, hrun⟩ := exists_of_bind_eq_ok hrun
      have hw : IsStart is w := findFinalVertex_isStart hvis (fun u hu => (hs.used u hu).2)
        (fun k _ hk => (hs.slot_good k b hk).resolve_right (Option.some_ne_none _).symm) hfind
      exact hmark t ((addEdge_same hadd).starts (hs.setFinalOffset (Or.inl hw))) hrun
    · exact hmark s hs hrun

/-- The vertex is new, and an instruction stands there. -/
theorem enter_starts (hs : Starts m is s (some v)) (hinto : GoesInto is s b v) {i : RawInstr}
    (hi : i ∈ is) (hoffset : i.offset = v) (hkey : v ∈ m.offsetToInstr.keys)
    (hrun : m.enter s b v = .ok s') :
    Starts m is s' none ∧ GoesInto is s' b v ∧ v ∈ s'.used := by
  rw [Method.enter] at hrun
  split at hrun
  · cases hrun
  obtain ⟨grey, -, hrun⟩ := exists_of_bind_eq_ok hrun
  obtain ⟨used, hadd, hrun⟩ := exists_of_bind_eq_ok hrun
  rw [addNew] at hadd
  split at hadd
  · cases hadd
  obtain rfl := Except.ok.inj hadd
  obtain rfl := Except.ok.inj hrun
  have hv : v ∈ s.used.insert v := HashSet.mem_insert.mpr (Or.inl rfl)
  have hmono : ∀ {u}, Good is s u → Good is ({ s with
      vertexToBasicBlock := Function.update s.vertexToBasicBlock v (some b)
      greyVertices := grey
      used := s.used.insert v } : DfsState) u :=
    fun h => h.mono fun _ hu => HashSet.mem_insert.mpr (Or.inr hu)
  -- a slot is that of the vertex, or an old one
  have hcases : ∀ {u c}, Function.update s.vertexToBasicBlock v (some b) u = some c →
      (u = v ∧ c = b) ∨ (u ≠ v ∧ s.vertexToBasicBlock u = some c) := by
    intro u c hu
    by_cases huv : u = v
    · rw [huv, Function.update_self] at hu
      exact Or.inl ⟨huv, (Option.some.inj hu).symm⟩
    · rw [Function.update_of_ne huv] at hu
      exact Or.inr ⟨huv, hu⟩
  refine ⟨⟨fun u hu => ?_, fun u c hu => ?_, fun u c hu => ?_, fun u c hu => ?_,
    fun u c hu w hle hlt => ?_, fun c hc => ?_⟩,
    ⟨hinto.lt, hinto.start_le, fun u hle hlt => hmono (hinto.good u hle hlt)⟩, hv⟩
  · rcases HashSet.mem_insert.mp hu with rfl | hu
    · exact ⟨⟨i, hi, hoffset⟩, hkey⟩
    · exact hs.used u hu
  · rcases hcases hu with ⟨-, rfl⟩ | ⟨-, hu⟩
    · exact hinto.lt
    · exact hs.slot_lt u c hu
  · rcases hcases hu with ⟨rfl, rfl⟩ | ⟨-, hu⟩
    · exact hinto.start_le
    · exact hs.slot_start u c hu
  · rcases hcases hu with ⟨rfl, rfl⟩ | ⟨hne, hu⟩
    · exact Or.inl ⟨i, hi, hoffset ▸ hv, Or.inl hoffset.symm⟩
    · refine Or.inl (hmono ((hs.slot_good u c hu).resolve_right fun h => ?_))
      exact hne (Option.some.inj h).symm
  · rcases hcases hu with ⟨rfl, rfl⟩ | ⟨-, hu⟩
    · exact hmono (hinto.good w hle hlt)
    · exact hmono (hs.range_good u c hu w hle hlt)
  · exact Or.inl ((hs.final c hc).elim id fun h => Option.some.inj h ▸ ⟨i, hi, hoffset⟩)

/-! ### The walk -/

/-- What the walk keeps, if it returns. -/
def WalkKeeps (m : Method) (is : List RawInstr)
    (walk : ℕ → ℕ → DfsState → Except CfgError DfsState) : Prop :=
  ∀ b v s s', Starts m is s (some v) → GoesInto is s b v → IsStart is v ∨ v = m.bytecode.size →
    walk b v s = .ok s' → Starts m is s' none

section Walk

variable {walk : ℕ → ℕ → DfsState → Except CfgError DfsState}

theorem dealWithJump_starts (hvis : Visitable m is) (hwalk : WalkKeeps m is walk)
    (hs : Starts m is s none) (hv : IsStart is v ∨ v = m.bytecode.size)
    (hrun : m.dealWithJump walk b s v = .ok s') : Starts m is s' none := by
  obtain ⟨⟨c, s₁⟩, hnew, hrun⟩ := exists_of_bind_eq_ok hrun
  obtain ⟨s₂, hadd, hrun⟩ := exists_of_bind_eq_ok hrun
  obtain ⟨hs₁, hinto₁⟩ := makeNewBasicBlock_starts hvis hs hnew
  have hsame := addEdge_same hadd
  exact hwalk c v s₂ s' (hsame.starts hs₁) (hsame.goesInto hinto₁) hv hrun

/-- The transition out of an instruction. -/
theorem transfer_starts (hvis : Visitable m is) (hwalk : WalkKeeps m is walk)
    (hs : Starts m is s none) {i : RawInstr} (hi : i ∈ is) (hinto : GoesInto is s b i.offset)
    (hused : i.offset ∈ s.used) (hrun : m.transfer walk b i.offset s = .ok s') :
    Starts m is s' none := by
  have hown : ∀ c, Starts m is (s.setFinalOffset c i.offset) none :=
    fun c => hs.setFinalOffset (Or.inl ⟨i, hi, rfl⟩)
  have hnext := hvis.consecutive.next_isStart hi
  rw [Method.transfer] at hrun
  split at hrun
  · cases hrun
  · rename_i j hlookup
    obtain ⟨tr, htr, hrun⟩ := exists_of_bind_eq_ok hrun
    obtain rfl := Except.ok.inj ((hvis.transition i hi j hlookup).symm.trans htr)
    have htargets := hvis.targets i hi
    rw [RawInstr.transition] at hrun
    cases hctrl : opCtrl i.opcode with
    | ctrlReturn =>
        rw [hctrl] at hrun
        obtain rfl := Except.ok.inj hrun
        exact SameBlocks.starts (s := s.setFinalOffset b i.offset)
          ⟨rfl, rfl, rfl, fun _ => rfl, fun _ => rfl⟩ (hown b)
    | ctrlThrow =>
        rw [hctrl] at hrun
        obtain rfl := Except.ok.inj hrun
        exact hown b
    | ctrlBranch =>
        rw [hctrl] at hrun
        refine dealWithJump_starts hvis hwalk (hown b) (htargets _ ?_) hrun
        rw [RawInstr.targets, hctrl]
        exact List.mem_singleton_self _
    | ctrlCondBranch =>
        rw [hctrl] at hrun
        refine foldlM_invariant (fun _ t => Starts m is t none) ?_ (hown b) hrun
        rintro pre t post s₁ s₂ hsplit hs₁ hstep
        have ht : t ∈ HashSet.ofList (i.next :: i.targets) := by
          show t ∈ (HashSet.ofList (i.next :: i.targets)).elems
          rw [hsplit]
          exact List.mem_append_right pre List.mem_cons_self
        refine dealWithJump_starts hvis hwalk hs₁ ?_ hstep
        rcases List.mem_cons.mp (HashSet.mem_ofList.mp ht) with rfl | ht
        · exact hnext
        · exact htargets t ht
    | ctrlNext | ctrlCall | ctrlBreak | ctrlMeta =>
        rw [hctrl] at hrun
        dsimp only at hrun
        split at hrun
        · obtain ⟨opCode', -, hrun⟩ := exists_of_bind_eq_ok hrun
          split at hrun
          · cases hrun
          · exact dealWithJump_starts hvis hwalk (hown b) hnext hrun
        · -- the walk goes on in the block
          have hswitch : i.opcode ≠ ceeSwitch := by
            intro h
            rw [h] at hctrl
            cases hctrl
          refine hwalk b i.next _ s' ((hs.weaken _).setFinalOffset (Or.inr rfl)) ?_ hnext hrun
          refine GoesInto.setFinalOffset ⟨hinto.lt, hinto.start_le.trans (le_of_lt i.offset_lt_next),
            fun u hle hlt => ?_⟩ i.next
          rcases Nat.lt_trichotomy u i.offset with h | h | h
          · exact hinto.good u hle h
          · exact ⟨i, hi, hused, Or.inl h⟩
          · exact ⟨i, hi, hused, Or.inr ⟨h, hlt, hswitch⟩⟩

end Walk

/-- **The walk** keeps the invariant, if it returns. -/
theorem dfs'_starts (hvis : Visitable m is) (fuel : ℕ) : WalkKeeps m is (m.dfs' fuel) := by
  induction fuel with
  | zero => exact fun _ _ _ _ _ _ _ hrun => nomatch hrun
  | succ fuel ih =>
      intro b v s s' hs hinto hv hrun
      rw [Method.dfs'] at hrun
      split at hrun
      · exact revisit_starts hvis hs ‹_› hrun
      · obtain ⟨s₁, henter, hrun⟩ := exists_of_bind_eq_ok hrun
        obtain ⟨s₂, htransfer, hleave⟩ := exists_of_bind_eq_ok hrun
        -- only an instruction can be looked up
        have hkey : v ∈ m.offsetToInstr.keys := by
          by_contra hnot
          have hnone : m.offsetToInstr.lookup v = none :=
            Option.eq_none_iff_forall_not_mem.mpr fun j hj =>
              hnot (Dictionary.mem_keys_iff.mpr ⟨j, hj⟩)
          rw [Method.transfer, hnone] at htransfer
          cases htransfer
        obtain ⟨i, hi, rfl⟩ := hv.resolve_right fun h => by
          have hlt := hvis.key_lt v hkey
          omega
        obtain ⟨hs₁, hinto₁, hused₁⟩ := enter_starts hs hinto hi rfl hkey henter
        exact (DfsState.leave_same hleave).starts
          (transfer_starts hvis ih hs₁ hi hinto₁ hused₁ htransfer)

/-! ### The graph -/

theorem Starts.init : Starts m is .init none := by
  constructor <;> simp [DfsState.init]

/-- **Every block ends at the start of an instruction.**  On a valid body of assigned opcodes, if the
construction returns. -/
theorem Method.final_isStart (hvalid : ValidBody body is) (hassigned : ∀ i ∈ is, Assigned i.opcode)
    (hm : Method.ofBody body resolves = .ok m) {fuel : ℕ} {cfg : CfgInfo}
    (hcfg : m.cfgInfo fuel = .ok cfg) :
    ∀ b ∈ cfg.sortedBasicBlocks, IsStart is (cfg.basicBlocks b).finalOffset := by
  have hvis := Method.visitable hm hvalid hassigned
  obtain ⟨s, hwalks, hrun⟩ := exists_of_bind_eq_ok hcfg
  obtain ⟨sizes, -, hrun⟩ := exists_of_bind_eq_ok hrun
  obtain rfl := Except.ok.inj hrun
  rw [Method.startVertices_eq hvalid hm] at hwalks
  have hs : Starts m is s none := by
    refine foldlM_invariant (fun _ s => Starts m is s none) ?_ Starts.init hwalks
    intro pre v post s₁ s₂ hsplit hs₁ hstep
    have hv : v ∈ entryOffsets body.eh := by
      rw [hsplit]
      exact List.mem_append_right pre List.mem_cons_self
    obtain ⟨⟨b, s₃⟩, hnew, hwalk⟩ := exists_of_bind_eq_ok hstep
    obtain ⟨hs₃, hinto₃⟩ := makeNewBasicBlock_starts hvis hs₁ hnew
    exact dfs'_starts hvis fuel b v s₃ s₂ hs₃ hinto₃
      (Or.inl (hvalid.isStart_of_reachable (Reachable.entry hv))) hwalk
  intro b hb
  have hlt : b < s.basicBlocksCount := by
    rw [← List.mem_range]
    exact (List.perm_insertionSort _ _).mem_iff.mp hb
  exact (hs.final b hlt).resolve_right (Option.some_ne_none _).symm

end TestExecutor
