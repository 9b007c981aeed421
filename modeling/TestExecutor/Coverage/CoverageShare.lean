import TestExecutor.Coverage.CoveredBlocks
import TestExecutor.Profiler.CoverageTracker

/-!
# The share that is covered

The result of the coverage tool: a percentage that is computed in double precision, and a text.

* `abs_share_sub` — two roundings change the share by less than one part in `2 ^ 51`;
* `percentage_eq_hundred_iff`, `percentage_eq`, `percentage_mono` — the percentage against the exact
  share;
* `getCoverageInfo_spec` — the text says that all blocks are covered iff they are;
* `CfgExact.computeCoverage_eq`, `computeCoverage_spec` — the result on an exact graph;
* `computeCoverage_mono` — more locations never lower the percentage.
-/

namespace TestExecutor

open TestExecutor.Library InteractionCoverageTool

/-! ### The percentage -/

section Percentage

variable {c n : ℕ}

/-- The share of `c` in `n`, in percent and in double precision. -/
def share (c n : ℕ) : ℚ := roundDouble (roundDouble (c / n) * 100)

/-- Two roundings change the share only a little. -/
theorem abs_share_sub (hc : 0 < c) (hle : c ≤ n) :
    |share c n - c / n * 100| ≤ c / n * 100 / 2 ^ 51 := by
  have hn : (0 : ℚ) < n := by exact_mod_cast hc.trans_le hle
  have hq : (0 : ℚ) < c / n := div_pos (by exact_mod_cast hc) hn
  obtain ⟨q, hqdef⟩ : ∃ q : ℚ, q = c / n := ⟨_, rfl⟩
  rw [share, ← hqdef]
  rw [← hqdef] at hq
  have hfirst := abs_roundDouble_sub q (ne_of_gt hq)
  rw [abs_of_pos hq, abs_le] at hfirst
  have hrounded : 0 < roundDouble q := by
    have hsmall : q / 2 ^ 53 < q := div_lt_self hq (by norm_num)
    linarith [hfirst.1]
  have hsecond := abs_roundDouble_sub (roundDouble q * 100) (by positivity)
  rw [abs_of_pos (by positivity : 0 < roundDouble q * 100), abs_le] at hsecond
  rw [abs_le]
  have hlast : (roundDouble q * 100) / 2 ^ 53 ≤ q * 100 / 2 ^ 52 := by
    rw [div_le_div_iff₀ (by norm_num) (by norm_num)]
    linarith [hfirst.2]
  constructor <;> linarith [hfirst.1, hfirst.2, hsecond.1, hsecond.2]

theorem share_zero (n : ℕ) : share 0 n = 0 := by
  simp [share, roundDouble, roundEven]

theorem share_self (hn : 0 < n) : share n n = 100 := by
  have hone : roundDouble ((n : ℚ) / n) = 1 := by
    rw [div_self (by exact_mod_cast ne_of_gt hn)]
    exact_mod_cast roundDouble_natCast (n := 1) (by norm_num)
  rw [share, hone, one_mul]
  exact_mod_cast roundDouble_natCast (n := 100) (by norm_num)

/-- The share of a part is below 100, by more than the roundings change. -/
theorem share_lt (hlt : c < n) (hn : n < 2 ^ 31) : share c n < 100 := by
  rcases Nat.eq_zero_or_pos c with rfl | hc
  · rw [share_zero]
    norm_num
  · have hn' : (0 : ℚ) < n := by exact_mod_cast hc.trans hlt
    have herror := (abs_le.mp (abs_share_sub hc (le_of_lt hlt))).2
    have hpart : (c : ℚ) / n ≤ 1 - 1 / 2 ^ 31 := by
      have hlast : (1 : ℚ) / 2 ^ 31 ≤ 1 / n := by
        rw [div_le_div_iff₀ (by norm_num) hn']
        exact_mod_cast (by omega : 1 * n ≤ 1 * 2 ^ 31)
      have hle : (c : ℚ) ≤ n - 1 := by
        have : c + 1 ≤ n := hlt
        have : (c : ℚ) + 1 ≤ n := by exact_mod_cast this
        linarith
      have hsplit : (c : ℚ) / n ≤ 1 - 1 / n := by
        rw [le_sub_iff_add_le, ← add_div, div_le_one hn']
        linarith
      linarith
    have hsmall : (c : ℚ) / n * 100 / 2 ^ 51 ≤ 100 / 2 ^ 51 := by
      rw [div_le_div_iff_of_pos_right (by norm_num)]
      linarith
    norm_num at hpart hsmall
    linarith

theorem share_bounds (hle : c ≤ n) (hpos : 0 < n) (hn : n < 2 ^ 31) :
    0 ≤ share c n ∧ share c n ≤ 100 := by
  rcases Nat.eq_zero_or_pos c with rfl | hc
  · rw [share_zero]
    norm_num
  · have hq : (0 : ℚ) ≤ c / n * 100 := by positivity
    have herror := (abs_le.mp (abs_share_sub hc hle)).1
    have hsmall : (c : ℚ) / n * 100 / 2 ^ 51 ≤ c / n * 100 := div_le_self hq (by norm_num)
    refine ⟨by linarith, ?_⟩
    rcases Nat.lt_or_eq_of_le hle with hlt | rfl
    · exact le_of_lt (share_lt hlt hn)
    · exact le_of_eq (share_self hpos)

theorem percentage_toInt (hle : c ≤ n) (hpos : 0 < n) (hn : n < 2 ^ 31) :
    (percentage c n).toInt = ⌊share c n⌋ := by
  obtain ⟨hlower, hupper⟩ := share_bounds hle hpos hn
  have hnonneg : 0 ≤ ⌊share c n⌋ := Int.floor_nonneg.mpr hlower
  have hsmall : ⌊share c n⌋ ≤ 100 := by
    have : (⌊share c n⌋ : ℚ) ≤ 100 := (Int.floor_le _).trans hupper
    exact_mod_cast this
  change (Int32.ofInt ⌊share c n⌋).toInt = _
  exact Int32.toInt_ofInt_of_le (by norm_num; omega) (by norm_num; omega)

/-- **The percentage is 100 exactly when everything is covered.** -/
theorem percentage_eq_hundred_iff (hle : c ≤ n) (hpos : 0 < n) (hn : n < 2 ^ 31) :
    percentage c n = 100 ↔ c = n := by
  rw [← Int32.toInt_inj, percentage_toInt hle hpos hn]
  constructor
  · intro hfloor
    by_contra hne
    have hlt := share_lt (lt_of_le_of_ne hle hne) hn
    have hfloor' : ((100 : ℤ) : ℚ) ≤ share c n := Int.le_floor.mp (ge_of_eq hfloor)
    norm_num at hfloor'
    linarith
  · rintro rfl
    rw [share_self hpos]
    exact Int.floor_natCast 100

theorem floor_share (hle : c ≤ n) (hpos : 0 < n) (hn : n < 2 ^ 31) :
    ⌊share c n⌋ = (100 * c / n : ℕ)
      ∨ (n ∣ 100 * c ∧ ⌊share c n⌋ + 1 = (100 * c / n : ℕ)) := by
  rcases Nat.eq_zero_or_pos c with rfl | hc
  · left
    rw [share_zero]
    simp
  · have hn' : (0 : ℚ) < n := by exact_mod_cast hpos
    have hbig : (1 : ℚ) / 2 ^ 31 < 1 / n := by
      rw [div_lt_div_iff₀ (by norm_num) hn']
      exact_mod_cast (by omega : 1 * n < 1 * 2 ^ 31)
    have herror := abs_le.mp (abs_share_sub hc hle)
    have hone : (c : ℚ) / n ≤ 1 := (div_le_one hn').mpr (by exact_mod_cast hle)
    have hsmall : (c : ℚ) / n * 100 / 2 ^ 51 ≤ 100 / 2 ^ 51 := by
      rw [div_le_div_iff_of_pos_right (by norm_num)]
      linarith
    obtain ⟨k, hk⟩ : ∃ k, k = 100 * c / n := ⟨_, rfl⟩
    obtain ⟨r, hr⟩ : ∃ r, r = 100 * c % n := ⟨_, rfl⟩
    have hdiv : n * k + r = 100 * c := hk ▸ hr ▸ Nat.div_add_mod (100 * c) n
    have hrlt : r < n := hr ▸ Nat.mod_lt _ hpos
    -- the exact share, cut into its integer and its fractional part
    have hshare : (c : ℚ) / n * 100 = k + r / n := by
      have hcast : (n : ℚ) * k + r = 100 * c := by exact_mod_cast hdiv
      field_simp
      linarith
    rw [← hk]
    rcases Nat.eq_zero_or_pos r with hzero | hrest
    · rw [hzero, Nat.cast_zero, zero_div, add_zero] at hshare
      rcases le_or_gt (k : ℚ) (share c n) with hge | hlt
      · left
        rw [Int.floor_eq_iff]
        push_cast
        norm_num at hsmall
        exact ⟨hge, by linarith⟩
      · right
        refine ⟨Nat.dvd_of_mod_eq_zero (hr ▸ hzero), ?_⟩
        have hfloor : ⌊share c n⌋ = (k : ℤ) - 1 := by
          rw [Int.floor_eq_iff]
          push_cast
          norm_num at hsmall
          exact ⟨by linarith, by linarith⟩
        rw [hfloor]
        ring
    · left
      have hlower : (1 : ℚ) / n ≤ r / n :=
        div_le_div_of_nonneg_right (by exact_mod_cast hrest) (le_of_lt hn')
      have hupper : (r : ℚ) / n ≤ 1 - 1 / n := by
        rw [le_sub_iff_add_le, ← add_div, div_le_one hn']
        exact_mod_cast hrlt
      have hless : (c : ℚ) / n * 100 / 2 ^ 51 < 1 / n :=
        lt_of_le_of_lt hsmall (lt_trans (by norm_num) hbig)
      rw [Int.floor_eq_iff]
      push_cast
      exact ⟨by linarith, by linarith⟩

/-- **The percentage is the exact one, rounded down**, or one less when the exact one is an
integer. -/
theorem percentage_eq (hle : c ≤ n) (hpos : 0 < n) (hn : n < 2 ^ 31) :
    (percentage c n).toInt = (100 * c / n : ℕ)
      ∨ (n ∣ 100 * c ∧ (percentage c n).toInt + 1 = (100 * c / n : ℕ)) := by
  rw [percentage_toInt hle hpos hn]
  exact floor_share hle hpos hn

/-- 29 of 50 are 58 percent, and the result is 57: the first rounding has lost a little. -/
theorem percentage_eq_of_fifty : percentage 29 50 = 57
    ∧ ((percentage 29 50).toInt = (100 * 29 / 50 : ℕ)
      ∨ (50 ∣ 100 * 29 ∧ (percentage 29 50).toInt + 1 = (100 * 29 / 50 : ℕ))) := by
  refine ⟨?_, percentage_eq (by decide) (by decide) (by decide)⟩
  have hfirst : roundDouble ((29 : ℕ) / (50 : ℕ)) = 5224175567749775 / 2 ^ 53 := by
    have hlog : Int.log 2 |((29 : ℕ) / (50 : ℕ) : ℚ)| = -1 := by
      rw [abs_of_pos (by norm_num)]
      exact log_two_eq (by norm_num) (by norm_num)
    rw [roundDouble, lastPlace, hlog, roundEven]
    norm_num
  have hsecond : roundDouble (5224175567749775 / 2 ^ 53 * 100) = 8162774324609023 / 2 ^ 47 := by
    have hlog : Int.log 2 |(5224175567749775 / 2 ^ 53 * 100 : ℚ)| = 5 := by
      rw [abs_of_pos (by norm_num)]
      exact log_two_eq (by norm_num) (by norm_num)
    rw [roundDouble, lastPlace, hlog, roundEven]
    norm_num
  rw [percentage, hfirst, hsecond]
  norm_num
  rfl

/-- The roundings keep the order. -/
theorem percentage_mono {c' : ℕ} (hcc : c ≤ c') (hle : c' ≤ n) (hpos : 0 < n) (hn : n < 2 ^ 31) :
    percentage c n ≤ percentage c' n := by
  rw [Int32.le_iff_toInt_le, percentage_toInt (hcc.trans hle) hpos hn, percentage_toInt hle hpos hn]
  rcases Nat.eq_or_lt_of_le hcc with rfl | hlt
  · exact le_refl _
  · have hquotient : 100 * c / n ≤ 100 * c' / n := Nat.div_le_div_right (by omega)
    have hfirst : ⌊share c n⌋ ≤ (100 * c / n : ℕ) := by
      rcases floor_share (hcc.trans hle) hpos hn with h | ⟨-, h⟩ <;> omega
    rcases floor_share hle hpos hn with h | ⟨⟨k, hk⟩, h⟩
    · omega
    · -- an exact percentage is greater than those of all smaller parts
      have hexact : 100 * c' / n = k := by rw [hk, Nat.mul_div_cancel_left k hpos]
      have hless : 100 * c / n < k := (Nat.div_lt_iff_lt_mul hpos).mpr (by rw [mul_comm k]; omega)
      omega

end Percentage

/-! ### The text -/

section Text

variable {m : Method} {eh : List EhInfo} {is : List RawInstr} {cfg : CfgInfo}
  (newLine : String) (opCodeName : ℕ → String)

/-- The lines about a block that was not covered. -/
def uncoveredLines (m : Method) (newLine : String) (opCodeName : ℕ → String) (block : BasicBlock) :
    String :=
  "Block [0x" ++ hexadecimal block.startOffset ++ " .. 0x" ++ hexadecimal block.finalOffset
    ++ "] not covered" ++ newLine
    ++ String.join ((m.instructions.filter fun j => block.startOffset ≤ j.offset
      ∧ j.offset ≤ block.finalOffset).map fun inst => opCodeName inst.opcode ++ newLine)

/-- The lines about all blocks of a list that were not covered, in their order. -/
def uncoveredInfo (m : Method) (cfg : CfgInfo) (newLine : String) (opCodeName : ℕ → String)
    (visited : HashSet ℕ) (blocks : List ℕ) : String :=
  String.join ((blocks.filter fun b => b ∉ visited).map fun b =>
    uncoveredLines m newLine opCodeName (cfg.basicBlocks b))

theorem CfgExact.blockInfo_eq (h : CfgExact m eh is cfg) {b : ℕ} (hb : b ∈ cfg.sortedBasicBlocks) :
    blockInfo m newLine opCodeName (cfg.basicBlocks b)
      = .ok (uncoveredLines m newLine opCodeName (cfg.basicBlocks b)) := by
  rw [blockInfo, h.contiguous b hb]
  rfl

/-- **The text**: the blocks that were not covered, or that there are none. -/
theorem CfgExact.getCoverageInfo_spec (h : CfgExact m eh is cfg) (visited : HashSet ℕ) :
    getCoverageInfo cfg m newLine opCodeName cfg.sortedBasicBlocks visited
      = .ok (if ∀ b ∈ cfg.sortedBasicBlocks, b ∈ visited then "All blocks are covered" ++ newLine
        else uncoveredInfo m cfg newLine opCodeName visited cfg.sortedBasicBlocks) := by
  have hloop : ∃ sb, cfg.sortedBasicBlocks.foldlM
      (addBlockInfo cfg m newLine opCodeName visited) ("", true) = .ok sb
      ∧ sb.1 = uncoveredInfo m cfg newLine opCodeName visited cfg.sortedBasicBlocks
      ∧ (sb.2 = true ↔ ∀ b ∈ cfg.sortedBasicBlocks, b ∈ visited) := by
    refine exists_foldlM (fun (seen : List ℕ) (sb : String × Bool) =>
      sb.1 = uncoveredInfo m cfg newLine opCodeName visited seen
        ∧ (sb.2 = true ↔ ∀ b ∈ seen, b ∈ visited)) ?_ ⟨rfl, by simp⟩
    intro pre b post sb hblocks hsb
    have hb : b ∈ cfg.sortedBasicBlocks := hblocks ▸ List.mem_append_right pre List.mem_cons_self
    have hall : (∀ c ∈ pre ++ [b], c ∈ visited) ↔ (∀ c ∈ pre, c ∈ visited) ∧ b ∈ visited := by
      simp [List.mem_append, or_imp, forall_and]
    rw [addBlockInfo, hall, ← hsb.2]
    have hinfo : uncoveredInfo m cfg newLine opCodeName visited (pre ++ [b])
        = sb.1 ++ uncoveredInfo m cfg newLine opCodeName visited [b] := by
      rw [hsb.1, uncoveredInfo, List.filter_append, List.map_append, String.join_append]
      rfl
    rw [hinfo]
    split
    · rename_i hnot
      rw [h.blockInfo_eq newLine opCodeName hb]
      refine ⟨_, rfl, ?_, ?_⟩
      · rw [uncoveredInfo, List.filter_cons_of_pos (by simpa using hnot), List.filter_nil,
          List.map_singleton, String.join_cons, String.join_nil, String.append_empty]
      · simp [hnot]
    · rename_i hvisited
      have hvisited := not_not.mp hvisited
      refine ⟨sb, rfl, ?_, ?_⟩
      · rw [uncoveredInfo, List.filter_cons_of_neg (by simpa using hvisited), List.filter_nil,
          List.map_nil, String.join_nil, String.append_empty]
      · simp [hvisited]
  obtain ⟨sb, hrun, htext, hcovered⟩ := hloop
  rw [getCoverageInfo, hrun]
  change Except.ok (if sb.2 = true then sb.1 ++ ("All blocks are covered" ++ newLine) else sb.1) = _
  by_cases hall : ∀ b ∈ cfg.sortedBasicBlocks, b ∈ visited
  · have hnone : cfg.sortedBasicBlocks.filter (fun b => b ∉ visited) = [] :=
      List.filter_eq_nil_iff.mpr fun b hb => by simpa using hall b hb
    rw [if_pos hall, if_pos (hcovered.mpr hall), htext, uncoveredInfo, hnone, List.map_nil,
      String.join_nil, String.empty_append]
  · rw [if_neg hall, if_neg fun htrue => hall (hcovered.mp htrue), htext]

/-- The text about blocks that are not covered does not say that all are. -/
theorem uncoveredInfo_ne {visited : HashSet ℕ} {blocks : List ℕ} {b : ℕ} (hb : b ∈ blocks)
    (hnot : b ∉ visited) : uncoveredInfo m cfg newLine opCodeName visited blocks
      ≠ "All blocks are covered" ++ newLine := by
  intro heq
  obtain ⟨c, cs, hcs⟩ : ∃ c cs, blocks.filter (fun b => b ∉ visited) = c :: cs :=
    List.exists_cons_of_ne_nil (List.ne_nil_of_mem (List.mem_filter.mpr ⟨hb, by simpa using hnot⟩))
  have hhead := congrArg (fun s => s.toList.head?) heq
  rw [uncoveredInfo, hcs, List.map_cons, String.join_cons, uncoveredLines] at hhead
  simp at hhead

end Text

/-! ### The result -/

section Result

variable {body : MethodBody} {is : List RawInstr} {m : Method} {cfg : CfgInfo}

/-- The offsets of instructions that lie in one of some blocks. -/
def coveredOffsets (body : MethodBody) (is : List RawInstr) (cfg : CfgInfo) (bs : List ℕ) : Set ℕ :=
  {o | Reachable body.eh is o ∧ ∃ b ∈ bs, (cfg.basicBlocks b).startOffset ≤ o
    ∧ o ≤ (cfg.basicBlocks b).finalOffset}

theorem ValidBody.reachable_subset (hvalid : ValidBody body is) :
    {o | Reachable body.eh is o} ⊆ ↑(Finset.range body.code.size) := by
  intro o ho
  obtain ⟨i, hi, rfl⟩ := hvalid.isStart_of_reachable ho
  exact Finset.mem_coe.mpr (Finset.mem_range.mpr
    (lt_of_lt_of_le i.offset_lt_next (hvalid.consecutive.bounds hi).2))

theorem ValidBody.reachable_finite (hvalid : ValidBody body is) :
    {o | Reachable body.eh is o}.Finite := (Finset.finite_toSet _).subset hvalid.reachable_subset

/-- A method has an instruction, and fewer than `2 ^ 31`. -/
theorem ValidBody.reachable_ncard (hvalid : ValidBody body is) :
    0 < {o | Reachable body.eh is o}.ncard ∧ {o | Reachable body.eh is o}.ncard < 2 ^ 31 := by
  constructor
  · exact (Set.ncard_pos hvalid.reachable_finite).mpr ⟨0, Reachable.entry List.mem_cons_self⟩
  · have hle := Set.ncard_le_ncard hvalid.reachable_subset (Finset.finite_toSet _)
    rw [Set.ncard_coe_finset, Finset.card_range] at hle
    exact lt_of_le_of_lt hle body.code.length_lt

/-- All is covered exactly when every block is. -/
theorem CfgExact.coveredOffsets_ncard_eq_iff (h : CfgExact m body.eh is cfg)
    (hvalid : ValidBody body is) {bs : List ℕ} (hbs : ∀ b ∈ bs, b ∈ cfg.sortedBasicBlocks) :
    (coveredOffsets body is cfg bs).ncard = {o | Reachable body.eh is o}.ncard
      ↔ ∀ b ∈ cfg.sortedBasicBlocks, b ∈ bs := by
  constructor
  · intro hcard b hb
    have heq : coveredOffsets body is cfg bs = {o | Reachable body.eh is o} :=
      Set.eq_of_subset_of_ncard_le (fun o ho => ho.1) (ge_of_eq hcard) hvalid.reachable_finite
    obtain ⟨⟨i, hi, hstart⟩, -, hle⟩ := h.bounds b hb
    have hreach := (h.inside b hb i hi (ge_of_eq hstart) (hstart ▸ hle)).1
    have hcovered : i.offset ∈ coveredOffsets body is cfg bs := heq ▸ hreach
    obtain ⟨-, c, hc, hco⟩ := hcovered
    rw [h.eq_of_overlap hb (hbs c hc) ⟨i, hi, rfl⟩ ⟨ge_of_eq hstart, hstart ▸ hle⟩ hco]
    exact hc
  · intro hall
    refine congrArg Set.ncard (Set.ext fun o => and_iff_left_of_imp fun hreach => ?_)
    obtain ⟨b, ⟨hb, hbo⟩, -⟩ := h.covers o hreach
    exact ⟨b, hall b hb, hbo⟩

/-- An array passes through `GetRawHistory` as it is. -/
theorem getRawHistory_eq (data : NetBytes) : getRawHistory true data.bytes = .ok data := by
  have hlength := data.length_lt
  have hnonneg : ¬Int32.ofNat data.bytes.length < 0 := by
    rw [Int32.lt_iff_toInt_lt, Int32.toInt_ofNat_of_lt hlength, Int32.toInt_zero]
    omega
  have htake : data.bytes.take (Int32.ofNat data.bytes.length).toNatClampNeg = data.bytes := by
    rw [Int32.toNatClampNeg_ofNat_of_lt hlength, List.take_length]
  rw [getRawHistory, if_neg (by simp)]
  simp only [hnonneg, if_false, htake]

/-- The percentage and the text, from the blocks that were found. -/
theorem CfgExact.computeCoverage_eq (h : CfgExact m body.eh is cfg) (hvalid : ValidBody body is)
    (hcons : Consecutive 0 is m.bytecode.size) (hstarts : SameStarts m is) {fuel : ℕ}
    (hrun : m.cfgInfo fuel = .ok cfg) (newLine : String) (opCodeName : ℕ → String) {token : Int32}
    {moduleName : List UInt16} {data : NetBytes} {rawReports : RawCoverageReports} {p : Int32}
    {visited : List CoverageReport} {blocks : HashSet ℕ}
    (hraw : getRawReports data = .ok (rawReports, p))
    (hreports : reportsFromRawReports rawReports = .ok visited)
    (hblocks : visitedBlocksOf cfg token moduleName visited = .ok blocks)
    (hsub : ∀ b ∈ blocks.elems, b ∈ cfg.sortedBasicBlocks) :
    ∃ (percent : Int32) (info : String),
      computeCoverage cfg m newLine opCodeName true data.bytes token moduleName = .ok (percent, info)
      ∧ percent = percentage (coveredOffsets body is cfg blocks.elems).ncard
        {o | Reachable body.eh is o}.ncard
      ∧ (percent = 100 ↔ ∀ b ∈ cfg.sortedBasicBlocks, b ∈ blocks)
      ∧ (info = "All blocks are covered" ++ newLine ↔ ∀ b ∈ cfg.sortedBasicBlocks, b ∈ blocks) := by
  have hsizes := mapM_eq_ok fun b hb => h.blockSize_eq hcons hstarts (hsub b hb)
  obtain ⟨hpos, hlt⟩ := hvalid.reachable_ncard
  have hle : (coveredOffsets body is cfg blocks.elems).ncard ≤ {o | Reachable body.eh is o}.ncard :=
    Set.ncard_le_ncard (fun o ho => ho.1) hvalid.reachable_finite
  refine ⟨percentage (coveredOffsets body is cfg blocks.elems).ncard
      {o | Reachable body.eh is o}.ncard,
    if ∀ b ∈ cfg.sortedBasicBlocks, b ∈ blocks then "All blocks are covered" ++ newLine
      else uncoveredInfo m cfg newLine opCodeName blocks cfg.sortedBasicBlocks,
    ?_, rfl, ?_, ?_⟩
  · rw [computeCoverage, getRawHistory_eq]
    simp only [bind, Except.bind, hraw, hreports, hblocks, hsizes, ToolError.lift,
      h.getCoverageInfo_spec newLine opCodeName blocks]
    rw [h.methodSize_eq hvalid hstarts hcons hrun, h.coveredSize_eq hvalid hsub blocks.nodup]
    rfl
  · rw [percentage_eq_hundred_iff hle hpos hlt, h.coveredOffsets_ncard_eq_iff hvalid hsub]
    rfl
  · split
    · rename_i hall
      exact iff_of_true rfl hall
    · rename_i hnot
      refine iff_of_false ?_ hnot
      simp only [not_forall] at hnot
      obtain ⟨b, hb, hb'⟩ := hnot
      exact uncoveredInfo_ne newLine opCodeName hb hb'

/-- **The result of the coverage tool** on an exact graph: the blocks at whose end there is a location
of the method are counted, the percentage is that of their instructions among those that control can
reach, and it is 100 exactly when every block is counted, as the text says. -/
theorem computeCoverage_spec {resolves : ℕ → Bool} (hvalid : ValidBody body is)
    (hm : Method.ofBody body resolves = .ok m) (hstarts : SameStarts m is)
    (hplain : ∀ i ∈ is, i.opcode ≠ ceeTailcall ∧ i.opcode ≠ ceeJmp)
    (hresolves : ∀ i ∈ is, i.IsDemandingCall → resolves i.operand = true) {fuel : ℕ}
    (hrun : m.cfgInfo fuel = .ok cfg) (hcount : cfg.sortedBasicBlocks.length ≤ 2 ^ 30 + 1)
    (newLine : String) (opCodeName : ℕ → String) (token : Int32) (moduleName : List UInt16)
    {data : NetBytes} {rawReports : RawCoverageReports} {p : Int32} {visited : List CoverageReport}
    (hraw : getRawReports data = .ok (rawReports, p))
    (hreports : reportsFromRawReports rawReports = .ok visited) :
    ∃ (blocks : HashSet ℕ) (percent : Int32) (info : String),
      computeCoverage cfg m newLine opCodeName true data.bytes token moduleName = .ok (percent, info)
      ∧ (∀ b, b ∈ blocks ↔ b ∈ cfg.sortedBasicBlocks
        ∧ ∃ report ∈ visited, ∃ loc ∈ report.coverageLocations, cfg.Hits token moduleName loc b)
      ∧ percent = percentage (coveredOffsets body is cfg blocks.elems).ncard
        {o | Reachable body.eh is o}.ncard
      ∧ (percent = 100 ↔ ∀ b ∈ cfg.sortedBasicBlocks, b ∈ blocks)
      ∧ (info = "All blocks are covered" ++ newLine ↔ ∀ b ∈ cfg.sortedBasicBlocks, b ∈ blocks) := by
  have hcons := (Method.walkable hvalid hm hstarts hplain hresolves).consecutive
  have h := Method.cfgExact hvalid hm hstarts hplain hresolves hrun
  obtain ⟨blocks, hblocks, hmem⟩ := h.visitedBlocksOf_spec hcount token moduleName visited
  obtain ⟨percent, info, hresult, hrest⟩ := h.computeCoverage_eq hvalid hcons hstarts hrun newLine
    opCodeName hraw hreports hblocks fun b hb => ((hmem b).mp hb).1
  exact ⟨blocks, percent, info, hresult, hmem, hrest⟩

/-- A report of one record, at the branch of the loop. -/
def loopReport : NetBytes where
  bytes := ProfilerState.serializeMethods [(0, ⟨0x06000001, 3, [65, 65, 0], 3, [66, 66, 0], rfl, rfl⟩)]
    ++ ProfilerState.serializeBuffers [reportBuffer 0 (some ⟨[⟨2, .branchHit, 1, 0⟩], {0}⟩)]
  length_lt := by decide +kernel

theorem loopReport_read : ∃ r, getRawReports loopReport = .ok r ∧ reportsFromRawReports r.1
    = .ok [⟨0, [⟨[65, 65], [66, 66], 0x06000001, 2⟩]⟩] := by
  have hread : (getRawReports loopReport).toOption.bind
      (fun r => (reportsFromRawReports r.1).toOption)
        = some [⟨0, [⟨[65, 65], [66, 66], 0x06000001, 2⟩]⟩] := by
    decide +kernel
  obtain ⟨r, hraw, hreports⟩ := Option.bind_eq_some_iff.mp hread
  exact ⟨r, eq_ok_of_toOption hraw, eq_ok_of_toOption hreports⟩

/-- The block of the loop is covered, and the others are not. -/
theorem computeCoverage_spec_loop : ∃ m cfg blocks percent info,
    Method.ofBody loopBody (fun _ => true) = .ok m ∧ m.cfgInfo 5 = .ok cfg
      ∧ computeCoverage cfg m "\n" toString true loopReport.bytes 0x06000001 [66, 66]
        = .ok (percent, info)
      ∧ (percent = 100 ↔ ∀ b ∈ cfg.sortedBasicBlocks, b ∈ (blocks : HashSet ℕ)) := by
  obtain ⟨m, cfg, hm, hstarts, hrun, hlength⟩ := loopBody_cfgInfo
  obtain ⟨r, hraw, hreports⟩ := loopReport_read
  obtain ⟨blocks, percent, info, hresult, -, -, hall, -⟩ :=
    computeCoverage_spec loopBody_valid hm hstarts (by decide) (by decide) hrun
      (by rw [hlength]; decide) "\n" toString 0x06000001 [66, 66] hraw hreports
  exact ⟨m, cfg, blocks, percent, info, hm, hrun, hresult, hall⟩

/-- **More locations never lower the percentage**, in however many reports they come, in which order
and how often. -/
theorem computeCoverage_mono {resolves : ℕ → Bool} (hvalid : ValidBody body is)
    (hm : Method.ofBody body resolves = .ok m) (hstarts : SameStarts m is)
    (hplain : ∀ i ∈ is, i.opcode ≠ ceeTailcall ∧ i.opcode ≠ ceeJmp)
    (hresolves : ∀ i ∈ is, i.IsDemandingCall → resolves i.operand = true) {fuel : ℕ}
    (hrun : m.cfgInfo fuel = .ok cfg) (hcount : cfg.sortedBasicBlocks.length ≤ 2 ^ 30 + 1)
    (newLine : String) (opCodeName : ℕ → String) (token : Int32) (moduleName : List UInt16)
    {data data' : NetBytes} {rawReports rawReports' : RawCoverageReports} {p p' : Int32}
    {visited visited' : List CoverageReport} (hraw : getRawReports data = .ok (rawReports, p))
    (hraw' : getRawReports data' = .ok (rawReports', p'))
    (hreports : reportsFromRawReports rawReports = .ok visited)
    (hreports' : reportsFromRawReports rawReports' = .ok visited')
    (hsub : ∀ report ∈ visited, ∀ loc ∈ report.coverageLocations,
      ∃ report' ∈ visited', loc ∈ report'.coverageLocations) :
    ∃ (percent percent' : Int32) (info info' : String),
      computeCoverage cfg m newLine opCodeName true data.bytes token moduleName = .ok (percent, info)
      ∧ computeCoverage cfg m newLine opCodeName true data'.bytes token moduleName
        = .ok (percent', info')
      ∧ percent ≤ percent' := by
  have hcons := (Method.walkable hvalid hm hstarts hplain hresolves).consecutive
  have h := Method.cfgExact hvalid hm hstarts hplain hresolves hrun
  obtain ⟨blocks, hblocks, hmem⟩ := h.visitedBlocksOf_spec hcount token moduleName visited
  obtain ⟨blocks', hblocks', hmem'⟩ := h.visitedBlocksOf_spec hcount token moduleName visited'
  obtain ⟨percent, info, hresult, hpercent, -⟩ := h.computeCoverage_eq hvalid hcons hstarts hrun
    newLine opCodeName hraw hreports hblocks fun b hb => ((hmem b).mp hb).1
  obtain ⟨percent', info', hresult', hpercent', -⟩ := h.computeCoverage_eq hvalid hcons hstarts hrun
    newLine opCodeName hraw' hreports' hblocks' fun b hb => ((hmem' b).mp hb).1
  refine ⟨percent, percent', info, info', hresult, hresult', ?_⟩
  have hblocksSub : ∀ b ∈ blocks, b ∈ blocks' := by
    intro b hb
    obtain ⟨hb, report, hreport, loc, hloc, hhits⟩ := (hmem b).mp hb
    obtain ⟨report', hreport', hloc'⟩ := hsub report hreport loc hloc
    exact (hmem' b).mpr ⟨hb, report', hreport', loc, hloc', hhits⟩
  have hcovered : coveredOffsets body is cfg blocks.elems ⊆ coveredOffsets body is cfg blocks'.elems := by
    rintro o ⟨hreach, b, hb, hbo⟩
    exact ⟨hreach, b, hblocksSub b hb, hbo⟩
  have hfinite : (coveredOffsets body is cfg blocks'.elems).Finite :=
    hvalid.reachable_finite.subset fun o ho => ho.1
  obtain ⟨hpos, hlt⟩ := hvalid.reachable_ncard
  rw [hpercent, hpercent']
  exact percentage_mono (Set.ncard_le_ncard hcovered hfinite)
    (Set.ncard_le_ncard (fun o ho => ho.1) hvalid.reachable_finite) hpos hlt

/-- A report that records the branch of the loop and its end, in the other order. -/
def fullLoopReport : NetBytes where
  bytes := ProfilerState.serializeMethods [(0, ⟨0x06000001, 3, [65, 65, 0], 3, [66, 66, 0], rfl, rfl⟩)]
    ++ ProfilerState.serializeBuffers
      [reportBuffer 0 (some ⟨[⟨4, .leaveMain, 1, 0⟩, ⟨2, .branchHit, 1, 0⟩], {0}⟩)]
  length_lt := by decide +kernel

/-- One more record. -/
theorem computeCoverage_mono_loop : ∃ m cfg percent percent' info info',
    Method.ofBody loopBody (fun _ => true) = .ok m ∧ m.cfgInfo 5 = .ok cfg
      ∧ computeCoverage cfg m "\n" toString true loopReport.bytes 0x06000001 [66, 66]
        = .ok (percent, info)
      ∧ computeCoverage cfg m "\n" toString true fullLoopReport.bytes 0x06000001 [66, 66]
        = .ok (percent', info')
      ∧ percent ≤ percent' := by
  obtain ⟨m, cfg, hm, hstarts, hrun, hlength⟩ := loopBody_cfgInfo
  have hread : (getRawReports fullLoopReport).toOption.bind
      (fun r => (reportsFromRawReports r.1).toOption)
        = some [⟨0, [⟨[65, 65], [66, 66], 0x06000001, 4⟩, ⟨[65, 65], [66, 66], 0x06000001, 2⟩]⟩] := by
    decide +kernel
  obtain ⟨r, hraw, hreports⟩ := loopReport_read
  obtain ⟨r', hraw', hreports'⟩ := Option.bind_eq_some_iff.mp hread
  obtain ⟨percent, percent', info, info', hresult, hresult', hle⟩ :=
    computeCoverage_mono loopBody_valid hm hstarts (by decide) (by decide) hrun
      (by rw [hlength]; decide) "\n" toString 0x06000001 [66, 66] hraw (eq_ok_of_toOption hraw')
      hreports (eq_ok_of_toOption hreports') (by simp)
  exact ⟨m, cfg, percent, percent', info, info', hm, hrun, hresult, hresult', hle⟩

end Result

end TestExecutor
