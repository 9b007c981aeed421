import Mathlib.Data.Nat.Find
import Mathlib.Order.Bounds.Basic
import TestExecutor.IL.Cfg

/-!
# Looking a block up

The binary search of `CfgInfo` over the sorted blocks.  Its bounds are 32-bit words, and the
midpoint is half their sum: on more than `2 ^ 30 + 1` blocks the sum can wrap around.

* `binSearch_round`, `binSearch_wraps` — one round, with and without a sum that fits;
* `binSearch_eq`, `binSearch_fails` — the search by induction on the range that is left;
* `LooksUpExactly`, `looksUpExactly_iff` — the lookup is exact iff there are not too many blocks.
-/

namespace TestExecutor

/-! ### Midpoints -/

theorem ofNat_midpoint {a b : ℕ} (h : a + b < 2 ^ 31) :
    (Int32.ofNat a + Int32.ofNat b) / 2 = Int32.ofNat ((a + b) / 2) := by
  have hsum : (Int32.ofNat a + Int32.ofNat b).toInt = ((a + b : ℕ) : ℤ) := by
    rw [← Int32.ofNat_add, Int32.toInt_ofNat_of_lt h]
  refine Int32.toInt_inj.mp ?_
  rw [Int32.toInt_div_of_ne_right _ _ (by decide), hsum, Int32.toInt_ofNat_of_lt (by omega)]
  show ((a + b : ℕ) : ℤ).tdiv 2 = _
  rw [Int.tdiv_eq_ediv_of_nonneg (by omega)]
  omega

/-- A sum that does not fit is negative, and half of it is. -/
theorem midpoint_neg {a b : ℕ} (ha : a < 2 ^ 31) (hb : b < 2 ^ 31) (hlt : a < b)
    (h : 2 ^ 31 ≤ a + b) : (Int32.ofNat a + Int32.ofNat b) / 2 < 0 := by
  have hsum : (Int32.ofNat a + Int32.ofNat b).toInt = (a + b : ℤ) - 2 ^ 32 := by
    rw [Int32.toInt_add, Int32.toInt_ofNat_of_lt ha, Int32.toInt_ofNat_of_lt hb, Int.bmod_def]
    omega
  rw [Int32.lt_iff_toInt_lt, Int32.toInt_div_of_ne_right _ _ (by decide), hsum, Int32.toInt_zero]
  have hneg : (a + b : ℤ) - 2 ^ 32 = -(2 ^ 32 - (a + b : ℤ)) := by omega
  show ((a + b : ℤ) - 2 ^ 32).tdiv 2 < 0
  rw [hneg, Int.neg_tdiv, Int.tdiv_eq_ediv_of_nonneg (by omega)]
  omega

namespace CfgInfo

variable {cfg : CfgInfo} {offset : ℕ}

/-- The start of the block at an index below the count. -/
def startAt (cfg : CfgInfo) (i : ℕ) : ℕ :=
  (cfg.basicBlocks (cfg.sortedBasicBlocks.getD i 0)).startOffset

/-! ### One round -/

theorem sortedStart_eq {i : ℕ} (hi : i < cfg.sortedBasicBlocks.length)
    (hcount : cfg.sortedBasicBlocks.length < 2 ^ 31) :
    cfg.sortedStart (Int32.ofNat i) = .ok (cfg.startAt i) := by
  have hnonneg : ¬Int32.ofNat i < 0 := by
    rw [Int32.lt_iff_toInt_lt, Int32.toInt_ofNat_of_lt (by omega), Int32.toInt_zero]
    omega
  rw [sortedStart, sortedBlock, if_neg hnonneg, Int32.toNatClampNeg_ofNat_of_lt (by omega),
    startAt, List.getD_eq_getElem?_getD, List.getElem?_eq_getElem hi]
  rfl

theorem binSearch_done {a b fuel : ℕ} (hab : b ≤ a) (ha : a < 2 ^ 31) :
    cfg.binSearch offset (fuel + 1) (Int32.ofNat a) (Int32.ofNat b) = .ok (Int32.ofNat a) := by
  have hge : Int32.ofNat a ≥ Int32.ofNat b := by
    show Int32.ofNat b ≤ Int32.ofNat a
    rw [Int32.le_iff_toInt_le, Int32.toInt_ofNat_of_lt ha, Int32.toInt_ofNat_of_lt (by omega)]
    omega
  rw [binSearch, if_pos hge]

theorem not_ofNat_ge {a b : ℕ} (hab : a < b) (hb : b < 2 ^ 31) :
    ¬Int32.ofNat a ≥ Int32.ofNat b := by
  show ¬Int32.ofNat b ≤ Int32.ofNat a
  rw [Int32.le_iff_toInt_le, Int32.toInt_ofNat_of_lt hb, Int32.toInt_ofNat_of_lt (by omega)]
  omega

/-- A round looks at the middle block and at the one behind it, which both exist. -/
theorem binSearch_round {a b : ℕ} (fuel : ℕ) (hab : a < b)
    (hb : b < cfg.sortedBasicBlocks.length) (hcount : cfg.sortedBasicBlocks.length < 2 ^ 31)
    (hsum : a + b < 2 ^ 31) :
    cfg.binSearch offset (fuel + 1) (Int32.ofNat a) (Int32.ofNat b)
      = if cfg.startAt ((a + b) / 2) ≤ offset ∧ offset < cfg.startAt ((a + b) / 2 + 1) then
          .ok (Int32.ofNat ((a + b) / 2))
        else if cfg.startAt ((a + b) / 2 + 1) ≤ offset then
          cfg.binSearch offset fuel (Int32.ofNat ((a + b) / 2 + 1)) (Int32.ofNat b)
        else cfg.binSearch offset fuel (Int32.ofNat a) (Int32.ofNat ((a + b) / 2) - 1) := by
  have hnext : Int32.ofNat ((a + b) / 2) + 1 = Int32.ofNat ((a + b) / 2 + 1) :=
    (Int32.ofNat_add _ 1).symm
  have hinside : ¬Int32.ofNat ((a + b) / 2 + 1) ≥ cfg.count := by
    show ¬cfg.count ≤ _
    rw [count, Int32.le_iff_toInt_le, Int32.toInt_ofNat_of_lt hcount,
      Int32.toInt_ofNat_of_lt (by omega)]
    omega
  rw [binSearch, if_neg (not_ofNat_ge hab (by omega))]
  dsimp only
  rw [ofNat_midpoint hsum, hnext, sortedStart_eq (by omega) hcount]
  show (if Int32.ofNat ((a + b) / 2 + 1) ≥ cfg.count then _ else _) = _
  rw [if_neg hinside, sortedStart_eq (by omega) hcount]
  show (if (decide (cfg.startAt ((a + b) / 2) ≤ offset)
      && decide (cfg.startAt ((a + b) / 2 + 1) > offset)) = true then _
    else if (!decide (cfg.startAt ((a + b) / 2 + 1) > offset)) = true then _ else _) = _
  simp only [Bool.and_eq_true, decide_eq_true_eq, Bool.not_eq_true', decide_eq_false_iff_not,
    not_lt, gt_iff_lt]

/-- A sum that wraps around gives an index that does not exist. -/
theorem binSearch_wraps {a b : ℕ} (fuel : ℕ) (hab : a < b) (hb : b < 2 ^ 31)
    (hsum : 2 ^ 31 ≤ a + b) :
    cfg.binSearch offset (fuel + 1) (Int32.ofNat a) (Int32.ofNat b) = .error .indexOutOfRange := by
  have hneg := midpoint_neg (by omega) hb hab hsum
  rw [binSearch, if_neg (not_ofNat_ge hab hb)]
  dsimp only
  rw [sortedStart, sortedBlock, if_pos hneg]
  rfl

/-! ### The search -/

/-- **The search ends at the block** that lies in the range that is left. -/
theorem binSearch_eq {k : ℕ} (hcount : cfg.sortedBasicBlocks.length ≤ 2 ^ 30 + 1)
    (hle : ∀ i ≤ k, cfg.startAt i ≤ offset)
    (hgt : ∀ i, k < i → i < cfg.sortedBasicBlocks.length → offset < cfg.startAt i) (fuel : ℕ) :
    ∀ a b, a ≤ k → k ≤ b → b < cfg.sortedBasicBlocks.length → b - a < fuel →
      cfg.binSearch offset fuel (Int32.ofNat a) (Int32.ofNat b) = .ok (Int32.ofNat k) := by
  induction fuel with
  | zero =>
      intro a b _ _ _ hfuel
      exact absurd hfuel (Nat.not_lt_zero _)
  | succ fuel ih =>
      intro a b hak hkb hb hfuel
      by_cases hab : a < b
      · rw [binSearch_round fuel hab hb (by omega) (by omega)]
        rcases Nat.lt_trichotomy ((a + b) / 2) k with hlt | heq | hlt
        · have hnext := hle ((a + b) / 2 + 1) hlt
          rw [if_neg fun h => absurd h.2 (not_lt.mpr hnext), if_pos hnext]
          exact ih _ b hlt hkb hb (by omega)
        · rw [heq, if_pos ⟨hle k (le_refl k), hgt (k + 1) (Nat.lt_succ_self k) (by omega)⟩]
        · have hmid := hgt ((a + b) / 2) hlt (by omega)
          have hnext := hgt ((a + b) / 2 + 1) (by omega) (by omega)
          have hprev : Int32.ofNat ((a + b) / 2) - 1 = Int32.ofNat ((a + b) / 2 - 1) :=
            (Int32.ofNat_sub _ 1 (by omega)).symm
          rw [if_neg fun h => absurd hmid (not_lt.mpr h.1), if_neg (not_le.mpr hnext), hprev]
          exact ih a _ hak (by omega) (by omega) (by omega)
      · obtain rfl : a = k := by omega
        exact binSearch_done (by omega) (by omega)

/-- **With too many blocks** the search for the last one fails. -/
theorem binSearch_fails (hcount : 2 ^ 30 + 1 < cfg.sortedBasicBlocks.length)
    (hcount' : cfg.sortedBasicBlocks.length < 2 ^ 31)
    (hle : ∀ i < cfg.sortedBasicBlocks.length, cfg.startAt i ≤ offset) (fuel : ℕ) :
    ∀ a, a < cfg.sortedBasicBlocks.length - 1 → cfg.sortedBasicBlocks.length - 1 - a < fuel →
      cfg.binSearch offset fuel (Int32.ofNat a) (Int32.ofNat (cfg.sortedBasicBlocks.length - 1))
        = .error .indexOutOfRange := by
  induction fuel with
  | zero =>
      intro a _ hfuel
      exact absurd hfuel (Nat.not_lt_zero _)
  | succ fuel ih =>
      intro a ha hfuel
      by_cases hsum : a + (cfg.sortedBasicBlocks.length - 1) < 2 ^ 31
      · -- the sum fits, so more than the last two blocks are left, and some are left behind the round
        have hnext := hle ((a + (cfg.sortedBasicBlocks.length - 1)) / 2 + 1) (by omega)
        rw [binSearch_round fuel ha (by omega) hcount' hsum,
          if_neg fun h => absurd h.2 (not_lt.mpr hnext), if_pos hnext]
        exact ih _ (by omega) (by omega)
      · exact binSearch_wraps fuel ha (by omega) (not_lt.mp hsum)

/-! ### Exactness -/

/-- The block at an index has the greatest start that is not above an offset. -/
def IsBlockOf (cfg : CfgInfo) (offset i : ℕ) : Prop :=
  ∃ block, cfg.sortedBasicBlocks[i]? = some block
    ∧ IsGreatest {start | start ≤ offset
      ∧ ∃ b ∈ cfg.sortedBasicBlocks, (cfg.basicBlocks b).startOffset = start}
      (cfg.basicBlocks block).startOffset

/-- Every offset that is not below the first start is looked up without an error, and exactly. -/
def LooksUpExactly (cfg : CfgInfo) : Prop :=
  ∀ offset, (∃ b ∈ cfg.sortedBasicBlocks.head?, (cfg.basicBlocks b).startOffset ≤ offset) →
    ∃ i < cfg.sortedBasicBlocks.length,
      cfg.resolveBasicBlockIndex offset = .ok (Int32.ofNat i) ∧ cfg.IsBlockOf offset i

/-- Blocks in the order of their starts, of which no two are the same. -/
def IsSorted (cfg : CfgInfo) : Prop :=
  cfg.sortedBasicBlocks.Pairwise fun b c =>
    (cfg.basicBlocks b).startOffset < (cfg.basicBlocks c).startOffset

theorem startAt_getElem {i : ℕ} (hi : i < cfg.sortedBasicBlocks.length) :
    cfg.startAt i = (cfg.basicBlocks cfg.sortedBasicBlocks[i]).startOffset := by
  rw [startAt, List.getD_eq_getElem?_getD, List.getElem?_eq_getElem hi]
  rfl

theorem IsSorted.startAt_lt (h : cfg.IsSorted) {i j : ℕ} (hij : i < j)
    (hj : j < cfg.sortedBasicBlocks.length) : cfg.startAt i < cfg.startAt j := by
  rw [startAt_getElem (by omega), startAt_getElem hj]
  exact List.pairwise_iff_getElem.mp h i j (by omega) hj hij

theorem IsSorted.startAt_le (h : cfg.IsSorted) {i j : ℕ} (hij : i ≤ j)
    (hj : j < cfg.sortedBasicBlocks.length) : cfg.startAt i ≤ cfg.startAt j := by
  rcases Nat.lt_or_eq_of_le hij with hlt | heq
  · exact le_of_lt (h.startAt_lt hlt hj)
  · rw [heq]

theorem exists_start_iff (P : ℕ → Prop) :
    (∃ b ∈ cfg.sortedBasicBlocks, P (cfg.basicBlocks b).startOffset)
      ↔ ∃ i < cfg.sortedBasicBlocks.length, P (cfg.startAt i) := by
  constructor
  · intro h
    obtain ⟨b, hb, hP⟩ := h
    obtain ⟨i, hi, hget⟩ := List.mem_iff_getElem.mp hb
    refine ⟨i, hi, ?_⟩
    rwa [startAt_getElem hi, hget]
  · intro h
    obtain ⟨i, hi, hP⟩ := h
    rw [startAt_getElem hi] at hP
    exact ⟨_, List.getElem_mem hi, hP⟩

/-- The last index whose start is not above an offset. -/
theorem exists_lastIndex (h : cfg.IsSorted) (hne : 0 < cfg.sortedBasicBlocks.length)
    (hfirst : cfg.startAt 0 ≤ offset) : ∃ k < cfg.sortedBasicBlocks.length,
      (∀ i ≤ k, cfg.startAt i ≤ offset)
        ∧ ∀ i, k < i → i < cfg.sortedBasicBlocks.length → offset < cfg.startAt i := by
  have hspec := Nat.findGreatest_spec (P := fun i => cfg.startAt i ≤ offset)
    (Nat.zero_le (cfg.sortedBasicBlocks.length - 1)) hfirst
  have hle := Nat.findGreatest_le (P := fun i => cfg.startAt i ≤ offset)
    (cfg.sortedBasicBlocks.length - 1)
  refine ⟨_, by omega, fun i hi => (h.startAt_le hi (by omega)).trans hspec, fun i hi hlt => ?_⟩
  have hnot := Nat.findGreatest_is_greatest (P := fun i => cfg.startAt i ≤ offset) hi
    (show i ≤ cfg.sortedBasicBlocks.length - 1 by omega)
  exact not_le.mp hnot

theorem isBlockOf_of_last {k : ℕ} (hk : k < cfg.sortedBasicBlocks.length) (hs : cfg.IsSorted)
    (hle : ∀ i ≤ k, cfg.startAt i ≤ offset)
    (hgt : ∀ i, k < i → i < cfg.sortedBasicBlocks.length → offset < cfg.startAt i) :
    cfg.IsBlockOf offset k := by
  refine ⟨cfg.sortedBasicBlocks[k], List.getElem?_eq_getElem hk, ?_⟩
  rw [← startAt_getElem hk]
  refine ⟨⟨hle k (le_refl k), (exists_start_iff fun o => o = _).mpr ⟨k, hk, rfl⟩⟩,
    fun start hstart => ?_⟩
  obtain ⟨hoffset, hblock⟩ := hstart
  obtain ⟨i, hi, hstart⟩ := (exists_start_iff fun o => o = start).mp hblock
  rw [← hstart] at hoffset ⊢
  refine hs.startAt_le ?_ hk
  by_contra hki
  exact absurd (hgt i (not_le.mp hki) hi) (not_lt.mpr hoffset)

theorem exists_head_le_iff (hne : 0 < cfg.sortedBasicBlocks.length) :
    (∃ b ∈ cfg.sortedBasicBlocks.head?, (cfg.basicBlocks b).startOffset ≤ offset)
      ↔ cfg.startAt 0 ≤ offset := by
  rw [startAt_getElem hne, List.head?_eq_getElem?, List.getElem?_eq_getElem hne]
  simp

/-- The first range is the whole list. -/
theorem resolveBasicBlockIndex_eq (hne : 0 < cfg.sortedBasicBlocks.length) :
    cfg.resolveBasicBlockIndex offset = cfg.binSearch offset (cfg.sortedBasicBlocks.length + 1)
      (Int32.ofNat 0) (Int32.ofNat (cfg.sortedBasicBlocks.length - 1)) := by
  have hlast : cfg.count - 1 = Int32.ofNat (cfg.sortedBasicBlocks.length - 1) :=
    (Int32.ofNat_sub _ 1 hne).symm
  rw [resolveBasicBlockIndex, hlast]
  rfl

/-- **Block lookup is exact** iff there are at most `2 ^ 30 + 1` blocks. -/
theorem looksUpExactly_iff (hne : cfg.sortedBasicBlocks ≠ []) (hs : cfg.IsSorted)
    (hcount : cfg.sortedBasicBlocks.length < 2 ^ 31) :
    cfg.LooksUpExactly ↔ cfg.sortedBasicBlocks.length ≤ 2 ^ 30 + 1 := by
  have hpos : 0 < cfg.sortedBasicBlocks.length := List.length_pos_of_ne_nil hne
  constructor
  · intro hexact
    by_contra hmany
    -- the last block is not found
    have hlast : ∀ i < cfg.sortedBasicBlocks.length,
        cfg.startAt i ≤ cfg.startAt (cfg.sortedBasicBlocks.length - 1) :=
      fun i hi => hs.startAt_le (by omega) (by omega)
    obtain ⟨i, -, hrun, -⟩ := hexact _ ((exists_head_le_iff hpos).mpr (hlast 0 hpos))
    rw [resolveBasicBlockIndex_eq hpos,
      binSearch_fails (not_le.mp hmany) hcount hlast _ 0 (by omega) (by omega)] at hrun
    cases hrun
  · intro hfew offset hfirst
    obtain ⟨k, hk, hle, hgt⟩ := exists_lastIndex hs hpos ((exists_head_le_iff hpos).mp hfirst)
    refine ⟨k, hk, ?_, isBlockOf_of_last hk hs hle hgt⟩
    rw [resolveBasicBlockIndex_eq hpos]
    exact binSearch_eq hfew hle hgt _ 0 _ (Nat.zero_le k) (by omega) (by omega) (by omega)

/-- A graph with a block at each of the first offsets. -/
def dense (n : ℕ) : CfgInfo := ⟨.new, List.range n, n, [], .empty⟩

theorem dense_isSorted (n : ℕ) : (dense n).IsSorted := List.pairwise_lt_range

theorem dense_startAt {n i : ℕ} (hi : i < n) : (dense n).startAt i = i := by
  rw [startAt_getElem (by rwa [dense, List.length_range])]
  exact List.getElem_range _

/-- Two blocks. -/
theorem looksUpExactly_dense : (dense 2).LooksUpExactly :=
  (looksUpExactly_iff (by decide) (dense_isSorted 2) (by decide)).mpr (by decide)

/-- The last of too many blocks is not found. -/
theorem dense_not_looksUpExactly :
    (dense (2 ^ 30 + 2)).resolveBasicBlockIndex (2 ^ 30 + 1) = .error .indexOutOfRange
      ∧ ¬(dense (2 ^ 30 + 2)).LooksUpExactly := by
  obtain ⟨n, hn⟩ : ∃ n, n = 2 ^ 30 + 2 := ⟨_, rfl⟩
  have hlength : (dense n).sortedBasicBlocks.length = n := List.length_range
  have hfirst : (dense n).startAt 0 ≤ n - 1 := by
    rw [dense_startAt (by omega)]
    exact Nat.zero_le _
  have herror : (dense n).resolveBasicBlockIndex (n - 1) = .error .indexOutOfRange := by
    rw [resolveBasicBlockIndex_eq (by omega)]
    refine binSearch_fails (by omega) (by omega) (fun i hi => ?_) _ 0 (by omega) (by omega)
    rw [dense_startAt (by omega)]
    omega
  rw [← hn, show 2 ^ 30 + 1 = n - 1 by omega]
  refine ⟨herror, fun hexact => ?_⟩
  obtain ⟨i, -, hrun, -⟩ := hexact (n - 1) ((exists_head_le_iff (by omega)).mpr hfirst)
  rw [herror] at hrun
  cases hrun

end CfgInfo

end TestExecutor
