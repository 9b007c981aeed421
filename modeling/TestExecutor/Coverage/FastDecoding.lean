import TestExecutor.Coverage.Deserializer

/-!
# Records at once and field by field

The records of a report are read by reinterpreting a block of bytes; another reader takes them field
by field.

* `readWord_ok`, `readWord_fails` — words at a cursor;
* `deserializeCoverageInfo_ok`, `many_ok` — records, field by field;
* `Agree` — two readers succeed with one result, or both fail;
* `CountWraps` — the size of the block is not what 32 bits say, and there are as many bytes;
* `fast_agrees_iff` — **both agree** exactly where it is not so.
-/

namespace TestExecutor

open TestExecutor.Library TestExecutor.Library.ByteReader

/-! ### Words -/

variable {data : NetBytes} {k : ℕ}

theorem cursor_of_le (hk : k ≤ data.bytes.length) :
    (Int32.ofNat k).toNatClampNeg = k ∧ (Int32.ofNat k).toInt = k := by
  have hlt : k < 2 ^ 31 := lt_of_le_of_lt hk data.length_lt
  exact ⟨Int32.toNatClampNeg_ofNat_of_lt hlt, Int32.toInt_ofNat_of_lt hlt⟩

theorem readWord_ok {w : ℕ} (hw : 0 < w) (h : k + w ≤ data.bytes.length) :
    readWord w data (Int32.ofNat k)
      = .ok (leNat ((data.bytes.drop k).take w), Int32.ofNat (k + w)) := by
  have hk : k ≤ data.bytes.length := by omega
  obtain ⟨hcursor, hint⟩ := cursor_of_le hk
  have hnonneg : ¬(Int32.ofNat k < 0) := by
    rw [Int32.lt_iff_toInt_lt, hint]
    exact not_lt.mpr (Int.natCast_nonneg k)
  have hword : bitConverter w data (Int32.ofNat k)
      = .ok (leNat ((data.bytes.drop k).take w), Int32.ofNat k) := by
    rw [bitConverter, hcursor, if_neg (not_or.mpr ⟨hnonneg, by omega⟩), readLE_eq_some h]
  rw [readWord, bind_of_ok hword, bind_of_ok (increaseOffset_ofNat data k w)]
  rfl

theorem readWord_fails {w : ℕ} {p : Int32}
    (h : p.toInt < 0 ∨ (data.bytes.length : ℤ) < p.toInt + w) :
    ∃ e, readWord w data p = .error e := by
  have hword : ∃ e, bitConverter w data p = .error e := by
    rw [bitConverter]
    split
    · exact ⟨_, rfl⟩
    · rename_i hin
      obtain ⟨hnonneg, hlt⟩ := not_or.mp hin
      rw [Int32.lt_iff_toInt_lt, not_lt] at hnonneg
      have hcast : (p.toNatClampNeg : ℤ) = p.toInt := Int.toNat_of_nonneg hnonneg
      have hnone : data.bytes.length < p.toNatClampNeg + w := by
        rcases h with h | h
        · exact absurd hnonneg (not_le.mpr h)
        · omega
      rw [readLE_eq_none hnone]
      exact ⟨_, rfl⟩
  obtain ⟨e, he⟩ := hword
  exact ⟨e, by rw [readWord]; exact bind_of_error he⟩

theorem map_ok {α β : Type} {d : ByteReader α} {f : α → β} {p q : Int32} {a : α}
    (h : d data p = .ok (a, q)) : (d >>= fun a => pure (f a)) data p = .ok (f a, q) := by
  rw [bind_of_ok h]
  rfl

theorem readInt32_ok (h : k + 4 ≤ data.bytes.length) :
    readInt32 data (Int32.ofNat k)
      = .ok (Int32.ofNat (leNat ((data.bytes.drop k).take 4)), Int32.ofNat (k + 4)) :=
  map_ok (readWord_ok (by decide) h)

theorem readUInt32_ok (h : k + 4 ≤ data.bytes.length) :
    readUInt32 data (Int32.ofNat k)
      = .ok (UInt32.ofNat (leNat ((data.bytes.drop k).take 4)), Int32.ofNat (k + 4)) :=
  map_ok (readWord_ok (by decide) h)

theorem readUInt64_ok (h : k + 8 ≤ data.bytes.length) :
    readUInt64 data (Int32.ofNat k)
      = .ok (UInt64.ofNat (leNat ((data.bytes.drop k).take 8)), Int32.ofNat (k + 8)) :=
  map_ok (readWord_ok (by decide) h)

/-- A word before the end of the array has been read at the cursor. -/
theorem readInt32_eq_ok {p q : Int32} {count : Int32} (h : readInt32 data p = .ok (count, q)) :
    ∃ k, p = Int32.ofNat k ∧ q = Int32.ofNat (k + 4) ∧ k + 4 ≤ data.bytes.length := by
  by_cases hin : p.toInt < 0 ∨ (data.bytes.length : ℤ) < p.toInt + (4 : ℕ)
  · obtain ⟨e, he⟩ := readWord_fails (w := 4) hin
    have hfails : readInt32 data p = .error e := bind_of_error he
    rw [hfails] at h
    cases h
  · obtain ⟨hnonneg, hle⟩ := not_or.mp hin
    have hfits : p.toInt.toNat + 4 ≤ data.bytes.length := by omega
    have hle : p.toInt.toNat ≤ data.bytes.length := by omega
    have hp : p = Int32.ofNat p.toInt.toNat := by
      apply Int32.toInt_inj.mp
      rw [(cursor_of_le hle).2]
      omega
    refine ⟨p.toInt.toNat, hp, ?_, hfits⟩
    rw [hp, readInt32_ok hfits] at h
    exact (Prod.mk.inj (Except.ok.inj h)).2.symm

/-! ### Records, field by field -/

theorem deserializeCoverageInfo_ok (h : k + 20 ≤ data.bytes.length) :
    deserializeCoverageInfo data (Int32.ofNat k)
      = .ok (castLocation (data.bytes.drop k), Int32.ofNat (k + 20)) := by
  rw [deserializeCoverageInfo, bind_of_ok (readUInt32_ok (by omega)),
    bind_of_ok (readInt32_ok (by omega)), bind_of_ok (readInt32_ok (by omega)),
    bind_of_ok (readUInt64_ok (by omega)), castLocation, List.drop_drop, List.drop_drop,
    List.drop_drop]
  rfl

theorem deserializeCoverageInfo_fails (hk : k ≤ data.bytes.length)
    (h : data.bytes.length < k + 20) : ∃ e, deserializeCoverageInfo data (Int32.ofNat k) = .error e := by
  have hword : ∀ {w j : ℕ}, j ≤ data.bytes.length → data.bytes.length < j + w →
      ∃ e, readWord w data (Int32.ofNat j) = .error e := by
    intro w j hj hlt
    refine readWord_fails (Or.inr ?_)
    rw [(cursor_of_le hj).2]
    exact_mod_cast hlt
  rw [deserializeCoverageInfo]
  by_cases h₁ : k + 4 ≤ data.bytes.length
  · rw [bind_of_ok (readUInt32_ok h₁)]
    by_cases h₂ : k + 4 + 4 ≤ data.bytes.length
    · rw [bind_of_ok (readInt32_ok h₂)]
      by_cases h₃ : k + 4 + 4 + 4 ≤ data.bytes.length
      · rw [bind_of_ok (readInt32_ok h₃)]
        obtain ⟨e, he⟩ := hword (w := 8) h₃ (by omega)
        exact ⟨e, bind_of_error (bind_of_error he)⟩
      · obtain ⟨e, he⟩ := hword (w := 4) h₂ (by omega)
        exact ⟨e, bind_of_error (bind_of_error he)⟩
    · obtain ⟨e, he⟩ := hword (w := 4) h₁ (by omega)
      exact ⟨e, bind_of_error (bind_of_error he)⟩
  · obtain ⟨e, he⟩ := hword (w := 4) hk (by omega)
    exact ⟨e, bind_of_error (bind_of_error he)⟩

theorem many_ok (n : ℕ) (h : k + 20 * n ≤ data.bytes.length) :
    many deserializeCoverageInfo n data (Int32.ofNat k)
      = .ok (castLocations n (data.bytes.drop k), Int32.ofNat (k + 20 * n)) := by
  induction n generalizing k with
  | zero => rfl
  | succ n ih =>
      rw [many, bind_of_ok (deserializeCoverageInfo_ok (by omega)), bind_of_ok (ih (by omega)),
        castLocations, List.drop_drop]
      show Except.ok _ = Except.ok _
      rw [show k + 20 + 20 * n = k + 20 * (n + 1) by ring]
      rfl

theorem many_fails (n : ℕ) (hk : k ≤ data.bytes.length) (h : data.bytes.length < k + 20 * n) :
    ∃ e, many deserializeCoverageInfo n data (Int32.ofNat k) = .error e := by
  induction n generalizing k with
  | zero => omega
  | succ n ih =>
      rw [many]
      by_cases hfirst : k + 20 ≤ data.bytes.length
      · rw [bind_of_ok (deserializeCoverageInfo_ok hfirst)]
        obtain ⟨e, he⟩ := ih hfirst (by omega)
        exact ⟨e, bind_of_error he⟩
      · obtain ⟨e, he⟩ := deserializeCoverageInfo_fails hk (by omega)
        exact ⟨e, bind_of_error he⟩

/-- Only the bytes of the records matter. -/
theorem castLocations_take (n : ℕ) : ∀ bytes : List UInt8,
    castLocations n (bytes.take (20 * n)) = castLocations n bytes := by
  induction n with
  | zero => exact fun _ => rfl
  | succ n ih =>
      intro bytes
      have hfirst : castLocation (bytes.take (20 * (n + 1))) = castLocation bytes := by
        have htake : ∀ i w, i + w ≤ 20 →
            ((bytes.take (20 * (n + 1))).drop i).take w = (bytes.drop i).take w := by
          intro i w hiw
          rw [List.drop_take, List.take_take, Nat.min_eq_left (by omega)]
        simp only [castLocation, htake 4 4 (by decide), htake 8 4 (by decide), htake 12 8 (by decide)]
        rw [List.take_take, Nat.min_eq_left (by omega)]
      have hrest : (bytes.take (20 * (n + 1))).drop sizeofRawCoverageLocation
          = (bytes.drop sizeofRawCoverageLocation).take (20 * n) := by
        rw [List.drop_take, show 20 * (n + 1) - sizeofRawCoverageLocation = 20 * n by
          unfold sizeofRawCoverageLocation; omega]
      rw [castLocations, castLocations, hfirst, hrest, ih]

/-! ### Records at once -/

/-- The size of the block, in 32 bits. -/
def bytesCount (count : Int32) : Int32 := Int32.ofNat sizeofRawCoverageLocation * count

theorem bytesCount_toInt {count : Int32} (hnonneg : 0 ≤ count.toInt)
    (hlt : 20 * count.toInt < 2 ^ 31) : (bytesCount count).toInt = 20 * count.toInt := by
  have htwenty : (Int32.ofNat sizeofRawCoverageLocation).toInt = 20 := by decide
  rw [bytesCount, Int32.toInt_mul, htwenty]
  exact Int.bmod_eq_of_le (by omega) (by omega)

section Fast

variable {p : Int32} {count : Int32} (hcount : readInt32 data p = .ok (count, Int32.ofNat k))
  (hk : k ≤ data.bytes.length)

include hcount

theorem fast_of_neg (h : (bytesCount count).toInt < 0) :
    deserializeCoverageInfoFast data p = .error .overflow := by
  have hneg : Int32.ofNat sizeofRawCoverageLocation * count < 0 := Int32.lt_iff_toInt_lt.mpr h
  rw [deserializeCoverageInfoFast, bind_of_ok hcount, if_pos hneg]
  rfl

include hk

omit hcount in
theorem arraySub_block (h : 0 ≤ (bytesCount count).toInt) :
    arraySub .argumentOutOfRange (bytesCount count) data (Int32.ofNat k)
      = if data.bytes.length < k + (bytesCount count).toInt.toNat then .error .argumentOutOfRange
        else .ok ((data.bytes.drop k).take (bytesCount count).toInt.toNat, Int32.ofNat k) := by
  obtain ⟨hcursor, hint⟩ := cursor_of_le hk
  have hnonneg : ¬(Int32.ofNat k < 0) := by
    rw [Int32.lt_iff_toInt_lt, hint]
    exact not_lt.mpr (Int.natCast_nonneg k)
  have hcount' : ¬(bytesCount count < 0) := by
    rw [Int32.lt_iff_toInt_lt]
    exact not_lt.mpr h
  rw [arraySub, hcursor]
  show (if _ ∨ _ ∨ data.bytes.length < k + (bytesCount count).toInt.toNat then _ else _) = _
  simp only [hnonneg, hcount', false_or]
  rfl

theorem fast_of_short (h : 0 ≤ (bytesCount count).toInt)
    (hshort : (data.bytes.length : ℤ) < k + (bytesCount count).toInt) :
    deserializeCoverageInfoFast data p = .error .argumentOutOfRange := by
  have hcount' : ¬(Int32.ofNat sizeofRawCoverageLocation * count < 0) := by
    rw [Int32.lt_iff_toInt_lt]
    exact not_lt.mpr h
  rw [deserializeCoverageInfoFast, bind_of_ok hcount, if_neg hcount']
  refine bind_of_error ?_
  show arraySub _ (bytesCount count) data _ = _
  rw [arraySub_block hk h, if_pos (by omega)]

theorem fast_of_fits (h : 0 ≤ (bytesCount count).toInt)
    (hfits : k + (bytesCount count).toInt ≤ data.bytes.length) :
    deserializeCoverageInfoFast data p
      = .ok (castLocations ((bytesCount count).toInt.toNat / 20)
          ((data.bytes.drop k).take (bytesCount count).toInt.toNat),
        Int32.ofNat (k + (bytesCount count).toInt.toNat)) := by
  have hcount' : ¬(Int32.ofNat sizeofRawCoverageLocation * count < 0) := by
    rw [Int32.lt_iff_toInt_lt]
    exact not_lt.mpr h
  have hsub : arraySub .argumentOutOfRange (bytesCount count) data (Int32.ofNat k)
      = .ok ((data.bytes.drop k).take (bytesCount count).toInt.toNat, Int32.ofNat k) := by
    rw [arraySub_block hk h, if_neg (by omega)]
  have hsame : bytesCount count = Int32.ofNat (bytesCount count).toInt.toNat := by
    apply Int32.toInt_inj.mp
    rw [Int32.toInt_ofNat_of_lt (by have := data.length_lt; omega)]
    omega
  have hskip : increaseOffset (bytesCount count) data (Int32.ofNat k)
      = .ok ((), Int32.ofNat (k + (bytesCount count).toInt.toNat)) := by
    conv_lhs => rw [hsame]
    exact increaseOffset_ofNat data k _
  have hlength : ((data.bytes.drop k).take (bytesCount count).toInt.toNat).length
      = (bytesCount count).toInt.toNat := by
    rw [List.length_take, List.length_drop]
    omega
  rw [deserializeCoverageInfoFast, bind_of_ok hcount, if_neg hcount']
  change (arraySub _ (bytesCount count) >>= fun targetBytes => increaseOffset (bytesCount count) >>= _)
    data _ = _
  rw [bind_of_ok hsub, bind_of_ok hskip, hlength]
  rfl

end Fast

/-! ### Both readers -/

/-- Both succeed with one result, or both fail. -/
def Agree {α : Type} (d d' : ByteReader α) (data : NetBytes) (p : Int32) : Prop :=
  (∃ r, d data p = .ok r ∧ d' data p = .ok r)
    ∨ ((∃ e, d data p = .error e) ∧ ∃ e, d' data p = .error e)

/-- There is a count at the cursor whose block has another size in 32 bits, and there are as many bytes
as these say. -/
def CountWraps (data : NetBytes) (p : Int32) : Prop :=
  ∃ count q, readInt32 data p = .ok (count, q) ∧ (count.toInt < 0 ∨ 2 ^ 31 ≤ 20 * count.toInt)
    ∧ 0 ≤ (bytesCount count).toInt ∧ q.toInt + (bytesCount count).toInt ≤ data.bytes.length

/-- The plain reader rejects a count that the remaining bytes cannot hold. -/
theorem plain_rejects {p q : Int32} {count : Int32} (hcount : readInt32 data p = .ok (count, q))
    (h : count.toInt < 0 ∨ (data.bytes.length : ℤ) < q.toInt + 20 * count.toInt) :
    ∃ e, deserializeArray deserializeCoverageInfo data p = .error e := by
  obtain ⟨k, -, rfl, hk⟩ := readInt32_eq_ok hcount
  rw [(cursor_of_le hk).2] at h
  rw [deserializeArray, bind_of_ok hcount]
  split
  · exact ⟨_, rfl⟩
  · rename_i hnonneg
    rw [Int32.lt_iff_toInt_lt, not_lt] at hnonneg
    refine many_fails _ hk ?_
    have hcast : (count.toNatClampNeg : ℤ) = count.toInt := Int.toNat_of_nonneg hnonneg
    rcases h with h | h
    · exact absurd hnonneg (not_le.mpr h)
    · omega

theorem plain_of_fits {p : Int32} {count : Int32} (hcount : readInt32 data p = .ok (count, Int32.ofNat k))
    (hnonneg : 0 ≤ count.toInt) (hfits : k + 20 * count.toInt.toNat ≤ data.bytes.length) :
    deserializeArray deserializeCoverageInfo data p
      = .ok (castLocations count.toInt.toNat (data.bytes.drop k),
        Int32.ofNat (k + 20 * count.toInt.toNat)) := by
  have hcount' : ¬(count < 0) := by
    rw [Int32.lt_iff_toInt_lt]
    exact not_lt.mpr hnonneg
  rw [deserializeArray, bind_of_ok hcount, if_neg hcount']
  exact many_ok _ hfits

/-- **Reading records at once** is reading them field by field, unless the size of the block wraps to
one for which there are enough bytes; a count that the remaining bytes cannot hold is then rejected by
both. -/
theorem fast_agrees_iff (data : NetBytes) (p : Int32) :
    (Agree deserializeCoverageInfoFast (deserializeArray deserializeCoverageInfo) data p
      ↔ ¬CountWraps data p)
    ∧ (¬CountWraps data p → ∀ count q, readInt32 data p = .ok (count, q) →
      (count.toInt < 0 ∨ (data.bytes.length : ℤ) < q.toInt + 20 * count.toInt) →
        (∃ e, deserializeCoverageInfoFast data p = .error e)
          ∧ ∃ e, deserializeArray deserializeCoverageInfo data p = .error e) := by
  have hagree : ¬CountWraps data p →
      Agree deserializeCoverageInfoFast (deserializeArray deserializeCoverageInfo) data p := by
    intro hwraps
    cases hread : readInt32 data p with
    | error e => exact Or.inr ⟨⟨e, bind_of_error hread⟩, e, bind_of_error hread⟩
    | ok r =>
        obtain ⟨count, q⟩ := r
        obtain ⟨k, -, rfl, hk⟩ := readInt32_eq_ok hread
        obtain ⟨-, hcursor⟩ := cursor_of_le hk
        by_cases hsmall : 0 ≤ count.toInt ∧ 20 * count.toInt < 2 ^ 31
        · have hbytes := bytesCount_toInt hsmall.1 hsmall.2
          by_cases hfits : (k + 4 : ℕ) + 20 * count.toInt ≤ data.bytes.length
          · refine Or.inl ⟨_, fast_of_fits hread hk (by omega) (by omega), ?_⟩
            have hnat : (bytesCount count).toInt.toNat = 20 * count.toInt.toNat := by omega
            rw [hnat, Nat.mul_div_cancel_left _ (by decide), castLocations_take]
            exact plain_of_fits hread hsmall.1 (by omega)
          · refine Or.inr ⟨⟨_, fast_of_short hread hk (by omega) (by omega)⟩, ?_⟩
            exact plain_rejects hread (Or.inr (by rw [hcursor]; omega))
        · have hlarge : count.toInt < 0 ∨ 2 ^ 31 ≤ 20 * count.toInt := by omega
          have hlength := data.length_lt
          refine Or.inr ⟨?_, plain_rejects hread (by rw [hcursor]; omega)⟩
          by_cases hneg : (bytesCount count).toInt < 0
          · exact ⟨_, fast_of_neg hread hneg⟩
          · refine ⟨_, fast_of_short hread hk (by omega) ?_⟩
            by_contra hfits
            exact hwraps ⟨count, _, hread, hlarge, by omega, by rw [hcursor]; omega⟩
  refine ⟨⟨fun h hwraps => ?_, hagree⟩, fun hwraps count q hcount hreject => ?_⟩
  · obtain ⟨count, q, hread, hlarge, hnonneg, hfits⟩ := hwraps
    obtain ⟨k, -, rfl, hk⟩ := readInt32_eq_ok hread
    obtain ⟨-, hcursor⟩ := cursor_of_le hk
    have hlength := data.length_lt
    rw [hcursor] at hfits
    have hfast := fast_of_fits hread hk hnonneg hfits
    obtain ⟨e, he⟩ := plain_rejects hread (by rw [hcursor]; omega)
    rcases h with ⟨r, -, hplain⟩ | ⟨⟨e', he'⟩, -⟩
    · rw [he] at hplain
      cases hplain
    · rw [hfast] at he'
      cases he'
  · obtain ⟨e, he⟩ := plain_rejects hcount hreject
    rcases hagree hwraps with ⟨r, -, hplain⟩ | hfails
    · rw [he] at hplain
      cases hplain
    · exact hfails

/-- A count of `2 ^ 30`, for which the block has no bytes. -/
def wrappingCount : NetBytes := ⟨[0, 0, 0, 64], by decide⟩

/-- It is read as no records, but there are no bytes for the first one. -/
theorem wrappingCount_not_agree :
    deserializeCoverageInfoFast wrappingCount 0 = .ok ([], 4)
    ∧ (∃ e, deserializeArray deserializeCoverageInfo wrappingCount 0 = .error e)
    ∧ ¬Agree deserializeCoverageInfoFast (deserializeArray deserializeCoverageInfo) wrappingCount 0 := by
  have hread : readInt32 wrappingCount 0 = .ok (Int32.ofNat (2 ^ 30), Int32.ofNat 4) := by rfl
  have hfast : deserializeCoverageInfoFast wrappingCount 0 = .ok ([], 4) := by rfl
  obtain ⟨e, he⟩ := plain_rejects hread (Or.inr (by decide))
  refine ⟨hfast, ⟨e, he⟩, fun hagree => ?_⟩
  rcases hagree with ⟨r, -, hplain⟩ | ⟨⟨e', he'⟩, -⟩
  · rw [he] at hplain
    cases hplain
  · rw [hfast] at he'
    cases he'

end TestExecutor
