import TestExecutor.Library.ByteReader

/-!
# Readers on a part of an array

* `Persists` — what is read from a prefix of an array is read from the array;
* `EndsInside`, `StaysInside` — the cursor does not leave the array;
* the rules by which both go from readers to readers in sequence, and to loops.
-/

namespace TestExecutor.Library.ByteReader

variable {α β : Type}

/-- A result on a prefix of an array is the result on the array. -/
def Persists (d : ByteReader α) : Prop :=
  ∀ (data part : NetBytes) (p : Int32) (r : α × Int32), part.bytes <+: data.bytes →
    d part p = .ok r → d data p = .ok r

/-- A cursor in the array, or at its end. -/
def Inside (data : NetBytes) (p : Int32) : Prop := 0 ≤ p.toInt ∧ p.toInt ≤ data.bytes.length

/-- After a result the cursor is inside. -/
def EndsInside (d : ByteReader α) : Prop :=
  ∀ data p v q, d data p = .ok (v, q) → Inside data q

/-- A cursor that is inside is so after a result. -/
def StaysInside (d : ByteReader α) : Prop :=
  ∀ data p v q, Inside data p → d data p = .ok (v, q) → Inside data q

/-! ### Prefixes -/

theorem Persists.pure (v : α) : Persists (Pure.pure v) := fun _ _ _ _ _ h => h

theorem Persists.throw (e : NetException) : Persists (throw e : ByteReader α) :=
  fun _ _ _ _ _ h => by cases h

theorem Persists.bind {d : ByteReader α} {f : α → ByteReader β} (h : Persists d)
    (hf : ∀ a, Persists (f a)) : Persists (d >>= f) := by
  intro data part p r hpart hrun
  obtain ⟨a, p', hd, hrest⟩ := bind_eq_ok hrun
  rw [bind_of_ok (h data part p _ hpart hd)]
  exact hf a data part p' r hpart hrest

theorem Persists.ite {c : Prop} [Decidable c] {d d' : ByteReader α} (h : Persists d)
    (h' : Persists d') : Persists (if c then d else d') := by
  split
  · exact h
  · exact h'

theorem Persists.many {d : ByteReader α} (h : Persists d) (n : ℕ) : Persists (many d n) := by
  induction n with
  | zero => exact Persists.pure []
  | succ n ih => exact h.bind fun _ => ih.bind fun _ => Persists.pure _

theorem persists_increaseOffset (i : Int32) : Persists (increaseOffset i) := fun _ _ _ _ _ h => h

theorem take_drop_of_prefix {as bs : List α} (h : as <+: bs) {i n : ℕ} (hn : i + n ≤ as.length) :
    (bs.drop i).take n = (as.drop i).take n := by
  obtain ⟨rest, rfl⟩ := h
  rw [List.drop_append_of_le_length (by omega),
    List.take_append_of_le_length (by rw [List.length_drop]; omega)]

theorem persists_bitConverter (w : ℕ) : Persists (bitConverter w) := by
  intro data part p r hpart h
  have hle := hpart.length_le
  unfold bitConverter at h ⊢
  split at h
  · cases h
  · rename_i hin
    rw [not_or] at hin
    rw [if_neg (not_or.mpr ⟨hin.1, by omega⟩)]
    cases hword : readLE part.bytes p.toNatClampNeg w with
    | none => rw [hword] at h; cases h
    | some v =>
        obtain ⟨hfits, hv⟩ := readLE_some_iff.mp hword
        have hread : readLE data.bytes p.toNatClampNeg w = some v := by
          rw [readLE_some_iff, take_drop_of_prefix hpart hfits]
          exact ⟨by omega, hv⟩
        rw [hread]
        rw [hword] at h
        exact h

theorem persists_arraySub (e : NetException) (count : Int32) : Persists (arraySub e count) := by
  intro data part p r hpart h
  have hle := hpart.length_le
  unfold arraySub at h ⊢
  split at h
  · cases h
  · rename_i hin
    rw [not_or, not_or] at hin
    rw [if_neg (not_or.mpr ⟨hin.1, not_or.mpr ⟨hin.2.1, by omega⟩⟩),
      take_drop_of_prefix hpart (by omega)]
    exact h

/-! ### The cursor -/

theorem EndsInside.stays {d : ByteReader α} (h : EndsInside d) : StaysInside d :=
  fun data p v q _ hrun => h data p v q hrun

theorem StaysInside.pure (v : α) : StaysInside (Pure.pure v) := by
  intro data p v' q hp hrun
  obtain rfl : p = q := (Prod.mk.inj (Except.ok.inj hrun)).2
  exact hp

theorem StaysInside.throw (e : NetException) : StaysInside (throw e : ByteReader α) :=
  fun _ _ _ _ _ h => by cases h

theorem StaysInside.bind {d : ByteReader α} {f : α → ByteReader β} (h : StaysInside d)
    (hf : ∀ a, StaysInside (f a)) : StaysInside (d >>= f) := by
  intro data p v q hp hrun
  obtain ⟨a, p', hd, hrest⟩ := bind_eq_ok hrun
  exact hf a data p' v q (h data p a p' hp hd) hrest

theorem StaysInside.ite {c : Prop} [Decidable c] {d d' : ByteReader α} (h : StaysInside d)
    (h' : StaysInside d') : StaysInside (if c then d else d') := by
  split
  · exact h
  · exact h'

theorem StaysInside.many {d : ByteReader α} (h : StaysInside d) (n : ℕ) : StaysInside (many d n) := by
  induction n with
  | zero => exact StaysInside.pure []
  | succ n ih => exact h.bind fun _ => ih.bind fun _ => StaysInside.pure _

/-- Whatever has been read before, the last reader decides. -/
theorem EndsInside.of_last {d : ByteReader α} {f : α → ByteReader β} (hf : ∀ a, EndsInside (f a)) :
    EndsInside (d >>= f) := by
  intro data p v q hrun
  obtain ⟨a, p', -, hrest⟩ := bind_eq_ok hrun
  exact hf a data p' v q hrest

theorem EndsInside.bind {d : ByteReader α} {f : α → ByteReader β} (h : EndsInside d)
    (hf : ∀ a, StaysInside (f a)) : EndsInside (d >>= f) := by
  intro data p v q hrun
  obtain ⟨a, p', hd, hrest⟩ := bind_eq_ok hrun
  exact hf a data p' v q (h data p a p' hd) hrest

theorem inside_add {data : NetBytes} {p i : Int32} (hp : 0 ≤ p.toInt) (hi : 0 ≤ i.toInt)
    (h : p.toInt + i.toInt ≤ data.bytes.length) : Inside data (p + i) := by
  have hlength := data.length_lt
  have hadd : (p + i).toInt = p.toInt + i.toInt := by
    rw [Int32.toInt_add]
    exact Int.bmod_eq_of_le (by omega) (by omega)
  exact ⟨by omega, by omega⟩

/-- A word, and a step over it. -/
theorem endsInside_word {w : ℕ} (hw : w < 2 ^ 31) : EndsInside (do
    let result ← bitConverter w
    increaseOffset (Int32.ofNat w)
    Pure.pure result) := by
  intro data p v q hrun
  obtain ⟨a, p', hword, hrest⟩ := bind_eq_ok hrun
  obtain rfl : p' + Int32.ofNat w = q := (Prod.mk.inj (Except.ok.inj hrest)).2
  have hwidth : (Int32.ofNat w).toInt = w := Int32.toInt_ofNat_of_lt hw
  unfold bitConverter at hword
  split at hword
  · cases hword
  · rename_i hin
    obtain ⟨hnonneg, -⟩ := not_or.mp hin
    rw [Int32.lt_iff_toInt_lt, not_lt] at hnonneg
    cases hread : readLE data.bytes p.toNatClampNeg w with
    | none => rw [hread] at hword; cases hword
    | some x =>
        rw [hread] at hword
        obtain rfl : p = p' := (Prod.mk.inj (Except.ok.inj hword)).2
        obtain ⟨hfits, -⟩ := readLE_some_iff.mp hread
        have hcast : (p.toNatClampNeg : ℤ) = p.toInt := Int.toNat_of_nonneg hnonneg
        exact inside_add hnonneg (by omega) (by omega)

/-- A block, and a step over it. -/
theorem endsInside_block (e : NetException) (count : Int32) (f : List UInt8 → α) : EndsInside (do
    let result ← arraySub e count
    increaseOffset count
    Pure.pure (f result)) := by
  intro data p v q hrun
  obtain ⟨bytes, p', hsub, hrest⟩ := bind_eq_ok hrun
  obtain rfl : p' + count = q := (Prod.mk.inj (Except.ok.inj hrest)).2
  unfold arraySub at hsub
  split at hsub
  · cases hsub
  · rename_i hin
    obtain ⟨hnonneg, hin⟩ := not_or.mp hin
    obtain ⟨hcount, hfits⟩ := not_or.mp hin
    rw [Int32.lt_iff_toInt_lt, not_lt] at hnonneg hcount
    obtain rfl : p = p' := (Prod.mk.inj (Except.ok.inj hsub)).2
    have hcast : (p.toNatClampNeg : ℤ) = p.toInt := Int.toNat_of_nonneg hnonneg
    have hcast' : (count.toNatClampNeg : ℤ) = count.toInt := Int.toNat_of_nonneg hcount
    exact inside_add hnonneg hcount (by omega)

/-- **A part is not enough**: where reading an array goes to its end, reading a smaller part fails. -/
theorem fails_of_prefix {d : ByteReader α} (hpersists : Persists d) (hends : EndsInside d)
    {data part : NetBytes} {p : Int32} {v : α} (hpart : part.bytes <+: data.bytes)
    (hlt : part.bytes.length < data.bytes.length)
    (hrun : d data p = .ok (v, Int32.ofNat data.bytes.length)) : ∃ e, d part p = .error e := by
  cases hcut : d part p with
  | error e => exact ⟨e, rfl⟩
  | ok r =>
      have hwhole := hpersists data part p r hpart hcut
      rw [hrun] at hwhole
      obtain rfl := Except.ok.inj hwhole
      have hinside := hends part p v _ hcut
      have hint : (Int32.ofNat data.bytes.length).toInt = data.bytes.length :=
        Int32.toInt_ofNat_of_lt data.length_lt
      have hle := hinside.2
      omega

end TestExecutor.Library.ByteReader
