import TestExecutor.Library.LittleEndian

/-!
# Reading an array through a cursor

A managed byte array, whose length is a 32-bit signed integer, read through a cursor of the same
type; a read past the end throws.

* `NetBytes` — such an array;
* `ByteReader` — code that moves the cursor over it, a monad;
* `bitConverter`, `increaseOffset`, `arraySub`, `many` — the primitive readers;
* `Reads d bytes v` — wherever the array holds `bytes`, `d` reads `v` and stops behind them;
* `Reads.pure`, `Reads.bind`, `Reads.many`, `reads_word`, … — the rules that compose readers.
-/

namespace TestExecutor.Library

/-- An array of bytes of a managed runtime. -/
structure NetBytes where
  bytes : List UInt8
  length_lt : bytes.length < 2 ^ 31

/-- What a reader can throw. -/
inductive NetException where
  | argument | argumentOutOfRange | overflow | keyNotFound
  deriving DecidableEq, Repr

/-- From an array and a cursor to a value and the next cursor. -/
def ByteReader (α : Type) : Type := NetBytes → Int32 → Except NetException (α × Int32)

namespace ByteReader

variable {α β : Type}

instance : Monad ByteReader where
  pure a := fun _ p => .ok (a, p)
  bind d f := fun data p =>
    match d data p with
    | .error e => .error e
    | .ok (a, p') => f a data p'

def throw (e : NetException) : ByteReader α := fun _ _ => .error e

/-- Moves the cursor, modulo `2 ^ 32`. -/
def increaseOffset (i : Int32) : ByteReader Unit := fun _ p => .ok ((), p + i)

/-- The word of `w` bytes at the cursor, which stays. -/
def bitConverter (w : ℕ) : ByteReader ℕ := fun data p =>
  if p < 0 ∨ data.bytes.length ≤ p.toNatClampNeg then .error .argumentOutOfRange
  else
    match readLE data.bytes p.toNatClampNeg w with
    | none => .error .argument
    | some v => .ok (v, p)

/-- The `count` bytes at the cursor, which stays; outside the array, the exception `e`. -/
def arraySub (e : NetException) (count : Int32) : ByteReader (List UInt8) := fun data p =>
  if p < 0 ∨ count < 0 ∨ data.bytes.length < p.toNatClampNeg + count.toNatClampNeg then
    .error e
  else .ok ((data.bytes.drop p.toNatClampNeg).take count.toNatClampNeg, p)

/-- `n` times the same reader. -/
def many (d : ByteReader α) : ℕ → ByteReader (List α)
  | 0 => pure []
  | n + 1 => do
      let a ← d
      let as ← many d n
      pure (a :: as)

theorem bind_of_ok {d : ByteReader α} {f : α → ByteReader β} {data : NetBytes} {p p' : Int32}
    {a : α} (h : d data p = .ok (a, p')) : (d >>= f) data p = f a data p' := by
  show (match d data p with
    | .error e => Except.error e
    | .ok (a, p') => f a data p') = f a data p'
  rw [h]

theorem bind_of_error {d : ByteReader α} {f : α → ByteReader β} {data : NetBytes} {p : Int32}
    {e : NetException} (h : d data p = .error e) : (d >>= f) data p = .error e := by
  show (match d data p with
    | .error e => Except.error e
    | .ok (a, p') => f a data p') = .error e
  rw [h]

/-- What two readers in sequence have read. -/
theorem bind_eq_ok {d : ByteReader α} {f : α → ByteReader β} {data : NetBytes} {p : Int32}
    {r : β × Int32} (h : (d >>= f) data p = .ok r) :
    ∃ a p', d data p = .ok (a, p') ∧ f a data p' = .ok r := by
  cases hd : d data p with
  | error e => rw [bind_of_error hd] at h; cases h
  | ok ap =>
      obtain ⟨a, p'⟩ := ap
      rw [bind_of_ok hd] at h
      exact ⟨a, p', rfl, h⟩

/-- **Reading back**: wherever the array holds `bytes`, the reader returns `v` and leaves the
cursor behind them. -/
def Reads (d : ByteReader α) (bytes : List UInt8) (v : α) : Prop :=
  ∀ (data : NetBytes) (before after : List UInt8), data.bytes = before ++ (bytes ++ after) →
    d data (Int32.ofNat before.length)
      = .ok (v, Int32.ofNat (before.length + bytes.length))

theorem Reads.pure (v : α) : Reads (Pure.pure v) [] v := fun _ _ _ _ => rfl

/-- Two readers in sequence read two byte strings in sequence. -/
theorem Reads.bind {d : ByteReader α} {f : α → ByteReader β} {bytes₁ bytes₂ : List UInt8} {a : α}
    {b : β} (h₁ : Reads d bytes₁ a) (h₂ : Reads (f a) bytes₂ b) :
    Reads (d >>= f) (bytes₁ ++ bytes₂) b := by
  intro data before after hdata
  have hfirst := h₁ data before (bytes₂ ++ after) (by rw [hdata, List.append_assoc])
  have hsecond := h₂ data (before ++ bytes₁) after (by rw [hdata]; simp)
  rw [List.length_append] at hsecond
  rw [bind_of_ok hfirst, hsecond, List.length_append, Nat.add_assoc]

/-- A reader followed by a function of what it read. -/
theorem Reads.map {d : ByteReader α} {bytes : List UInt8} {a : α} (h : Reads d bytes a)
    (f : α → β) : Reads (d >>= fun a => Pure.pure (f a)) bytes (f a) := by
  have hbind : Reads (d >>= fun a => Pure.pure (f a)) (bytes ++ []) (f a) :=
    Reads.bind h (Reads.pure (f a))
  rwa [List.append_nil] at hbind

/-- A loop reads the bytes of a list, element after element. -/
theorem Reads.many {d : ByteReader α} {enc : β → List UInt8} {val : β → α} (xs : List β)
    (h : ∀ x ∈ xs, Reads d (enc x) (val x)) :
    Reads (many d xs.length) (xs.flatMap enc) (xs.map val) := by
  induction xs with
  | nil => exact Reads.pure []
  | cons x xs ih =>
      have hhead := h x List.mem_cons_self
      have htail := ih fun y hy => h y (List.mem_cons_of_mem x hy)
      exact hhead.bind (htail.map fun as => val x :: as)

/-- The bytes that a reader consumes are part of an array, so there are less than `2 ^ 31`. -/
theorem Reads.of_bytes_lt {d : ByteReader α} {bytes : List UInt8} {v : α}
    (h : bytes.length < 2 ^ 31 → Reads d bytes v) : Reads d bytes v := by
  intro data before after hdata
  refine h ?_ data before after hdata
  have hlt := data.length_lt
  rw [hdata, List.length_append, List.length_append] at hlt
  omega

theorem cursor_toNat {data : NetBytes} {before rest : List UInt8}
    (hdata : data.bytes = before ++ rest) :
    (Int32.ofNat before.length).toNatClampNeg = before.length ∧ 0 ≤ Int32.ofNat before.length := by
  have hlt : before.length < 2 ^ 31 := by
    have hlen := data.length_lt
    rw [hdata, List.length_append] at hlen
    omega
  refine ⟨Int32.toNatClampNeg_ofNat_of_lt hlt, ?_⟩
  rw [Int32.le_iff_toInt_le, Int32.toInt_ofNat_of_lt hlt]
  simp

/-- Moving the cursor over bytes of the array. -/
theorem increaseOffset_ofNat (data : NetBytes) (p k : ℕ) :
    increaseOffset (Int32.ofNat k) data (Int32.ofNat p) = .ok ((), Int32.ofNat (p + k)) := by
  rw [increaseOffset, Int32.ofNat_add]

/-- Reading a word and stepping over it. -/
theorem reads_word (w : ℕ) (hw : 0 < w) (v : ℕ) (hv : v < 256 ^ w) :
    Reads (do
      let result ← bitConverter w
      increaseOffset (Int32.ofNat w)
      Pure.pure result) (leBytes w v) v := by
  intro data before after hdata
  obtain ⟨hcursor, hnonneg⟩ := cursor_toNat hdata
  have hlen : before.length < data.bytes.length := by rw [hdata]; simp [hw]
  have hword : bitConverter w data (Int32.ofNat before.length)
      = .ok (v, Int32.ofNat before.length) := by
    rw [bitConverter, if_neg (by rw [hcursor]; exact not_or.mpr ⟨by simpa using hnonneg, by omega⟩),
      hcursor, hdata, readLE_append_of_lt before after hv]
  rw [bind_of_ok hword, bind_of_ok (increaseOffset_ofNat data before.length w), leBytes_length]
  rfl

/-- Using a prefix of some bytes and stepping over all of them. -/
theorem reads_sub (e : NetException) (f : List UInt8 → α) (taken skipped : List UInt8)
    (hlen : (taken ++ skipped).length < 2 ^ 31) :
    Reads (do
      let result ← arraySub e (Int32.ofNat taken.length)
      increaseOffset (Int32.ofNat (taken ++ skipped).length)
      Pure.pure (f result)) (taken ++ skipped) (f taken) := by
  intro data before after hdata
  obtain ⟨hcursor, hnonneg⟩ := cursor_toNat hdata
  have htaken : taken.length < 2 ^ 31 := by rw [List.length_append] at hlen; omega
  have hcount := Int32.toNatClampNeg_ofNat_of_lt htaken
  have hcount_nonneg : 0 ≤ Int32.ofNat taken.length := by
    rw [Int32.le_iff_toInt_le, Int32.toInt_ofNat_of_lt htaken]
    simp
  have hsub : arraySub e (Int32.ofNat taken.length) data (Int32.ofNat before.length)
      = .ok (taken, Int32.ofNat before.length) := by
    have hfits : ¬data.bytes.length < before.length + taken.length := by rw [hdata]; simp
    rw [arraySub, hcursor, hcount, if_neg]
    · rw [hdata, List.drop_left, List.append_assoc, List.take_left]
    · exact not_or.mpr ⟨by simpa using hnonneg, not_or.mpr ⟨by simpa using hcount_nonneg, hfits⟩⟩
  rw [bind_of_ok hsub, bind_of_ok (increaseOffset_ofNat data before.length _)]
  rfl

end ByteReader

end TestExecutor.Library
