import TestExecutor.Core.ValueBytes

/-!
# `ReinterpretCombine`

A value whose bytes are put together from slices of the bytes of other ones.

* `Slice` — which bytes of a value, and where they go;
* `combineSlices`, `reinterpretCombine` — the loop, and the value that is made of the bytes;
* `combineSlices_eq` — the loop copies blocks;
* `adjacentSlices` — the slices of one value between cuts;
* `reinterpretCombine_bytes` — **each byte is that of the last slice over it**, the order of slices
  apart from each other makes no difference, and the slices of a value make the value.
-/

namespace TestExecutor

open TestExecutor.Library

structure Slice (S : Type) where
  expr : Obj S
  start : Int32
  stop : Int32
  pos : Int32

variable {S T : Type} (rt : Marshalling S T)

/-- The loop over the slices. -/
def combineSlices (resultBytes : List UInt8) : List (Slice S) → Except UnsafeException (List UInt8)
  | [] => .ok resultBytes
  | slice :: slices => do
      let slicingExprBytes ← objectToBytes rt slice.expr
      let resultBytes ← (arrayCopy slicingExprBytes slice.start.toInt resultBytes slice.pos.toInt
        (slice.stop - slice.start).toInt).mapError .net
      combineSlices resultBytes slices

/-- `ReinterpretCombine`. -/
def reinterpretCombine (type : ObjType T) (slices : List (Slice S)) :
    Except UnsafeException (Obj S) := do
  let resultBytes ← combineSlices rt (List.replicate (internalSizeOf rt type) 0) slices
  bytesToObject rt resultBytes type

namespace Slice

/-- The bytes of the result that a slice goes to. -/
def Covers (slice : Slice S) (i : ℕ) : Prop :=
  slice.pos.toInt ≤ i ∧ i < slice.pos.toInt + (slice.stop.toInt - slice.start.toInt)

/-- Slices that go to different bytes. -/
def Apart (s t : Slice S) : Prop :=
  s.pos.toInt + (s.stop.toInt - s.start.toInt) ≤ t.pos.toInt
    ∨ t.pos.toInt + (t.stop.toInt - t.start.toInt) ≤ s.pos.toInt

/-- A slice of bytes that there are, which goes to bytes of a result of size `n`. -/
structure Fits (n : ℕ) (slice : Slice S) (bytes : List UInt8) : Prop where
  encodes : objectToBytes rt slice.expr = .ok bytes
  start : 0 ≤ slice.start.toInt
  stop : slice.start.toInt ≤ slice.stop.toInt
  inside : slice.stop.toInt ≤ bytes.length
  pos : 0 ≤ slice.pos.toInt
  result : slice.pos.toInt + (slice.stop.toInt - slice.start.toInt) ≤ n

/-- A slice as a block of bytes. -/
def block (slice : Slice S) (bytes : List UInt8) : Block UInt8 where
  src := bytes
  start := slice.start.toInt.toNat
  pos := slice.pos.toInt.toNat
  count := (slice.stop.toInt - slice.start.toInt).toNat

variable {rt} {n : ℕ} {slice : Slice S} {bytes : List UInt8}

theorem Fits.length (h : Fits rt n slice bytes) :
    (slice.stop - slice.start).toInt = slice.stop.toInt - slice.start.toInt := by
  have hstart := h.start
  have hstop := h.stop
  have hlt := slice.stop.toInt_lt
  rw [Int32.toInt_sub]
  exact Int.bmod_eq_of_le (by omega) (by omega)

theorem Fits.block_fits (h : Fits rt n slice bytes) : (slice.block bytes).Fits n := by
  obtain ⟨-, hstart, hstop, hinside, hpos, hresult⟩ := h
  refine ⟨?_, ?_⟩ <;> unfold block <;> dsimp only <;> omega

theorem Fits.block_covers (h : Fits rt n slice bytes) (i : ℕ) :
    (slice.block bytes).Covers i ↔ slice.Covers i := by
  obtain ⟨-, hstart, hstop, hinside, hpos, hresult⟩ := h
  unfold block Block.Covers Covers
  dsimp only
  omega

theorem Fits.block_apart {slice' : Slice S} {bytes' : List UInt8} (h : Fits rt n slice bytes)
    (h' : Fits rt n slice' bytes') (hapart : slice.Apart slice') :
    (slice.block bytes).Apart (slice'.block bytes') := by
  obtain ⟨-, hstart, hstop, hinside, hpos, hresult⟩ := h
  obtain ⟨-, hstart', hstop', hinside', hpos', hresult'⟩ := h'
  unfold Apart at hapart
  unfold block Block.Apart
  dsimp only
  omega

variable (rt)

/-- The bytes of the value. -/
def sliced (slice : Slice S) : List UInt8 := (objectToBytes rt slice.expr).toOption.getD []

/-- The slice has bytes, and they have a place in a result of size `n`. -/
def IsWithin (n : ℕ) (slice : Slice S) : Prop := ∃ bytes, slice.Fits rt n bytes

variable {rt}

theorem Fits.sliced_eq (h : Fits rt n slice bytes) : slice.sliced rt = bytes := by
  unfold Slice.sliced
  rw [h.encodes]
  rfl

theorem IsWithin.fits (h : slice.IsWithin rt n) : slice.Fits rt n (slice.sliced rt) := by
  obtain ⟨bytes, hfits⟩ := h
  rw [hfits.sliced_eq]
  exact hfits

end Slice

/-! ### The loop -/

variable {rt} {n : ℕ}

/-- **The loop** copies blocks. -/
theorem combineSlices_eq {slices : List (Slice S)} (h : ∀ slice ∈ slices, slice.IsWithin rt n)
    {resultBytes : List UInt8} (hlength : resultBytes.length = n) :
    combineSlices rt resultBytes slices
      = .ok (copyBlocks resultBytes (slices.map fun slice => slice.block (slice.sliced rt))) := by
  induction slices generalizing resultBytes with
  | nil => rfl
  | cons slice slices ih =>
      have hfits := (h slice List.mem_cons_self).fits
      have hblock := hfits.block_fits
      have hcopy : arrayCopy (slice.sliced rt) slice.start.toInt resultBytes slice.pos.toInt
          (slice.stop - slice.start).toInt
          = .ok (overwrite (slice.sliced rt) slice.start.toInt.toNat resultBytes
            slice.pos.toInt.toNat (slice.stop.toInt - slice.start.toInt).toNat) := by
        have heq := arrayCopy_eq hblock.src (hlength ▸ hblock.dst)
        have hcast : ∀ z : ℤ, 0 ≤ z → (z.toNat : ℤ) = z := fun z hz => Int.toNat_of_nonneg hz
        unfold Slice.block at heq
        dsimp only at heq
        rw [hcast _ hfits.start, hcast _ hfits.pos, hcast _ (by have := hfits.stop; omega)] at heq
        rw [hfits.length]
        exact heq
      rw [combineSlices, hfits.encodes]
      show (Except.mapError UnsafeException.net (arrayCopy (slice.sliced rt) slice.start.toInt
        resultBytes slice.pos.toInt (slice.stop - slice.start).toInt) >>= _) = _
      rw [hcopy]
      exact ih (fun s hs => h s (List.mem_cons_of_mem slice hs))
        ((overwrite_length _ _ _ _ _).trans hlength)

/-- The result has a byte of the last slice over it, and zero where there is none. -/
theorem combineSlices_bytes {slices : List (Slice S)} (h : ∀ slice ∈ slices, slice.IsWithin rt n) :
    ∃ buffer, combineSlices rt (List.replicate n 0) slices = .ok buffer ∧ buffer.length = n
      ∧ (∀ pre slice post bytes i, slices = pre ++ slice :: post →
        objectToBytes rt slice.expr = .ok bytes → slice.Covers i → (∀ s ∈ post, ¬s.Covers i) →
          buffer[i]? = bytes[(slice.start.toInt + (i - slice.pos.toInt)).toNat]?)
      ∧ ∀ i < n, (∀ s ∈ slices, ¬s.Covers i) → buffer[i]? = some 0 := by
  refine ⟨_, combineSlices_eq h List.length_replicate,
    (copyBlocks_length _ _).trans List.length_replicate, ?_, ?_⟩
  · intro pre slice post bytes i hslices hbytes hcovers hpost
    have hfits := (h slice (hslices ▸ List.mem_append_right pre List.mem_cons_self)).fits
    obtain rfl : slice.sliced rt = bytes := Except.ok.inj (hfits.encodes.symm.trans hbytes)
    have hlast : ∀ b ∈ post.map fun s => s.block (s.sliced rt), ¬b.Covers i := by
      intro b hb
      obtain ⟨s, hs, rfl⟩ := List.mem_map.mp hb
      have hs' := (h s (hslices ▸ List.mem_append_right pre (List.mem_cons_of_mem slice hs))).fits
      rw [hs'.block_covers]
      exact hpost s hs
    rw [hslices, List.map_append, List.map_cons,
      getElem?_copyBlocks (List.length_replicate.symm ▸ hfits.block_fits)
        ((hfits.block_covers i).mpr hcovers) hlast]
    have hpos := hfits.pos
    have hstart := hfits.start
    have hle := hcovers.1
    congr 1
    unfold Slice.block
    dsimp only
    omega
  · intro i hi hnone
    rw [getElem?_copyBlocks_of_not, List.getElem?_replicate, if_pos hi]
    intro b hb
    obtain ⟨s, hs, rfl⟩ := List.mem_map.mp hb
    rw [(h s hs).fits.block_covers]
    exact hnone s hs

/-- **The order** of slices that go to different bytes does not matter. -/
theorem combineSlices_perm {slices slices' : List (Slice S)} (hperm : slices.Perm slices')
    (h : ∀ slice ∈ slices, slice.IsWithin rt n) (hapart : slices.Pairwise Slice.Apart) :
    combineSlices rt (List.replicate n 0) slices
      = combineSlices rt (List.replicate n 0) slices' := by
  have h' : ∀ slice ∈ slices', slice.IsWithin rt n := fun slice hs => h slice (hperm.mem_iff.mpr hs)
  rw [combineSlices_eq h List.length_replicate, combineSlices_eq h' List.length_replicate]
  refine congrArg Except.ok (copyBlocks_perm (hperm.map _) ?_ _)
  refine List.pairwise_map.mpr (List.Pairwise.imp_of_mem (fun {s t} hs ht hst => ?_) hapart)
  exact (h s hs).fits.block_apart (h t ht).fits hst

/-! ### Slices of one value -/

/-- Slices of one value that go to where they are from. -/
theorem combineSlices_self {o : Obj S} {bytes : List UInt8} (hbytes : objectToBytes rt o = .ok bytes)
    {slices : List (Slice S)} (hexpr : ∀ s ∈ slices, s.expr = o) (hpos : ∀ s ∈ slices, s.pos = s.start)
    (hbounds : ∀ s ∈ slices, 0 ≤ s.start.toInt ∧ s.start.toInt ≤ s.stop.toInt
      ∧ s.stop.toInt ≤ bytes.length)
    (hcovers : ∀ i < bytes.length, ∃ s ∈ slices, s.Covers i) :
    combineSlices rt (List.replicate bytes.length 0) slices = .ok bytes := by
  have hwithin : ∀ s ∈ slices, s.IsWithin rt bytes.length := by
    intro s hs
    obtain ⟨hstart, hstop, hinside⟩ := hbounds s hs
    refine ⟨bytes, (hexpr s hs).symm ▸ hbytes, hstart, hstop, hinside, ?_, ?_⟩
    · rw [hpos s hs]
      exact hstart
    · rw [hpos s hs]
      omega
  obtain ⟨buffer, hbuffer, hlength, hlast, -⟩ := combineSlices_bytes hwithin
  rw [hbuffer]
  refine congrArg Except.ok (List.ext_getElem? fun i => ?_)
  rcases Nat.lt_or_ge i bytes.length with hi | hi
  · obtain ⟨pre, s, post, hslices, hs, hpost⟩ := exists_last (hcovers i hi)
    have hmem : s ∈ slices := hslices ▸ List.mem_append_right pre List.mem_cons_self
    rw [hlast pre s post bytes i hslices ((hexpr s hmem).symm ▸ hbytes) hs hpost, hpos s hmem]
    congr 1
    omega
  · rw [List.getElem?_eq_none (hlength.trans_le hi), List.getElem?_eq_none hi]

/-- The slices of a value between cuts, each to its own position. -/
def adjacentSlices (o : Obj S) : Int32 → List Int32 → List (Slice S)
  | _, [] => []
  | start, stop :: cuts => ⟨o, start, stop, start⟩ :: adjacentSlices o stop cuts

/-- Cuts in order, from `start` to `stop`. -/
def IsCutTo (stop : Int32) : Int32 → List Int32 → Prop
  | start, [] => start = stop
  | start, cut :: cuts => start.toInt ≤ cut.toInt ∧ IsCutTo stop cut cuts

theorem IsCutTo.le {start stop : Int32} {cuts : List Int32} (h : IsCutTo stop start cuts) :
    start.toInt ≤ stop.toInt := by
  induction cuts generalizing start with
  | nil => exact le_of_eq (congrArg Int32.toInt h)
  | cons cut cuts ih => exact h.1.trans (ih h.2)

theorem mem_adjacentSlices {o : Obj S} {start stop : Int32} {cuts : List Int32}
    (h : IsCutTo stop start cuts) {s : Slice S} (hs : s ∈ adjacentSlices o start cuts) :
    s.expr = o ∧ s.pos = s.start ∧ start.toInt ≤ s.start.toInt ∧ s.start.toInt ≤ s.stop.toInt
      ∧ s.stop.toInt ≤ stop.toInt := by
  induction cuts generalizing start with
  | nil => exact absurd hs List.not_mem_nil
  | cons cut cuts ih =>
      obtain ⟨hle, hcuts⟩ := h
      rcases List.mem_cons.mp hs with rfl | hs
      · exact ⟨rfl, rfl, le_refl _, hle, hcuts.le⟩
      · obtain ⟨hexpr, hpos, hstart, hstop, hlast⟩ := ih hcuts hs
        exact ⟨hexpr, hpos, hle.trans hstart, hstop, hlast⟩

/-- Adjacent slices leave no gap. -/
theorem exists_covers_adjacentSlices (o : Obj S) {start stop : Int32} {cuts : List Int32}
    (h : IsCutTo stop start cuts) {i : ℕ} (hstart : start.toInt ≤ i) (hstop : i < stop.toInt) :
    ∃ s ∈ adjacentSlices o start cuts, s.Covers i := by
  induction cuts generalizing start with
  | nil =>
      obtain rfl : start = stop := h
      omega
  | cons cut cuts ih =>
      rcases lt_or_ge (i : ℤ) cut.toInt with hlt | hge
      · refine ⟨⟨o, start, cut, start⟩, List.mem_cons_self, ?_⟩
        unfold Slice.Covers
        dsimp only
        omega
      · obtain ⟨s, hs, hcovers⟩ := ih h.2 hge
        exact ⟨s, List.mem_cons_of_mem _ hs, hcovers⟩

/-- **A value in slices**: together, in any order, they make the value. -/
theorem reinterpretCombine_adjacentSlices {p : Primitive} {v : PrimitiveValue p}
    (hbytes : primitiveToBytes rt p v = .ok (leBytes p.size v.bits)) {cuts : List Int32}
    (hcuts : IsCutTo (Int32.ofNat p.size) 0 cuts) {slices : List (Slice S)}
    (hperm : slices.Perm (adjacentSlices (.boxed (.primitive p) v) 0 cuts)) :
    reinterpretCombine rt (.value (.primitive p)) slices = .ok (.boxed (.primitive p) v) := by
  have hsize : (Int32.ofNat p.size).toInt = p.size := by cases p <;> rfl
  have hmem : ∀ s ∈ slices, _ := fun s hs => mem_adjacentSlices hcuts (hperm.mem_iff.mp hs)
  have hcombine : combineSlices rt (List.replicate p.size 0) slices = .ok (leBytes p.size v.bits) := by
    have hlength : (leBytes p.size v.bits).length = p.size := leBytes_length _ _
    have hencodes : objectToBytes rt (.boxed (.primitive p) v) = .ok (leBytes p.size v.bits) := hbytes
    have hself : combineSlices rt (List.replicate (leBytes p.size v.bits).length 0) slices
        = .ok (leBytes p.size v.bits) := by
      refine combineSlices_self hencodes (fun s hs => (hmem s hs).1) (fun s hs => (hmem s hs).2.1)
        (fun s hs => ?_) fun i hi => ?_
      · obtain ⟨-, -, hstart, hstop, hlast⟩ := hmem s hs
        rw [hlength]
        rw [hsize] at hlast
        exact ⟨hstart, hstop, hlast⟩
      · rw [hlength] at hi
        have hstop : (i : ℤ) < (Int32.ofNat p.size).toInt := by
          rw [hsize]
          exact_mod_cast hi
        obtain ⟨s, hs, hcovers⟩ := exists_covers_adjacentSlices (.boxed (.primitive p) v) hcuts
          (Int.natCast_nonneg i) hstop
        exact ⟨s, hperm.mem_iff.mpr hs, hcovers⟩
    rwa [hlength] at hself
  show (combineSlices rt (List.replicate p.size 0) slices >>= _) = _
  rw [hcombine]
  show bytesToObject rt (leBytes p.size v.bits) (.value (.primitive p)) = _
  rw [bytesToObject, bytesToValue, bytesToPrimitive_leBytes]
  rfl

/-- **`ReinterpretCombine`**: each byte of the buffer is that of the last slice over it, or zero; slices
apart from each other can come in any order; the slices of a value between cuts make the value, of a
type with a case of its own or one that the marshaller copies. -/
theorem reinterpretCombine_bytes (rt : Marshalling S T) :
    (∀ (n : ℕ) (slices : List (Slice S)), (∀ slice ∈ slices, slice.IsWithin rt n) →
      (∃ buffer, buffer.length = n
        ∧ (∀ type, internalSizeOf rt type = n →
          reinterpretCombine rt type slices = bytesToObject rt buffer type)
        ∧ (∀ pre slice post bytes i, slices = pre ++ slice :: post →
          objectToBytes rt slice.expr = .ok bytes → slice.Covers i → (∀ s ∈ post, ¬s.Covers i) →
            buffer[i]? = bytes[(slice.start.toInt + (i - slice.pos.toInt)).toNat]?)
        ∧ ∀ i < n, (∀ s ∈ slices, ¬s.Covers i) → buffer[i]? = some 0)
      ∧ (slices.Pairwise Slice.Apart → ∀ slices', slices.Perm slices' →
        ∀ type, internalSizeOf rt type = n →
          reinterpretCombine rt type slices' = reinterpretCombine rt type slices))
    ∧ ∀ (p : Primitive) (v : PrimitiveValue p),
      (p.IsDirect ∨ rt.primitiveToBytes p v = .ok (leBytes p.size v.bits)) →
        ∀ cuts, IsCutTo (Int32.ofNat p.size) 0 cuts →
          ∀ slices, slices.Perm (adjacentSlices (.boxed (.primitive p) v) 0 cuts) →
            reinterpretCombine rt (.value (.primitive p)) slices = .ok (.boxed (.primitive p) v) := by
  refine ⟨fun n slices h => ⟨?_, fun hapart slices' hperm type htype => ?_⟩,
    fun p v hdirect cuts hcuts slices hperm => ?_⟩
  · obtain ⟨buffer, hbuffer, hlength, hlast, hzero⟩ := combineSlices_bytes h
    refine ⟨buffer, hlength, fun type htype => ?_, hlast, hzero⟩
    rw [reinterpretCombine, htype, hbuffer]
    rfl
  · rw [reinterpretCombine, reinterpretCombine, htype, combineSlices_perm hperm h hapart]
  · refine reinterpretCombine_adjacentSlices ?_ hcuts hperm
    unfold primitiveToBytes
    split
    · rfl
    · rename_i hnot
      exact hdirect.resolve_left hnot

/-- The halves of `0x01020304`, the second one first. -/
theorem reinterpretCombine_bytes_halves :
    reinterpretCombine noMarshalling (.value (.primitive .int))
      [⟨.boxed (.primitive .int) (⟨0x01020304, by decide⟩ : PrimitiveValue .int), 2, 4, 2⟩,
        ⟨.boxed (.primitive .int) (⟨0x01020304, by decide⟩ : PrimitiveValue .int), 0, 2, 0⟩]
      = .ok (.boxed (.primitive .int) (⟨0x01020304, by decide⟩ : PrimitiveValue .int)) :=
  (reinterpretCombine_bytes noMarshalling).2 .int ⟨0x01020304, by decide⟩ (Or.inl (by decide)) [2, 4]
    ⟨by decide, by decide, rfl⟩ _ (List.Perm.swap _ _ _)

end TestExecutor
