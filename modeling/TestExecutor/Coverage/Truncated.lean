import TestExecutor.Coverage.RoundTrip
import TestExecutor.Library.ReaderPrefix

/-!
# Truncated reports

* `persists_…` — no reader finds in a part of an array what it does not find in the array;
* `endsInside_deserializeRawReports` — the reports are behind the names, whose terminators are skipped
  without being read, and so the cursor ends inside of the array;
* `getRawReports_truncated` — **a part of a report is rejected**.
-/

namespace TestExecutor

open TestExecutor.Library TestExecutor.Library.ByteReader ProfilerState

/-! ### Readers on a part of an array -/

theorem persists_readWord (w : ℕ) : Persists (readWord w) :=
  (persists_bitConverter w).bind fun _ => (persists_increaseOffset _).bind fun _ => Persists.pure _

theorem persists_readInt32 : Persists readInt32 := (persists_readWord 4).bind fun _ => Persists.pure _

theorem persists_readUInt32 : Persists readUInt32 := (persists_readWord 4).bind fun _ => Persists.pure _

theorem persists_readString : Persists readString :=
  persists_readUInt32.bind fun _ => (persists_arraySub _ _).bind fun _ =>
    (persists_increaseOffset _).bind fun _ => Persists.pure _

theorem persists_deserializeMethodData : Persists deserializeMethodData :=
  persists_readUInt32.bind fun _ => persists_readString.bind fun _ =>
    persists_readString.bind fun _ => Persists.pure _

theorem persists_deserializeArray {α : Type} {d : ByteReader α} (h : Persists d) :
    Persists (deserializeArray d) :=
  persists_readInt32.bind fun _ => (Persists.throw _).ite (h.many _)

theorem persists_addElements {K V : Type} [DecidableEq K] {keyDeserializer : ByteReader K}
    {elementDeserializer : ByteReader V} (hkey : Persists keyDeserializer)
    (helement : Persists elementDeserializer) (n : ℕ) : ∀ dictionary : Dictionary K V,
      Persists (addElements keyDeserializer elementDeserializer n dictionary) := by
  induction n with
  | zero => exact fun dictionary => Persists.pure dictionary
  | succ n ih =>
      intro dictionary
      refine hkey.bind fun index => helement.bind fun element => ?_
      cases dictionary.add index element with
      | none => exact Persists.throw _
      | some dictionary => exact ih dictionary

theorem persists_deserializeDictionary {K V : Type} [DecidableEq K] {keyDeserializer : ByteReader K}
    {elementDeserializer : ByteReader V} (hkey : Persists keyDeserializer)
    (helement : Persists elementDeserializer) :
    Persists (deserializeDictionary keyDeserializer elementDeserializer) :=
  persists_readInt32.bind fun _ => persists_addElements hkey helement _ _

theorem persists_deserializeCoverageInfoFast : Persists deserializeCoverageInfoFast :=
  persists_readInt32.bind fun _ => (Persists.throw _).ite ((persists_arraySub _ _).bind fun _ =>
    (persists_increaseOffset _).bind fun _ => Persists.pure _)

theorem persists_deserializeRawReport : Persists deserializeRawReport :=
  persists_readInt32.bind fun _ => persists_readInt32.bind fun _ => (Persists.pure _).ite
    (persists_deserializeCoverageInfoFast.bind fun _ => Persists.pure _)

theorem persists_deserializeRawReports : Persists deserializeRawReports :=
  (persists_deserializeDictionary persists_readInt32 persists_deserializeMethodData).bind fun _ =>
    (persists_deserializeArray persists_deserializeRawReport).bind fun _ => Persists.pure _

/-! ### Where reading ends -/

theorem endsInside_readInt32 : EndsInside readInt32 :=
  (endsInside_word (by decide)).bind fun _ => StaysInside.pure _

theorem staysInside_deserializeCoverageInfoFast : StaysInside deserializeCoverageInfoFast :=
  endsInside_readInt32.stays.bind fun _ => (StaysInside.throw _).ite
    (endsInside_block _ _ fun bytes =>
      castLocations (bytes.length / sizeofRawCoverageLocation) bytes).stays

theorem staysInside_deserializeRawReport : StaysInside deserializeRawReport :=
  endsInside_readInt32.stays.bind fun _ => endsInside_readInt32.stays.bind fun _ =>
    (StaysInside.pure _).ite
      (staysInside_deserializeCoverageInfoFast.bind fun _ => StaysInside.pure _)

/-- Behind the names, the count of the reports is read. -/
theorem endsInside_deserializeRawReports : EndsInside deserializeRawReports :=
  EndsInside.of_last fun _ => EndsInside.bind
    (endsInside_readInt32.bind fun _ =>
      (StaysInside.throw _).ite (staysInside_deserializeRawReport.many _))
    fun _ => StaysInside.pure _

/-! ### Reports -/

/-- **A truncated report is never accepted**, wherever it has been cut off. -/
theorem getRawReports_truncated (s : ProfilerState) (pending : List (Int32 × Option CoverageHistory))
    (hpending : s.serializedCoverage = reportBuffers pending)
    (hnames : ∀ method ∈ s.collectedMethods,
      Terminated method.assemblyName ∧ Terminated method.moduleName)
    (hlength : s.serializeCoverageReport.1.length < 2 ^ 31) (part : NetBytes)
    (hpart : part.bytes <+: s.serializeCoverageReport.1)
    (hcut : part.bytes ≠ s.serializeCoverageReport.1) :
    getRawReports part = .error "CoverageDeserialization failed!" := by
  have hnamed : ∀ el ∈ s.methodsToSerialize,
      Terminated el.2.assemblyName ∧ Terminated el.2.moduleName := by
    intro el hel
    obtain ⟨i, -, hget, -⟩ := ProfilerState.mem_methodsToSerialize.mp hel
    exact hnames el.2 (List.mem_of_getElem? hget)
  have hbytes : (⟨s.serializeCoverageReport.1, hlength⟩ : NetBytes).bytes
      = serializeMethods s.methodsToSerialize
        ++ serializeBuffers (reportBuffers (s.reported pending)) :=
    serializeCoverageReport_bytes hpending
  obtain ⟨dictionary, -, hrun⟩ :=
    getRawReports_decoded ProfilerState.methodsToSerialize_nodup hnamed hbytes
  have hlt : part.bytes.length < s.serializeCoverageReport.1.length :=
    lt_of_le_of_ne hpart.length_le fun heq => hcut (hpart.eq_of_length heq)
  obtain ⟨e, he⟩ := fails_of_prefix persists_deserializeRawReports endsInside_deserializeRawReports
    hpart hlt hrun
  rw [getRawReports, he]

/-- A report that is cut off in the terminator of its last name. -/
theorem getRawReports_truncated_terminator :
    let method : MethodInfo := ⟨0x06000001, 2, [65, 0], 2, [66, 0], rfl, rfl⟩
    let s : ProfilerState := { ProfilerState.init false true with
      collectedMethods := [method]
      visitedMethods := {0} }
    getRawReports ⟨s.serializeCoverageReport.1.take 27, by decide +kernel⟩
      = .error "CoverageDeserialization failed!" := by
  intro method s
  refine getRawReports_truncated s [] rfl ?_ (by decide +kernel) _ (List.take_prefix _ _)
    (by decide +kernel)
  intro m hm
  obtain rfl : m = method := by simpa [s] using hm
  exact ⟨⟨[65], rfl⟩, ⟨[66], rfl⟩⟩

end TestExecutor
