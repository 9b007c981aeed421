import TestExecutor.Coverage.Deserializer
import TestExecutor.Profiler.CoverageTracker

/-!
# Reading back what was serialized

The managed reader applied to the bytes of `serializeCoverageReport`.

* `MethodInfo.toRaw`, `CoverageRecord.toRaw`, `rawReport` — what the reader should make of a
  method, of a record and of a thread's report;
* `reads_readString_terminated`, `reads_methodData`, `reads_coverageInfo`, `reads_rawReport` — one
  lemma per reader, each over the bytes that the native side writes for its value;
* `addNotEntered_serializedCoverage` — the reports of the mapped threads that never entered;
* `getRawReports_serializeCoverageReport` — the whole report is read back, to its end.
-/

namespace TestExecutor

open TestExecutor.Library TestExecutor.Library.ByteReader

/-! ### What should be read -/

/-- A name as the CLR supplies it: well-formed UTF-16 and a terminator. -/
def ClrName (name : List UInt16) : Prop := ∃ text, name = text ++ [0] ∧ WellFormedUtf16 text

/-- A terminator ends the name, which may be anything. -/
def Terminated (name : List UInt16) : Prop := ∃ text, name = text ++ [0]

/-- What the reader makes of the bytes of a name. -/
def decodedName (name : List UInt16) : List UInt16 := utf16GetString (utf16Bytes name.dropLast)

def MethodInfo.decoded (info : MethodInfo) : RawMethodInfo :=
  ⟨info.token, decodedName info.moduleName, decodedName info.assemblyName⟩

/-- The method's token and its names without their terminators. -/
def MethodInfo.toRaw (info : MethodInfo) : RawMethodInfo :=
  ⟨info.token, info.moduleName.dropLast, info.assemblyName.dropLast⟩

def CoverageRecord.toRaw (record : CoverageRecord) : RawCoverageLocation :=
  ⟨record.offset, record.event.value, record.methodId, UInt64.ofNat record.thread.val⟩

/-- The buffers of reports that wait to be serialized. -/
def reportBuffers (reports : List (Int32 × Option CoverageHistory)) : List (List UInt8) :=
  reports.map fun r => reportBuffer r.1 r.2

/-- The report of a thread; the one of an aborted or never started invocation is empty. -/
def rawReport (report : Int32 × Option CoverageHistory) : RawCoverageReport :=
  ⟨report.1, (report.2.elim [] CoverageHistory.records).map CoverageRecord.toRaw⟩

/-! ### Words and names -/

theorem reads_readWord {w v : ℕ} (hw : 0 < w) (hv : v < 256 ^ w) :
    Reads (readWord w) (leBytes w v) v := reads_word w hw v hv

theorem reads_readInt32 (x : Int32) : Reads readInt32 (serializeInt x) x := by
  have hlt : x.toBitVec.toNat < 256 ^ 4 := x.toBitVec.isLt
  have hread := (reads_readWord (by decide) hlt).map Int32.ofNat
  rwa [Int32.ofNat_bitVecToNat] at hread

theorem reads_readUInt32 (x : UInt32) : Reads readUInt32 (serializeUInt32 x) x := by
  have hlt : x.toNat < 256 ^ 4 := x.toNat_lt
  have hread := (reads_readWord (by decide) hlt).map UInt32.ofNat
  rwa [UInt32.ofNat_toNat] at hread

/-- A name is decoded without its terminator. -/
theorem reads_readString_terminated {name : List UInt16} {length : UInt32} (hname : Terminated name)
    (hlength : name.length = length.toNat) :
    Reads readString (serializeUInt32 length ++ serializeWchars name) (decodedName name) := by
  obtain ⟨text, rfl⟩ := hname
  refine Reads.of_bytes_lt fun hbytes => ?_
  refine (reads_readUInt32 length).bind ?_
  have hsize : length.toInt32 = Int32.ofNat (text.length + 1) := by
    rw [List.length_append, List.length_singleton] at hlength
    rw [hlength, ← UInt32.toInt32_ofNat', UInt32.ofNat_toNat]
  have hskip : (2 : Int32) * length.toInt32
      = Int32.ofNat (utf16Bytes text ++ utf16Bytes [0]).length := by
    rw [hsize, List.length_append, utf16Bytes_length, utf16Bytes_length, List.length_singleton,
      show 2 * text.length + 2 * 1 = 2 * (text.length + 1) by ring, Int32.ofNat_mul]
    rfl
  have htake : (2 : Int32) * length.toInt32 - 2 = Int32.ofNat (utf16Bytes text).length := by
    rw [hskip, List.length_append, Int32.ofNat_add]
    exact Int32.add_sub_cancel _ _
  dsimp only
  rw [htake, hskip, serializeWchars, utf16Bytes_append, decodedName, List.dropLast_concat]
  have hlen : (utf16Bytes text ++ utf16Bytes [0]).length < 2 ^ 31 := by
    rw [serializeWchars, utf16Bytes_append, List.length_append] at hbytes
    omega
  exact reads_sub .argument utf16GetString _ _ hlen

theorem ClrName.terminated {name : List UInt16} (h : ClrName name) : Terminated name := by
  obtain ⟨text, hname, -⟩ := h
  exact ⟨text, hname⟩

/-- Well-formed names are read back as they are. -/
theorem ClrName.decodedName_eq {name : List UInt16} (h : ClrName name) :
    decodedName name = name.dropLast := by
  obtain ⟨text, rfl, hwf⟩ := h
  rw [decodedName, List.dropLast_concat, utf16GetString_utf16Bytes text hwf]

theorem reads_methodData {info : MethodInfo} (hassembly : Terminated info.assemblyName)
    (hmodule : Terminated info.moduleName) :
    Reads deserializeMethodData info.serialize info.decoded := by
  rw [MethodInfo.serialize, List.append_assoc]
  refine (reads_readUInt32 info.token).bind ?_
  refine (reads_readString_terminated hassembly info.assemblyName_length).bind ?_
  exact (reads_readString_terminated hmodule info.moduleName_length).map fun moduleName =>
    RawMethodInfo.mk info.token moduleName (decodedName info.assemblyName)

theorem MethodInfo.decoded_eq {info : MethodInfo} (hassembly : ClrName info.assemblyName)
    (hmodule : ClrName info.moduleName) : info.decoded = info.toRaw := by
  rw [decoded, hassembly.decodedName_eq, hmodule.decodedName_eq]
  rfl

/-! ### The two containers -/

/-- A 32-bit count of something that takes part in an array is read as it is. -/
theorem count_toInt {n : ℕ} (h : n < 2 ^ 31) : (Int32.ofNat n).toInt = n :=
  Int32.toInt_ofNat_of_lt h

theorem length_le_flatMap {α : Type} (enc : α → List UInt8) (xs : List α)
    (h : ∀ x ∈ xs, 0 < (enc x).length) : xs.length ≤ (xs.flatMap enc).length := by
  induction xs with
  | nil => simp
  | cons x xs ih =>
      have hhead := h x List.mem_cons_self
      have htail := ih fun y hy => h y (List.mem_cons_of_mem x hy)
      rw [List.flatMap_cons, List.length_append, List.length_cons]
      omega

/-- An array is read back, element after element. -/
theorem reads_deserializeArray {α β : Type} {d : ByteReader α} {enc : β → List UInt8}
    {val : β → α} (xs : List β) (hpos : ∀ x ∈ xs, 0 < (enc x).length)
    (h : ∀ x ∈ xs, Reads d (enc x) (val x)) :
    Reads (deserializeArray d) (serializeInt (Int32.ofNat xs.length) ++ xs.flatMap enc)
      (xs.map val) := by
  refine Reads.of_bytes_lt fun hbytes => ?_
  have hle := length_le_flatMap enc xs hpos
  rw [List.length_append] at hbytes
  have hcount : xs.length < 2 ^ 31 := by omega
  refine (reads_readInt32 _).bind ?_
  rw [if_neg, Int32.toNatClampNeg_ofNat_of_lt hcount]
  · exact Reads.many xs h
  · rw [Int32.lt_iff_toInt_lt, count_toInt hcount]
    simp

theorem reads_addElements {α K V : Type} [DecidableEq K] {keyDeserializer : ByteReader K}
    {elementDeserializer : ByteReader V} {encKey encElement : α → List UInt8} {key : α → K}
    {element : α → V} (xs : List α)
    (hkey : ∀ x ∈ xs, Reads keyDeserializer (encKey x) (key x))
    (helement : ∀ x ∈ xs, Reads elementDeserializer (encElement x) (element x)) :
    ∀ (dictionary result : Dictionary K V),
      dictionary.addAll (xs.map fun x => (key x, element x)) = some result →
      Reads (addElements keyDeserializer elementDeserializer xs.length dictionary)
        (xs.flatMap fun x => encKey x ++ encElement x) result := by
  induction xs with
  | nil =>
      intro dictionary result h
      obtain rfl : dictionary = result := Option.some.inj h
      exact Reads.pure dictionary
  | cons x xs ih =>
      intro dictionary result h
      obtain ⟨next, hadd, hrest⟩ := Option.bind_eq_some_iff.mp h
      have htail := ih (fun y hy => hkey y (List.mem_cons_of_mem x hy))
        (fun y hy => helement y (List.mem_cons_of_mem x hy)) next result hrest
      rw [List.flatMap_cons, List.append_assoc]
      refine (hkey x List.mem_cons_self).bind ?_
      refine (helement x List.mem_cons_self).bind ?_
      rw [hadd]
      exact htail

/-- A dictionary with distinct keys is read back. -/
theorem reads_deserializeDictionary {α K V : Type} [DecidableEq K]
    {keyDeserializer : ByteReader K} {elementDeserializer : ByteReader V}
    {encKey encElement : α → List UInt8} {key : α → K} {element : α → V} (xs : List α)
    (hpos : ∀ x ∈ xs, 0 < (encKey x).length)
    (hkey : ∀ x ∈ xs, Reads keyDeserializer (encKey x) (key x))
    (helement : ∀ x ∈ xs, Reads elementDeserializer (encElement x) (element x))
    {result : Dictionary K V}
    (hresult : Dictionary.empty.addAll (xs.map fun x => (key x, element x)) = some result) :
    Reads (deserializeDictionary keyDeserializer elementDeserializer)
      (serializeInt (Int32.ofNat xs.length) ++ xs.flatMap fun x => encKey x ++ encElement x)
      result := by
  refine Reads.of_bytes_lt fun hbytes => ?_
  have hle := length_le_flatMap (fun x => encKey x ++ encElement x) xs fun x hx => by
    rw [List.length_append]
    exact Nat.add_pos_left (hpos x hx) _
  rw [List.length_append] at hbytes
  have hcount : xs.length < 2 ^ 31 := by omega
  refine (reads_readInt32 _).bind ?_
  have hiterations : ((Int32.ofNat xs.length - 1).toInt + 1).toNat = xs.length := by
    have hsub : (Int32.ofNat xs.length - 1).toInt = (xs.length : ℤ) - 1 := by
      rw [Int32.toInt_sub, count_toInt hcount, Int32.toInt_one]
      exact Int.bmod_eq_of_le (by omega) (by omega)
    rw [hsub]
    omega
  rw [hiterations]
  exact reads_addElements xs hkey helement _ _ hresult

/-! ### Records and reports -/

theorem CoverageRecord.serialize_length (record : CoverageRecord) :
    record.serialize.length = sizeofRawCoverageLocation := by
  simp [CoverageRecord.serialize, serializeUInt32, serializeInt, sizeofRawCoverageLocation]

/-- The explicit field offsets are the ones at which the fields were written. -/
theorem castLocation_serialize (record : CoverageRecord) (rest : List UInt8) :
    castLocation (record.serialize ++ rest) = record.toRaw := by
  have hoffset : leNat (leBytes 4 record.offset.toNat) = record.offset.toNat :=
    leNat_leBytes_of_lt record.offset.toNat_lt
  have hevent : leNat (leBytes 4 record.event.value.toBitVec.toNat)
      = record.event.value.toBitVec.toNat := leNat_leBytes_of_lt record.event.value.toBitVec.isLt
  have hmethod : leNat (leBytes 4 record.methodId.toBitVec.toNat)
      = record.methodId.toBitVec.toNat := leNat_leBytes_of_lt record.methodId.toBitVec.isLt
  have hthread : leNat (leBytes 8 record.thread.val) = record.thread.val :=
    leNat_leBytes_of_lt record.thread.isLt
  simp only [castLocation, CoverageRecord.toRaw, CoverageRecord.serialize, serializeUInt32,
    serializeInt, List.append_assoc]
  have htake : ∀ (w n : ℕ) (bs : List UInt8), (leBytes w n ++ bs).take w = leBytes w n :=
    fun w n bs => List.take_left' (leBytes_length w n)
  have hdrop : ∀ (w n k : ℕ) (bs : List UInt8), (leBytes w n ++ bs).drop (w + k) = bs.drop k := by
    intro w n k bs
    rw [← List.drop_drop, List.drop_left' (leBytes_length w n)]
  rw [htake, hoffset, UInt32.ofNat_toNat, hdrop 4 _ 0, List.drop_zero, htake, hevent,
    Int32.ofNat_bitVecToNat, hdrop 4 _ 4, hdrop 4 _ 0, List.drop_zero, htake, hmethod,
    Int32.ofNat_bitVecToNat, hdrop 4 _ 8, hdrop 4 _ 4, hdrop 4 _ 0, List.drop_zero, htake, hthread]
  rfl

theorem castLocations_serialize (records : List CoverageRecord) :
    castLocations records.length (records.flatMap CoverageRecord.serialize)
      = records.map CoverageRecord.toRaw := by
  induction records with
  | nil => rfl
  | cons record records ih =>
      rw [List.flatMap_cons, List.length_cons, castLocations, castLocation_serialize,
        List.drop_left' record.serialize_length, ih, List.map_cons]

theorem records_bytes_length (records : List CoverageRecord) :
    (records.flatMap CoverageRecord.serialize).length
      = sizeofRawCoverageLocation * records.length := by
  induction records with
  | nil => rfl
  | cons record records ih =>
      rw [List.flatMap_cons, List.length_append, ih, record.serialize_length, List.length_cons]
      ring

/-- The records of a history are read back by reinterpreting their bytes. -/
theorem reads_coverageInfo (history : CoverageHistory) :
    Reads deserializeCoverageInfoFast history.serialize
      (history.records.map CoverageRecord.toRaw) := by
  refine Reads.of_bytes_lt fun hbytes => ?_
  have hlen := records_bytes_length history.records
  rw [CoverageHistory.serialize, List.length_append] at hbytes
  refine (reads_readInt32 _).bind ?_
  have hcount : Int32.ofNat sizeofRawCoverageLocation * Int32.ofNat history.records.length
      = Int32.ofNat (history.records.flatMap CoverageRecord.serialize ++ []).length := by
    rw [← Int32.ofNat_mul, List.append_nil, hlen]
  have hsmall : (history.records.flatMap CoverageRecord.serialize).length < 2 ^ 31 := by omega
  dsimp only
  rw [hcount, List.append_nil, if_neg]
  · have hread := reads_sub .argumentOutOfRange
      (fun bs => castLocations (bs.length / sizeofRawCoverageLocation) bs)
      (history.records.flatMap CoverageRecord.serialize) [] (by simpa using hsmall)
    have hchunks : (history.records.flatMap CoverageRecord.serialize).length
        / sizeofRawCoverageLocation = history.records.length := by
      rw [hlen]
      exact Nat.mul_div_cancel_left _ (by decide)
    rw [hchunks, castLocations_serialize, List.append_nil] at hread
    exact hread
  · rw [Int32.lt_iff_toInt_lt, count_toInt hsmall]
    exact not_lt.mpr (Int.natCast_nonneg _)

theorem reads_rawReport (report : Int32 × Option CoverageHistory) :
    Reads deserializeRawReport (reportBuffer report.1 report.2) (rawReport report) := by
  obtain ⟨threadId, history⟩ := report
  cases history with
  | none =>
      refine (reads_readInt32 threadId).bind ?_
      rw [← List.append_nil (serializeInt 1)]
      exact (reads_readInt32 1).bind (Reads.pure (RawCoverageReport.mk threadId []))
  | some history =>
      refine (reads_readInt32 threadId).bind ?_
      refine (reads_readInt32 0).bind ?_
      rw [if_neg (by decide)]
      exact (reads_coverageInfo history).map (RawCoverageReport.mk threadId)

/-! ### The whole report -/

namespace ProfilerState

/-- The mapped ids that have no report yet, each once and in the order of the mapping. -/
def notEntered : List Int32 → List (ThreadID × Int32) → List Int32
  | _, [] => []
  | reported, mapping :: rest =>
      if mapping.2 ∈ reported then notEntered reported rest
      else mapping.2 :: notEntered (reported ++ [mapping.2]) rest

theorem addNotEntered_serializedCoverage (mappings : List (ThreadID × Int32)) :
    ∀ s : ProfilerState, (addNotEntered mappings s).serializedCoverage
      = s.serializedCoverage
        ++ (notEntered s.serializedCoverageThreadIds mappings).map fun id => reportBuffer id none := by
  induction mappings with
  | nil => intro s; simp [addNotEntered, notEntered]
  | cons mapping rest ih =>
      intro s
      rw [addNotEntered, notEntered]
      split
      · exact ih s
      · rw [ih, List.map_cons, List.append_assoc]
        rfl

/-- Finishing an invocation adds its report to the waiting ones. -/
theorem invocationFinished_pending {s s' : ProfilerState} {thread : ThreadID}
    {pending : List (Int32 × Option CoverageHistory)}
    (hpending : s.serializedCoverage = reportBuffers pending)
    (h : s.invocationFinished thread = .ok s') :
    ∃ history, s'.serializedCoverage
      = reportBuffers (pending ++ [(s.mappedId thread, some history)]) := by
  have hcoverage : ∀ b, (s.profilerAssert .threadStorage b).serializedCoverage
      = s.serializedCoverage := by
    intro b; unfold profilerAssert; split <;> rfl
  have hmapped : ∀ b, (s.profilerAssert .threadStorage b).mappedId thread = s.mappedId thread := by
    intro b; unfold profilerAssert; split <;> rfl
  simp only [invocationFinished] at h
  split at h
  · cases h
  · rename_i history hload
    refine ⟨history, ?_⟩
    rw [← Except.ok.inj h]
    dsimp only
    rw [hcoverage, hmapped, hload, hpending, reportBuffers, reportBuffers, List.map_append]
    rfl

variable (s : ProfilerState)

/-- The reports that `serializeCoverageReport` writes, when `pending` ones are waiting. -/
def reported (pending : List (Int32 × Option CoverageHistory)) :
    List (Int32 × Option CoverageHistory) :=
  pending ++ (notEntered s.serializedCoverageThreadIds s.getMapping).map fun id => (id, none)

variable {s}

/-- The ids of the serialized methods are distinct. -/
theorem methodsToSerialize_nodup : (s.methodsToSerialize.map Prod.fst).Nodup := by
  have hids : s.methodsToSerialize.map Prod.fst
      = (((s.collectedMethods.take (2 ^ 31)).zipIdx.filter
        fun e => Int32.ofNat e.2 ∈ s.visitedMethods).map Prod.snd).map Int32.ofNat := by
    rw [methodsToSerialize, List.map_map, List.map_map]
    rfl
  have hindices : (((s.collectedMethods.take (2 ^ 31)).zipIdx.filter
      fun e => Int32.ofNat e.2 ∈ s.visitedMethods).map Prod.snd).Nodup := by
    refine List.Nodup.sublist (List.filter_sublist.map Prod.snd) ?_
    rw [List.zipIdx_map_snd]
    exact List.nodup_range'
  rw [hids]
  refine hindices.map_on fun i hi j hj hij => ?_
  have hbound : ∀ k ∈ ((s.collectedMethods.take (2 ^ 31)).zipIdx.filter
      fun e => Int32.ofNat e.2 ∈ s.visitedMethods).map Prod.snd, k < 2 ^ 31 := by
    intro k hk
    obtain ⟨e, he, rfl⟩ := List.mem_map.mp hk
    have hmem := (List.mem_filter.mp he).1
    have hlt := List.snd_lt_of_mem_zipIdx hmem
    rw [List.length_take] at hlt
    omega
  have hcast := congrArg Int32.toInt hij
  rw [count_toInt (hbound i hi), count_toInt (hbound j hj)] at hcast
  exact_mod_cast hcast

theorem mem_methodsToSerialize {id : Int32} {method : MethodInfo} :
    (id, method) ∈ s.methodsToSerialize ↔ ∃ i, i < 2 ^ 31 ∧ s.collectedMethods[i]? = some method
      ∧ id = Int32.ofNat i ∧ id ∈ s.visitedMethods := by
  rw [methodsToSerialize, List.mem_map]
  constructor
  · rintro ⟨⟨m, i⟩, hmem, heq⟩
    obtain ⟨rfl, rfl⟩ : Int32.ofNat i = id ∧ m = method := by simpa using heq
    obtain ⟨hzip, hvisited⟩ := List.mem_filter.mp hmem
    have hget := List.mk_mem_zipIdx_iff_getElem?.mp hzip
    rw [List.getElem?_take] at hget
    split at hget
    · rename_i hlt
      exact ⟨i, hlt, hget, rfl, by simpa using hvisited⟩
    · cases hget
  · rintro ⟨i, hlt, hget, rfl, hvisited⟩
    refine ⟨(method, i), List.mem_filter.mpr ⟨?_, by simpa using hvisited⟩, rfl⟩
    rw [List.mk_mem_zipIdx_iff_getElem?, List.getElem?_take, if_pos hlt]
    exact hget

end ProfilerState

open ProfilerState

/-- A method table and reports are read from their bytes, to their end. -/
theorem getRawReports_decoded {methods : List (Int32 × MethodInfo)}
    {reports : List (Int32 × Option CoverageHistory)} (hkeys : (methods.map Prod.fst).Nodup)
    (hnames : ∀ el ∈ methods, Terminated el.2.assemblyName ∧ Terminated el.2.moduleName)
    {data : NetBytes}
    (hdata : data.bytes = serializeMethods methods ++ serializeBuffers (reportBuffers reports)) :
    ∃ dictionary, dictionary.entries = methods.map (fun el => (el.1, el.2.decoded))
      ∧ deserializeRawReports data 0
        = .ok (⟨dictionary, reports.map rawReport⟩, Int32.ofNat data.bytes.length) := by
  obtain ⟨dictionary, hadd, hentries⟩ := Dictionary.addAll_eq_some
    (methods.map fun el => (el.1, el.2.decoded)) Dictionary.empty (by
      rw [Dictionary.empty, List.nil_append, List.map_map]
      exact hkeys)
  have hmethods : Reads (deserializeDictionary readInt32 deserializeMethodData)
      (serializeMethods methods) dictionary :=
    reads_deserializeDictionary methods (fun el _ => by simp [serializeInt])
      (fun el _ => reads_readInt32 el.1)
      (fun el hel => reads_methodData (hnames el hel).1 (hnames el hel).2) hadd
  have hreports : Reads (deserializeArray deserializeRawReport)
      (serializeBuffers (reportBuffers reports)) (reports.map rawReport) := by
    rw [serializeBuffers, reportBuffers, List.length_map, ← List.flatMap_def]
    refine reads_deserializeArray _ (fun r _ => ?_) fun r _ => reads_rawReport r
    cases hr : r.2 <;> simp [reportBuffer, serializeInt]
  have hall : Reads deserializeRawReports
      (serializeMethods methods ++ serializeBuffers (reportBuffers reports))
      ⟨dictionary, reports.map rawReport⟩ :=
    hmethods.bind (hreports.map (RawCoverageReports.mk dictionary))
  have hrun := hall data [] [] (by rw [hdata]; simp)
  refine ⟨dictionary, hentries, ?_⟩
  rw [← hdata, List.length_nil, Nat.zero_add] at hrun
  exact hrun

/-- A method table and reports are read back from their bytes. -/
theorem getRawReports_of_bytes {methods : List (Int32 × MethodInfo)}
    {reports : List (Int32 × Option CoverageHistory)} (hkeys : (methods.map Prod.fst).Nodup)
    (hnames : ∀ el ∈ methods, ClrName el.2.assemblyName ∧ ClrName el.2.moduleName)
    {data : NetBytes}
    (hdata : data.bytes = serializeMethods methods ++ serializeBuffers (reportBuffers reports)) :
    ∃ dictionary, dictionary.entries = methods.map (fun el => (el.1, el.2.toRaw))
      ∧ getRawReports data
        = .ok (⟨dictionary, reports.map rawReport⟩, Int32.ofNat data.bytes.length) := by
  obtain ⟨dictionary, hentries, hrun⟩ := getRawReports_decoded hkeys
    (fun el hel => ⟨(hnames el hel).1.terminated, (hnames el hel).2.terminated⟩) hdata
  refine ⟨dictionary, ?_, by rw [getRawReports, hrun]⟩
  rw [hentries]
  refine List.map_congr_left fun el hel => ?_
  rw [MethodInfo.decoded_eq (hnames el hel).1 (hnames el hel).2]

/-- What `serializeCoverageReport` writes, when `pending` reports are waiting. -/
theorem serializeCoverageReport_bytes {s : ProfilerState}
    {pending : List (Int32 × Option CoverageHistory)}
    (hpending : s.serializedCoverage = reportBuffers pending) :
    s.serializeCoverageReport.1 = serializeMethods s.methodsToSerialize
      ++ serializeBuffers (reportBuffers (s.reported pending)) := by
  have hbuffers : (addNotEntered s.getMapping s).serializedCoverage
      = reportBuffers (s.reported pending) := by
    rw [addNotEntered_serializedCoverage, hpending, reported, reportBuffers, reportBuffers,
      List.map_append, List.map_map]
    rfl
  rw [← hbuffers]
  rfl

/-- **Decoding undoes encoding.**  From the bytes of any report the reader succeeds, stops at the
end of the array, and returns the visited methods under their ids and the reports in order. -/
theorem getRawReports_serializeCoverageReport (s : ProfilerState)
    (pending : List (Int32 × Option CoverageHistory))
    (hpending : s.serializedCoverage = reportBuffers pending)
    (hnames : ∀ method ∈ s.collectedMethods, ClrName method.assemblyName ∧ ClrName method.moduleName)
    (data : NetBytes) (hdata : data.bytes = s.serializeCoverageReport.1) :
    ∃ result, getRawReports data = .ok (result, Int32.ofNat data.bytes.length)
      ∧ (∀ id info, result.methods.lookup id = some info
        ↔ ∃ i method, i < 2 ^ 31 ∧ s.collectedMethods[i]? = some method ∧ id = Int32.ofNat i
          ∧ id ∈ s.visitedMethods ∧ info = method.toRaw)
      ∧ result.reports = (s.reported pending).map rawReport := by
  have hnamed : ∀ el ∈ s.methodsToSerialize,
      ClrName el.2.assemblyName ∧ ClrName el.2.moduleName := by
    rintro ⟨id, method⟩ hel
    obtain ⟨i, -, hget, -⟩ := mem_methodsToSerialize.mp hel
    exact hnames method (List.mem_of_getElem? hget)
  have hbytes : data.bytes = serializeMethods s.methodsToSerialize
      ++ serializeBuffers (reportBuffers (s.reported pending)) :=
    hdata.trans (serializeCoverageReport_bytes hpending)
  obtain ⟨methods, hentries, hrun⟩ :=
    getRawReports_of_bytes methodsToSerialize_nodup hnamed hbytes
  refine ⟨⟨methods, (s.reported pending).map rawReport⟩, hrun, ?_, rfl⟩
  · intro id info
    rw [Dictionary.lookup_eq_some_iff, hentries, List.mem_map]
    constructor
    · rintro ⟨⟨id', method⟩, hel, heq⟩
      obtain ⟨rfl, rfl⟩ : id' = id ∧ method.toRaw = info := by simpa using heq
      obtain ⟨i, hlt, hget, hid, hvisited⟩ := mem_methodsToSerialize.mp hel
      exact ⟨i, method, hlt, hget, hid, hvisited, rfl⟩
    · rintro ⟨i, method, hlt, hget, hid, hvisited, rfl⟩
      exact ⟨(id, method), mem_methodsToSerialize.mpr ⟨i, hlt, hget, hid, hvisited⟩, rfl⟩

/-- A visited method, an unvisited one, a finished invocation and a mapped thread that never
entered. -/
theorem getRawReports_serializeCoverageReport_example :
    let method : MethodInfo := ⟨0x06000001, 2, [65, 0], 2, [66, 0], rfl, rfl⟩
    let history : CoverageHistory := .new 3 0 1
    let s : ProfilerState := { ProfilerState.init false true with
      collectedMethods := [method, method]
      visitedMethods := {1}
      threadIdMapping := OrderedMap.empty.insert 4 9
      serializedCoverage := [reportBuffer 0 (some history)] }
    let data : NetBytes := ⟨s.serializeCoverageReport.1, by decide⟩
    ∃ result, getRawReports data = .ok (result, Int32.ofNat data.bytes.length)
      ∧ (∀ id info, result.methods.lookup id = some info
        ↔ ∃ i method, i < 2 ^ 31 ∧ s.collectedMethods[i]? = some method ∧ id = Int32.ofNat i
          ∧ id ∈ s.visitedMethods ∧ info = method.toRaw)
      ∧ result.reports = (s.reported [(0, some history)]).map rawReport := by
  intro method history s data
  refine getRawReports_serializeCoverageReport s [(0, some history)] rfl ?_ data rfl
  intro m hm
  obtain rfl : m = method := by simpa [s] using hm
  exact ⟨⟨[65], rfl, rfl⟩, ⟨[66], rfl, rfl⟩⟩

end TestExecutor
