import TestExecutor.Library.ByteReader
import TestExecutor.Library.Dictionary
import TestExecutor.Library.Utf16

/-!
# The managed reader of coverage reports

`CoverageDeserializer.fs`: the report that the native side serialized is read from a managed byte
array through a cursor.

* `RawCoverageLocation`, `RawMethodInfo`, `RawCoverageReport`, `RawCoverageReports` — what is
  read;
* `readString`, `deserializeMethodData`, `deserializeDictionary`, `deserializeArray`,
  `deserializeCoverageInfo`, `deserializeCoverageInfoFast`, `deserializeRawReport` — the readers;
* `getRawReports` — the entry point, whose only error is its own message;
* `reportsFromRawReports` — the reports with method ids resolved.
-/

namespace TestExecutor

open TestExecutor.Library TestExecutor.Library.ByteReader

/-! ### What is read -/

structure RawCoverageLocation where
  offset : UInt32
  event : Int32
  methodId : Int32
  threadId : UInt64
  deriving DecidableEq

/-- Strings are lists of UTF-16 code units. -/
structure RawMethodInfo where
  methodToken : UInt32
  moduleName : List UInt16
  assemblyName : List UInt16
  deriving DecidableEq

structure RawCoverageReport where
  threadId : Int32
  rawCoverageLocations : List RawCoverageLocation
  deriving DecidableEq

structure RawCoverageReports where
  methods : Dictionary Int32 RawMethodInfo
  reports : List RawCoverageReport

structure CoverageLocation where
  assemblyName : List UInt16
  moduleName : List UInt16
  methodToken : Int32
  offset : Int32
  deriving DecidableEq

structure CoverageReport where
  threadId : Int32
  coverageLocations : List CoverageLocation
  deriving DecidableEq

/-! ### The readers -/

/-- `BitConverter` at the cursor, then a step over the word. -/
def readWord (w : ℕ) : ByteReader ℕ := do
  let result ← bitConverter w
  increaseOffset (Int32.ofNat w)
  pure result

def readInt32 : ByteReader Int32 := do
  let result ← readWord 4
  pure (Int32.ofNat result)

def readUInt32 : ByteReader UInt32 := do
  let result ← readWord 4
  pure (UInt32.ofNat result)

def readUInt64 : ByteReader UInt64 := do
  let result ← readWord 8
  pure (UInt64.ofNat result)

/-- The stored size counts the terminator, which is skipped. -/
def readString : ByteReader (List UInt16) := do
  let size := (← readUInt32).toInt32
  let result ← arraySub .argument (2 * size - 2)
  increaseOffset (2 * size)
  pure (utf16GetString result)

def deserializeMethodData : ByteReader RawMethodInfo := do
  let methodToken ← readUInt32
  let assemblyName ← readString
  let moduleName ← readString
  pure ⟨methodToken, moduleName, assemblyName⟩

def deserializeCoverageInfo : ByteReader RawCoverageLocation := do
  let offset ← readUInt32
  let event ← readInt32
  let methodId ← readInt32
  let threadId ← readUInt64
  pure ⟨offset, event, methodId, threadId⟩

def deserializeArray {α : Type} (elementDeserializer : ByteReader α) : ByteReader (List α) := do
  let arraySize ← readInt32
  if arraySize < 0 then throw .argument else many elementDeserializer arraySize.toNatClampNeg

/-- The loop of `deserializeDictionary`; `Add` throws on a key that is there already. -/
def addElements {K V : Type} [DecidableEq K] (keyDeserializer : ByteReader K)
    (elementDeserializer : ByteReader V) : ℕ → Dictionary K V → ByteReader (Dictionary K V)
  | 0, dictionary => pure dictionary
  | n + 1, dictionary => do
      let index ← keyDeserializer
      let element ← elementDeserializer
      match dictionary.add index element with
      | none => throw .argument
      | some dictionary => addElements keyDeserializer elementDeserializer n dictionary

/-- The loop runs over `0..dictionarySize - 1`. -/
def deserializeDictionary {K V : Type} [DecidableEq K] (keyDeserializer : ByteReader K)
    (elementDeserializer : ByteReader V) : ByteReader (Dictionary K V) := do
  let dictionarySize ← readInt32
  addElements keyDeserializer elementDeserializer ((dictionarySize - 1).toInt + 1).toNat
    Dictionary.empty

/-- The fields of a `RawCoverageLocation` at their explicit offsets. -/
def castLocation (bytes : List UInt8) : RawCoverageLocation where
  offset := UInt32.ofNat (leNat (bytes.take 4))
  event := Int32.ofNat (leNat ((bytes.drop 4).take 4))
  methodId := Int32.ofNat (leNat ((bytes.drop 8).take 4))
  threadId := UInt64.ofNat (leNat ((bytes.drop 12).take 8))

/-- `sizeof<RawCoverageLocation>`. -/
def sizeofRawCoverageLocation : ℕ := 20

/-- `MemoryMarshal.Cast` of a span to `count` structures. -/
def castLocations : ℕ → List UInt8 → List RawCoverageLocation
  | 0, _ => []
  | count + 1, bytes =>
      castLocation bytes :: castLocations count (bytes.drop sizeofRawCoverageLocation)

def deserializeCoverageInfoFast : ByteReader (List RawCoverageLocation) := do
  let count ← readInt32
  let bytesCount := Int32.ofNat sizeofRawCoverageLocation * count
  -- `Array.zeroCreate` of the size
  if bytesCount < 0 then throw .overflow
  else
    let targetBytes ← arraySub .argumentOutOfRange bytesCount
    increaseOffset bytesCount
    pure (castLocations (targetBytes.length / sizeofRawCoverageLocation) targetBytes)

def deserializeRawReport : ByteReader RawCoverageReport := do
  let threadId ← readInt32
  let threadAborted ← readInt32
  if threadAborted = 1 then pure ⟨threadId, []⟩
  else
    let rawCoverageLocations ← deserializeCoverageInfoFast
    pure ⟨threadId, rawCoverageLocations⟩

def deserializeRawReports : ByteReader RawCoverageReports := do
  let methods ← deserializeDictionary readInt32 deserializeMethodData
  let reports ← deserializeArray deserializeRawReport
  pure ⟨methods, reports⟩

/-- `getRawReports`: the reports, and the cursor where reading stopped. -/
def getRawReports (data : NetBytes) : Except String (RawCoverageReports × Int32) :=
  match deserializeRawReports data 0 with
  | .ok result => .ok result
  | .error _ => .error "CoverageDeserialization failed!"

/-! ### Resolving method ids -/

def toLocation (rawReports : RawCoverageReports) (x : RawCoverageLocation) :
    Except NetException CoverageLocation :=
  match rawReports.methods.lookup x.methodId with
  | none => .error .keyNotFound
  | some method =>
      .ok ⟨method.assemblyName, method.moduleName, method.methodToken.toInt32, x.offset.toInt32⟩

def toReport (rawReports : RawCoverageReports) (x : RawCoverageReport) :
    Except NetException CoverageReport := do
  let coverageLocations ← x.rawCoverageLocations.mapM (toLocation rawReports)
  pure ⟨x.threadId, coverageLocations⟩

def reportsFromRawReports (rawReports : RawCoverageReports) :
    Except NetException (List CoverageReport) :=
  rawReports.reports.mapM (toReport rawReports)

end TestExecutor
