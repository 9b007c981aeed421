import TestExecutor.Coverage.Deserializer
import TestExecutor.Library.Interleaved

/-!
# The cursor of concurrent requests

`CoverageDeserializer.fs` keeps the array that it reads and the cursor in two variables of the module.
One service answers all requests, and it answers them concurrently: each of them reads its own report
through the same two variables, which nothing guards.

* `Cursor` — the variables; an access to one of them is one step;
* `CoverageDeserializer.getRawReports` — the readers again, step by step;
* `Performs`, `alone_getRawReports` — alone, they read what the readers of an array read;
* `deserializations_alone` — so they do when no call starts while another one is under way;
* `deserializations_mixed` — two calls of which one starts inside of the other.
-/

namespace TestExecutor

open TestExecutor.Library

/-- `data` and `dataOffset`. -/
structure Cursor where
  data : NetBytes
  dataOffset : Int32

namespace CoverageDeserializer

/-! ### The readers, step by step -/

def increaseOffset (i : Int32) : Program Cursor NetException Unit := do
  let dataOffset ← Program.get Cursor.dataOffset
  Program.modify fun c => { c with dataOffset := dataOffset + i }

/-- What is at the cursor; the array is loaded first. -/
def atCursor {α : Type} (d : ByteReader α) : Program Cursor NetException α := do
  let data ← Program.get Cursor.data
  let dataOffset ← Program.get Cursor.dataOffset
  match d data dataOffset with
  | .ok (a, _) => pure a
  | .error e => Program.throw e

def readWord (w : ℕ) : Program Cursor NetException ℕ := do
  let result ← atCursor (ByteReader.bitConverter w)
  increaseOffset (Int32.ofNat w)
  pure result

def readInt32 : Program Cursor NetException Int32 := do
  let result ← readWord 4
  pure (Int32.ofNat result)

def readUInt32 : Program Cursor NetException UInt32 := do
  let result ← readWord 4
  pure (UInt32.ofNat result)

def readString : Program Cursor NetException (List UInt16) := do
  let size := (← readUInt32).toInt32
  let result ← atCursor (ByteReader.arraySub .argument (2 * size - 2))
  increaseOffset (2 * size)
  pure (utf16GetString result)

def deserializeMethodData : Program Cursor NetException RawMethodInfo := do
  let methodToken ← readUInt32
  let assemblyName ← readString
  let moduleName ← readString
  pure ⟨methodToken, moduleName, assemblyName⟩

def deserializeArray {α : Type} (elementDeserializer : Program Cursor NetException α) :
    Program Cursor NetException (List α) := do
  let arraySize ← readInt32
  if arraySize < 0 then Program.throw .argument
  else Program.many elementDeserializer arraySize.toNatClampNeg

def addElements {K V : Type} [DecidableEq K] (keyDeserializer : Program Cursor NetException K)
    (elementDeserializer : Program Cursor NetException V) :
    ℕ → Dictionary K V → Program Cursor NetException (Dictionary K V)
  | 0, dictionary => pure dictionary
  | n + 1, dictionary => do
      let index ← keyDeserializer
      let element ← elementDeserializer
      match dictionary.add index element with
      | none => Program.throw .argument
      | some dictionary => addElements keyDeserializer elementDeserializer n dictionary

def deserializeDictionary {K V : Type} [DecidableEq K]
    (keyDeserializer : Program Cursor NetException K)
    (elementDeserializer : Program Cursor NetException V) :
    Program Cursor NetException (Dictionary K V) := do
  let dictionarySize ← readInt32
  addElements keyDeserializer elementDeserializer ((dictionarySize - 1).toInt + 1).toNat
    Dictionary.empty

def deserializeCoverageInfoFast : Program Cursor NetException (List RawCoverageLocation) := do
  let count ← readInt32
  let bytesCount := Int32.ofNat sizeofRawCoverageLocation * count
  if bytesCount < 0 then Program.throw .overflow
  else
    let targetBytes ← atCursor (ByteReader.arraySub .argumentOutOfRange bytesCount)
    increaseOffset bytesCount
    pure (castLocations (targetBytes.length / sizeofRawCoverageLocation) targetBytes)

def deserializeRawReport : Program Cursor NetException RawCoverageReport := do
  let threadId ← readInt32
  let threadAborted ← readInt32
  if threadAborted = 1 then pure ⟨threadId, []⟩
  else
    let rawCoverageLocations ← deserializeCoverageInfoFast
    pure ⟨threadId, rawCoverageLocations⟩

def deserializeRawReports : Program Cursor NetException RawCoverageReports := do
  let methods ← deserializeDictionary readInt32 deserializeMethodData
  let reports ← deserializeArray deserializeRawReport
  pure ⟨methods, reports⟩

def startNewDeserialization (bytes : NetBytes) : Program Cursor NetException Unit := do
  Program.modify fun c => { c with data := bytes }
  Program.modify fun c => { c with dataOffset := 0 }

/-- `failwith` in the handler of all exceptions. -/
def failed : NetException → String := fun _ => "CoverageDeserialization failed!"

def getRawReports (bytes : NetBytes) : Program Cursor String RawCoverageReports :=
  Program.mapError failed do
    startNewDeserialization bytes
    deserializeRawReports

/-! ### Alone -/

variable {α β : Type}

/-- Alone, the program reads what the reader reads. -/
def Performs (p : Program Cursor NetException α) (d : ByteReader α) : Prop :=
  ∀ data o, match d data o with
    | .ok (a, o') => p.alone ⟨data, o⟩ = (.ok a, ⟨data, o'⟩)
    | .error e => (p.alone ⟨data, o⟩).1 = .error e

theorem Performs.of_ok {p : Program Cursor NetException α} {d : ByteReader α} (h : Performs p d)
    {data : NetBytes} {o o' : Int32} {a : α} (hd : d data o = .ok (a, o')) :
    p.alone ⟨data, o⟩ = (.ok a, ⟨data, o'⟩) := by
  have hp := h data o
  rw [hd] at hp
  exact hp

theorem Performs.of_error {p : Program Cursor NetException α} {d : ByteReader α} (h : Performs p d)
    {data : NetBytes} {o : Int32} {e : NetException} (hd : d data o = .error e) :
    (p.alone ⟨data, o⟩).1 = .error e := by
  have hp := h data o
  rw [hd] at hp
  exact hp

theorem Performs.pure (a : α) : Performs (Pure.pure a) (Pure.pure a) := fun _ _ => rfl

theorem Performs.throw (e : NetException) :
    Performs (Program.throw e : Program Cursor NetException α) (ByteReader.throw e) := fun _ _ => rfl

theorem Performs.bind {p : Program Cursor NetException α} {d : ByteReader α}
    {f : α → Program Cursor NetException β} {g : α → ByteReader β} (h : Performs p d)
    (hf : ∀ a, Performs (f a) (g a)) : Performs (p >>= f) (d >>= g) := by
  intro data o
  cases hd : d data o with
  | error e =>
      rw [ByteReader.bind_of_error hd]
      exact Program.alone_bind_of_error (h.of_error hd)
  | ok r =>
      obtain ⟨a, o'⟩ := r
      rw [ByteReader.bind_of_ok hd, Program.alone_bind_of_ok (h.of_ok hd)]
      exact hf a data o'

theorem Performs.ite {c : Prop} [Decidable c] {p p' : Program Cursor NetException α}
    {d d' : ByteReader α} (h : Performs p d) (h' : Performs p' d') :
    Performs (if c then p else p') (if c then d else d') := by
  split
  · exact h
  · exact h'

theorem Performs.many {p : Program Cursor NetException α} {d : ByteReader α} (h : Performs p d)
    (n : ℕ) : Performs (Program.many p n) (ByteReader.many d n) := by
  induction n with
  | zero => exact Performs.pure []
  | succ n ih => exact h.bind fun _ => ih.bind fun _ => Performs.pure _

theorem performs_increaseOffset (i : Int32) :
    Performs (increaseOffset i) (ByteReader.increaseOffset i) := fun _ _ => rfl

/-- A reader that leaves the cursor where it is. -/
theorem performs_atCursor {d : ByteReader α}
    (h : ∀ data o r, d data o = .ok r → r.2 = o) : Performs (atCursor d) d := by
  intro data o
  have halone : (atCursor d).alone ⟨data, o⟩ = (match d data o with
      | .ok (a, _) => Pure.pure a
      | .error e => Program.throw e : Program Cursor NetException α).alone ⟨data, o⟩ := rfl
  cases hd : d data o with
  | error e =>
      dsimp only
      rw [halone, hd]
      rfl
  | ok r =>
      obtain ⟨a, o'⟩ := r
      obtain rfl : o' = o := h data o _ hd
      dsimp only
      rw [halone, hd]
      rfl

theorem performs_bitConverter (w : ℕ) :
    Performs (atCursor (ByteReader.bitConverter w)) (ByteReader.bitConverter w) := by
  refine performs_atCursor fun data o r hr => ?_
  unfold ByteReader.bitConverter at hr
  split at hr
  · cases hr
  · split at hr
    · cases hr
    · exact (congrArg Prod.snd (Except.ok.inj hr)).symm

theorem performs_arraySub (e : NetException) (count : Int32) :
    Performs (atCursor (ByteReader.arraySub e count)) (ByteReader.arraySub e count) := by
  refine performs_atCursor fun data o r hr => ?_
  unfold ByteReader.arraySub at hr
  split at hr
  · cases hr
  · exact (congrArg Prod.snd (Except.ok.inj hr)).symm

theorem performs_readWord (w : ℕ) : Performs (readWord w) (TestExecutor.readWord w) :=
  (performs_bitConverter w).bind fun _ => (performs_increaseOffset _).bind fun _ => Performs.pure _

theorem performs_readInt32 : Performs readInt32 TestExecutor.readInt32 :=
  (performs_readWord 4).bind fun _ => Performs.pure _

theorem performs_readUInt32 : Performs readUInt32 TestExecutor.readUInt32 :=
  (performs_readWord 4).bind fun _ => Performs.pure _

theorem performs_readString : Performs readString TestExecutor.readString :=
  performs_readUInt32.bind fun _ => (performs_arraySub _ _).bind fun _ =>
    (performs_increaseOffset _).bind fun _ => Performs.pure _

theorem performs_deserializeMethodData :
    Performs deserializeMethodData TestExecutor.deserializeMethodData :=
  performs_readUInt32.bind fun _ => performs_readString.bind fun _ =>
    performs_readString.bind fun _ => Performs.pure _

theorem performs_deserializeArray {p : Program Cursor NetException α} {d : ByteReader α}
    (h : Performs p d) : Performs (deserializeArray p) (TestExecutor.deserializeArray d) :=
  performs_readInt32.bind fun _ => (Performs.throw _).ite (h.many _)

theorem performs_addElements {K V : Type} [DecidableEq K] {pk : Program Cursor NetException K}
    {dk : ByteReader K} {pv : Program Cursor NetException V} {dv : ByteReader V}
    (hkey : Performs pk dk) (helement : Performs pv dv) (n : ℕ) : ∀ dictionary : Dictionary K V,
      Performs (addElements pk pv n dictionary) (TestExecutor.addElements dk dv n dictionary) := by
  induction n with
  | zero => exact fun dictionary => Performs.pure dictionary
  | succ n ih =>
      intro dictionary
      refine hkey.bind fun index => helement.bind fun element => ?_
      cases dictionary.add index element with
      | none => exact Performs.throw _
      | some dictionary => exact ih dictionary

theorem performs_deserializeDictionary {K V : Type} [DecidableEq K]
    {pk : Program Cursor NetException K} {dk : ByteReader K} {pv : Program Cursor NetException V}
    {dv : ByteReader V} (hkey : Performs pk dk) (helement : Performs pv dv) :
    Performs (deserializeDictionary pk pv) (TestExecutor.deserializeDictionary dk dv) :=
  performs_readInt32.bind fun _ => performs_addElements hkey helement _ _

theorem performs_deserializeCoverageInfoFast :
    Performs deserializeCoverageInfoFast TestExecutor.deserializeCoverageInfoFast :=
  performs_readInt32.bind fun _ => (Performs.throw _).ite ((performs_arraySub _ _).bind fun _ =>
    (performs_increaseOffset _).bind fun _ => Performs.pure _)

theorem performs_deserializeRawReport :
    Performs deserializeRawReport TestExecutor.deserializeRawReport :=
  performs_readInt32.bind fun _ => performs_readInt32.bind fun _ => (Performs.pure _).ite
    (performs_deserializeCoverageInfoFast.bind fun _ => Performs.pure _)

theorem performs_deserializeRawReports :
    Performs deserializeRawReports TestExecutor.deserializeRawReports :=
  (performs_deserializeDictionary performs_readInt32 performs_deserializeMethodData).bind fun _ =>
    (performs_deserializeArray performs_deserializeRawReport).bind fun _ => Performs.pure _

/-- **Alone, a call reads its own bytes**, whatever the variables hold in front of it. -/
theorem alone_getRawReports (bytes : NetBytes) (c : Cursor) :
    ((getRawReports bytes).alone c).1 = (TestExecutor.getRawReports bytes).map Prod.fst := by
  have halone : (getRawReports bytes).alone c
      = (deserializeRawReports.mapError failed).alone ⟨bytes, 0⟩ := rfl
  rw [halone, Program.alone_mapError, TestExecutor.getRawReports]
  dsimp only
  cases hd : TestExecutor.deserializeRawReports bytes 0 with
  | error e =>
      rw [performs_deserializeRawReports.of_error hd]
      rfl
  | ok r =>
      obtain ⟨reports, o⟩ := r
      rw [performs_deserializeRawReports.of_ok hd]
      rfl

/-! ### Concurrent requests -/

open Threads

variable {ι : Type} [DecidableEq ι] (bytes : ι → NetBytes)

/-- **Deserializations that do not overlap** return the reports of their own bytes, in every state of
every schedule in which no call is made while another one is under way. -/
theorem deserializations_alone (c : Cursor) {acts : List ι}
    (halone : Along (Threads.step fun i => getRawReports (bytes i)) StartsAlone ⟨c, fun _ => none⟩
      acts) :
    Always (Threads.step fun i => getRawReports (bytes i))
      (fun w => ∀ i result, w.thread i = some (.ended result) →
        result = (TestExecutor.getRawReports (bytes i)).map Prod.fst) ⟨c, fun _ => none⟩ acts :=
  returned_of_startsAlone (fun i => alone_getRawReports (bytes i)) halone

/-- A report without methods: nothing in it, or one report of an aborted run. -/
def twoReports : Fin 2 → NetBytes
  | 0 => ⟨[0, 0, 0, 0, 0, 0, 0, 0], by decide⟩
  | 1 => ⟨[0, 0, 0, 0, 1, 0, 0, 0, 5, 0, 0, 0, 1, 0, 0, 0], by decide⟩

/-- One call after the other. -/
theorem deserializations_alone_two : ∃ w, run (Threads.step fun i => getRawReports (twoReports i))
      ⟨⟨twoReports 0, 0⟩, fun _ => none⟩ (List.replicate 11 0 ++ List.replicate 19 1) = some w
    ∧ (∀ i, ¬w.UnderWay i) ∧ ∀ i result, w.thread i = some (.ended result) →
      result = (TestExecutor.getRawReports (twoReports i)).map Prod.fst := by
  have hends : ∃ w ∈ run (Threads.step fun i => getRawReports (twoReports i))
      ⟨⟨twoReports 0, 0⟩, fun _ => none⟩ (List.replicate 11 0 ++ List.replicate 19 1),
      ∀ i, ¬w.UnderWay i := by decide +kernel
  obtain ⟨w, hrun, hends⟩ := hends
  exact ⟨w, hrun, hends, (deserializations_alone twoReports ⟨twoReports 0, 0⟩
    (by decide +kernel)).behind hrun⟩

/-- Behind the last byte there is nothing to read. -/
theorem deserializeRawReports_at_end (data : NetBytes) :
    ∃ e, TestExecutor.deserializeRawReports data (Int32.ofNat data.bytes.length) = .error e := by
  obtain ⟨hcursor, -⟩ := ByteReader.cursor_toNat (List.append_nil data.bytes).symm
  have hword : ByteReader.bitConverter 4 data (Int32.ofNat data.bytes.length)
      = .error .argumentOutOfRange := by
    rw [ByteReader.bitConverter, if_pos (Or.inr (by rw [hcursor]))]
  refine ⟨.argumentOutOfRange, ?_⟩
  refine ByteReader.bind_of_error (ByteReader.bind_of_error (ByteReader.bind_of_error ?_))
  exact ByteReader.bind_of_error hword

/-- What a call does behind the two assignments, which is the same for all. -/
def deserialization : Program Cursor String RawCoverageReports := deserializeRawReports.mapError failed

/-- A call is made and assigns to both variables. -/
theorem run_startNewDeserialization {w : Threads ι Cursor String RawCoverageReports} {i : ι}
    (h : w.thread i = none) :
    run (Threads.step fun i => getRawReports (bytes i)) w [i, i, i]
      = some ⟨⟨bytes i, 0⟩, Function.update w.thread i (some deserialization)⟩ := by
  have hcall : getRawReports (bytes i) = .step (fun c => { c with data := bytes i }) fun _ =>
      .step (fun c => { c with dataOffset := 0 }) fun _ => deserialization := rfl
  rw [run_cons, step_of_none h, Option.bind_some, run_cons,
    step_of_step ((Function.update_self i _ _).trans (congrArg some hcall)), Option.bind_some,
    run_cons, step_of_step (Function.update_self i _ _), Option.bind_some, run_nil,
    Function.update_idem, Function.update_idem]

/-- **Overlapping deserializations take each other's bytes.**  Whatever two requests have received: if
the bytes of the second are read to their end, as all that the profiler writes are, then there is a
schedule in which the first request returns the reports of the second, and the second one fails. -/
theorem deserializations_mixed {i j : ι} (hij : i ≠ j) {reports : RawCoverageReports}
    (hread : TestExecutor.getRawReports (bytes j)
      = .ok (reports, Int32.ofNat (bytes j).bytes.length)) (c : Cursor) :
    ∃ acts w, run (Threads.step fun i => getRawReports (bytes i)) ⟨c, fun _ => none⟩ acts = some w
      ∧ w.thread i = some (.ended (.ok reports))
      ∧ w.thread j = some (.ended (.error "CoverageDeserialization failed!")) := by
  have hreader : TestExecutor.deserializeRawReports (bytes j) 0
      = .ok (reports, Int32.ofNat (bytes j).bytes.length) := by
    rw [TestExecutor.getRawReports] at hread
    split at hread
    · rename_i result hresult
      rw [hresult, Except.ok.inj hread]
    · cases hread
  -- alone on the bytes of the second request, and behind them
  have hfirst : deserialization.alone ⟨bytes j, 0⟩
      = (.ok reports, ⟨bytes j, Int32.ofNat (bytes j).bytes.length⟩) := by
    rw [deserialization, Program.alone_mapError, performs_deserializeRawReports.of_ok hreader]
    rfl
  have hsecond : (deserialization.alone ⟨bytes j, Int32.ofNat (bytes j).bytes.length⟩).1
      = .error "CoverageDeserialization failed!" := by
    obtain ⟨e, he⟩ := deserializeRawReports_at_end (bytes j)
    rw [deserialization, Program.alone_mapError, performs_deserializeRawReports.of_error he]
    rfl
  -- both have started, the second behind the first
  let w : Threads ι Cursor String RawCoverageReports := ⟨⟨bytes j, 0⟩,
    Function.update (Function.update (fun _ => none) i (some deserialization)) j
      (some deserialization)⟩
  have hstarted : run (Threads.step fun i => getRawReports (bytes i)) ⟨c, fun _ => none⟩
      ([i, i, i] ++ [j, j, j]) = some w := by
    rw [run_append, run_startNewDeserialization bytes rfl, Option.bind_some,
      run_startNewDeserialization bytes (Function.update_of_ne hij.symm _ _)]
  have hi : w.thread i = some deserialization :=
    (Function.update_of_ne hij _ _).trans (Function.update_self i _ _)
  obtain ⟨n, hrun⟩ : ∃ n, run (Threads.step fun i => getRawReports (bytes i)) w (List.replicate n i)
      = some ⟨⟨bytes j, Int32.ofNat (bytes j).bytes.length⟩,
        Function.update w.thread i (some (.ended (.ok reports)))⟩ := by
    refine ⟨_, (run_alone deserialization hi).trans ?_⟩
    rw [show w.shared = ⟨bytes j, 0⟩ from rfl, hfirst]
  obtain ⟨w', hw'⟩ : ∃ w' : Threads ι Cursor String RawCoverageReports,
      w' = ⟨⟨bytes j, Int32.ofNat (bytes j).bytes.length⟩,
        Function.update w.thread i (some (.ended (.ok reports)))⟩ := ⟨_, rfl⟩
  have hj : w'.thread j = some deserialization := by
    rw [hw']
    exact (Function.update_of_ne hij.symm _ _).trans (Function.update_self j _ _)
  refine ⟨([i, i, i] ++ [j, j, j]) ++ List.replicate n i
    ++ List.replicate (deserialization.steps w'.shared) j,
    ⟨(deserialization.alone w'.shared).2,
      Function.update w'.thread j (some (.ended (deserialization.alone w'.shared).1))⟩, ?_, ?_, ?_⟩
  · rw [run_append, run_append, hstarted, Option.bind_some, hrun, Option.bind_some, ← hw',
      run_alone deserialization hj]
  · dsimp only
    rw [Function.update_of_ne hij, hw']
    exact Function.update_self i _ _
  · dsimp only
    rw [Function.update_self, hw', hsecond]

/-- The report of the second request goes to the first. -/
theorem deserializations_mixed_two : ∃ acts w,
    run (Threads.step fun i => getRawReports (twoReports i)) ⟨⟨twoReports 0, 0⟩, fun _ => none⟩ acts
      = some w
    ∧ w.thread 0 = some (.ended (.ok ⟨.empty, [⟨5, []⟩]⟩))
    ∧ w.thread 1 = some (.ended (.error "CoverageDeserialization failed!")) :=
  deserializations_mixed twoReports (by decide) rfl ⟨twoReports 0, 0⟩

end CoverageDeserializer

end TestExecutor
