import TestExecutor.Library.Runs
import TestExecutor.Profiler.Instrumenter
import TestExecutor.Rewriter.Failures

/-!
# Requests that fail

`Instrumenter::instrument`, `doInstrumentation`, `initTokens` and `RewriteIL` with the results of
every call into the runtime: a request can fail in front of the registration of its method and
behind it.

* `HResult`, `failed`, `firstFailure` — results, and a chain of `IfFailRet`s;
* `JitCall` — what the runtime answers to one request;
* `InstrumenterState` — the process, the signature tokens, and the bodies that were set;
* `InstrumenterState.initTokens`, `rewriteIL`, `doInstrumentation`, `instrument` — the source's words;
* `rewriteIL_cases`, `doInstrumentation_cases`, `instrument_cases` — everything they can do;
* `InstrumentRun.OnlyRewrittenRecorded` — a definition is recorded only with a body of its own, and
  a request that fails says so and records nothing;
* `onlyRewrittenRecorded_iff`.
-/

namespace TestExecutor

open TestExecutor.Library

/-! ### Results -/

/-- An `HRESULT`. -/
abbrev HResult : Type := Int32

def sOk : HResult := 0

def eOutOfMemory : HResult := (0x8007000E : UInt32).toInt32

/-- `FAILED`. -/
def failed (hr : HResult) : Bool := decide (hr < 0)

/-- A chain of `IfFailRet`s: its first failure is returned. -/
def firstFailure (hrs : List HResult) : Option HResult := hrs.find? failed

/-- The result that the caller sees, unless the process is gone. -/
def RewriteError.hResult : RewriteError → Option HResult
  | .corEInvalidProgram => some (0x8013153A : UInt32).toInt32
  | .eFail => some (0x80004005 : UInt32).toInt32
  | .nullDereference | .bufferOverrun | .unsetRead => none

theorem firstFailure_eq_none {hrs : List HResult} :
    firstFailure hrs = none ↔ ∀ hr ∈ hrs, failed hr = false := by
  simp [firstFailure, List.find?_eq_none]

theorem failed_of_firstFailure {hrs : List HResult} {hr : HResult}
    (h : firstFailure hrs = some hr) : failed hr = true := List.find?_some h

/-! ### A request -/

/-- One call of `instrument`: the function and the thread, and what the runtime answers to every
step that the call may take. -/
structure JitCall where
  functionId : FunctionID
  thread : ThreadID
  -- `m_moduleId` in front of the call; zero for a new instrumenter
  oldModuleId : ℕ
  function : FunctionInfo
  getFunctionInfo : HResult
  -- for the length of the name, and for the name
  getModuleInfo : HResult × HResult
  getAssemblyInfo : HResult × HResult
  getModuleMetaData : HResult
  queryInterface : HResult
  -- the tokens of the signatures with one, two and three parameters
  getTokenFromSig : HResult × ℕ
  getTokenFromSig₂ : HResult × ℕ
  getTokenFromSig₃ : HResult × ℕ
  getILFunctionBody : HResult
  body : MethodBody
  getILFunctionBodyAllocator : HResult
  -- `Alloc` has returned memory
  allocated : Bool
  setILFunctionBody : HResult

namespace JitCall

variable (c : JitCall)

/-- The results in front of the test `InstrumentationIsNeeded`. -/
def infoResults : List HResult :=
  [c.getFunctionInfo, c.getModuleInfo.1, c.getModuleInfo.2, c.getAssemblyInfo.1,
    c.getAssemblyInfo.2]

def metadataResults : List HResult := [c.getModuleMetaData, c.queryInterface]

def tokenResults : List HResult :=
  [c.getTokenFromSig.1, c.getTokenFromSig₂.1, c.getTokenFromSig₃.1]

/-- `AllocateILMemory` does not return null. -/
def allocateILMemory : Bool := !failed c.getILFunctionBodyAllocator && c.allocated

/-- The runtime hands in a body that the decoding loop accepts, has memory for the new one and
takes it. -/
structure BodyAccepted : Prop where
  getILFunctionBody : failed c.getILFunctionBody = false
  decoded : ILRewriter.importBody c.body ≠ .error .corEInvalidProgram
  memory : c.allocateILMemory = true
  setILFunctionBody : failed c.setILFunctionBody = false

/-- No step behind the registration fails. -/
structure Succeeds : Prop where
  metadata : firstFailure c.metadataResults = none
  tokens : c.oldModuleId ≠ c.function.moduleId → firstFailure c.tokenResults = none
  body : c.BodyAccepted

end JitCall

/-! ### The state -/

/-- A body that was handed to `SetILFunctionBody` successfully, which a complete rewrite yields. -/
structure HandedBody where
  definition : UInt32 × ℕ
  covProb : Probe → ProbeCall
  methodId : ℕ
  isMain : Bool
  body : MethodBody
  out : ExportedBody
  complete : rewriteBody covProb (Int32.ofNat methodId) isMain body = .ok out

/-- The process, the signature tokens of the probes for every thread, and the bodies that were
set. -/
structure InstrumenterState where
  process : Process
  threadMapping : Probe → ThreadStorage ℕ
  handed : List HandedBody

/-- What a call of `instrument` or `doInstrumentation` leaves behind. -/
structure InstrumentReturn where
  hr : HResult
  -- what `initTokens` and `RewriteIL` returned, which nobody looks at
  dropped : List HResult
  state : InstrumenterState

/-- One of the steps that the call took has failed. -/
def InstrumentReturn.Fails (r : InstrumentReturn) : Prop := ∃ hr ∈ r.hr :: r.dropped, failed hr = true

namespace InstrumenterState

variable (w : InstrumenterState)

/-- `setSig` of several probes. -/
def setSig (thread : ThreadID) (probes : List Probe) (sig : ℕ) : InstrumenterState :=
  { w with
    threadMapping := fun probe =>
      if probe ∈ probes then (w.threadMapping probe).storeOrUpdate thread sig
      else w.threadMapping probe }

def getSig (thread : ThreadID) (probe : Probe) : ℕ :=
  ((w.threadMapping probe).lookup thread).getD 0

variable (addr : Probe → ℕ) (c : JitCall)

/-- `getProbes`, for the calling thread. -/
def covProb : Probe → ProbeCall := fun probe => ⟨addr probe, w.getSig c.thread probe⟩

/-- `initTokens`.  Rewritten methods do not call `Finalize_Call`, whose token is the first one. -/
def initTokens : HResult × InstrumenterState :=
  if failed c.getTokenFromSig.1 then (c.getTokenFromSig.1, w)
  else if failed c.getTokenFromSig₂.1 then (c.getTokenFromSig₂.1, w)
  else
    let w := w.setSig c.thread
      [.branch, .call, .leave, .throw, .stsfld, .coverage, .tailcall, .leaveMain]
      c.getTokenFromSig₂.2
    if failed c.getTokenFromSig₃.1 then (c.getTokenFromSig₃.1, w)
    else (sOk, w.setSig c.thread [.enterMain, .enter] c.getTokenFromSig₃.2)

/-- The branch of `doInstrumentation` for another module than that of the last request. -/
def refreshTokens : HResult × InstrumenterState :=
  if c.oldModuleId ≠ c.function.moduleId then w.initTokens c else (sOk, w)

/-- `RewriteIL`; `none` when the process is gone.  The lists that `Import` yields have fat headers,
so `Export` fails behind the allocation only. -/
def rewriteIL (methodId : ℕ) (isMain : Bool) : Option (HResult × InstrumenterState) :=
  if failed c.getILFunctionBody then some (c.getILFunctionBody, w)
  else match h : rewriteCode (w.covProb addr c) (Int32.ofNat methodId) isMain c.body with
    | .error e => e.hResult.map fun hr => (hr, w)
    | .ok (rewriter, code) =>
        if !c.allocateILMemory then some (eOutOfMemory, w)
        else match h' : rewriter.exportHeader code with
          | .error e => e.hResult.map fun hr => (hr, w)
          | .ok out =>
              if failed c.setILFunctionBody then some (c.setILFunctionBody, w)
              else some (sOk, { w with
                process := w.process.doInstrumentation c.function methodId
                handed := w.handed ++ [{
                  definition := c.function.definition
                  covProb := w.covProb addr c
                  methodId, isMain
                  body := c.body
                  out
                  complete := rewriteBody_ok h h' }] })

/-- `doInstrumentation`; the results of `initTokens` and of `RewriteIL` are dropped. -/
def doInstrumentation (methodId : ℕ) : Option InstrumentReturn :=
  match firstFailure c.metadataResults with
  | some hr => some ⟨hr, [], w⟩
  | none =>
      let (hrTokens, w) := w.refreshTokens c
      (w.rewriteIL addr c methodId (w.process.isMain c.function.info)).map fun (hr, w) =>
        ⟨sOk, [hrTokens, hr], w⟩

/-- `Instrumenter::instrument`. -/
def instrument : Option InstrumentReturn :=
  match firstFailure c.infoResults with
  | some hr => some ⟨hr, [], w⟩
  | none =>
      -- skipping non-main methods
      if !w.process.instrumentationIsNeeded c.function.info then some ⟨sOk, [], w⟩
      else
        let w := { w with process := w.process.setMainFunction c.functionId }
        -- checking if this method was rewritten before
        if c.function.definition ∈ w.process.instrumentedMethods then some ⟨sOk, [], w⟩
        else
          let (methodId, process) := w.process.collectAndInsert c.function
          { w with process }.doInstrumentation addr c methodId

/-- The rewritten definitions of the process are those of the bodies that were set. -/
def Agrees : Prop := w.process.rewritten = w.handed.map fun b => (b.definition, b.methodId)

/-- The call gets as far as the locked part. -/
structure Registers : Prop where
  infos : firstFailure c.infoResults = none
  needed : w.process.instrumentationIsNeeded c.function.info = true
  new : c.function.definition ∉ w.process.instrumentedMethods

/-! ### What the functions do -/

section cases

variable {w addr c}

@[simp] theorem setSig_process (thread : ThreadID) (probes : List Probe) (sig : ℕ) :
    (w.setSig thread probes sig).process = w.process := rfl

@[simp] theorem setSig_handed (thread : ThreadID) (probes : List Probe) (sig : ℕ) :
    (w.setSig thread probes sig).handed = w.handed := rfl

theorem not_failed_sOk : failed sOk = false := by decide

theorem failed_eOutOfMemory : failed eOutOfMemory = true := by decide

theorem failed_of_hResult {e : RewriteError} {hr : HResult} (h : e.hResult = some hr) :
    failed hr = true := by
  cases e with
  | corEInvalidProgram =>
      obtain rfl := Option.some.inj h
      decide
  | eFail =>
      obtain rfl := Option.some.inj h
      decide
  | nullDereference => cases h
  | bufferOverrun => cases h
  | unsetRead => cases h

theorem not_isCrash_of_hResult {e : RewriteError} {hr : HResult} (h : e.hResult = some hr) :
    ¬e.IsCrash := by
  intro hcrash
  rcases hcrash with rfl | rfl | rfl
  · cases h
  · cases h
  · cases h

/-- `initTokens` changes signature tokens only, and fails with any of its steps. -/
theorem initTokens_cases : (w.initTokens c).2.process = w.process
    ∧ (w.initTokens c).2.handed = w.handed
    ∧ (failed (w.initTokens c).1 = false ↔ firstFailure c.tokenResults = none) := by
  rw [firstFailure_eq_none, initTokens]
  simp only [JitCall.tokenResults, List.forall_mem_cons]
  cases h₁ : failed c.getTokenFromSig.1 with
  | true => simp [h₁]
  | false =>
      cases h₂ : failed c.getTokenFromSig₂.1 with
      | true => simp [h₂]
      | false =>
          cases h₃ : failed c.getTokenFromSig₃.1 with
          | true => simp [h₃]
          | false => simp [not_failed_sOk]

theorem refreshTokens_cases : (w.refreshTokens c).2.process = w.process
    ∧ (w.refreshTokens c).2.handed = w.handed
    ∧ (failed (w.refreshTokens c).1 = false
      ↔ (c.oldModuleId ≠ c.function.moduleId → firstFailure c.tokenResults = none)) := by
  rw [refreshTokens]
  by_cases hmodule : c.oldModuleId ≠ c.function.moduleId
  · rw [if_pos hmodule]
    obtain ⟨hprocess, hhanded, hfailed⟩ := initTokens_cases (w := w) (c := c)
    exact ⟨hprocess, hhanded, hfailed.trans ⟨fun h _ => h, fun h => h hmodule⟩⟩
  · rw [if_neg hmodule]
    exact ⟨rfl, rfl, fun _ h => absurd h hmodule, fun _ => not_failed_sOk⟩

/-- **`RewriteIL` sets a body or fails**: it fails if the runtime refuses a step or the body is
malformed, and then changes nothing. -/
theorem rewriteIL_cases {methodId : ℕ} {isMain : Bool} {r : HResult × InstrumenterState}
    (h : w.rewriteIL addr c methodId isMain = some r) :
    (c.BodyAccepted ∧ r.1 = sOk ∧ ∃ b : HandedBody,
        b.definition = c.function.definition ∧ b.methodId = methodId ∧ b.body = c.body
          ∧ r.2 = { w with
            process := w.process.doInstrumentation c.function methodId
            handed := w.handed ++ [b] })
      ∨ (¬c.BodyAccepted ∧ failed r.1 = true ∧ r.2 = w) := by
  rw [rewriteIL] at h
  split at h
  · rename_i hbody
    obtain rfl := Option.some.inj h
    exact Or.inr ⟨fun hok => by simp [hok.getILFunctionBody] at hbody, hbody, rfl⟩
  · rename_i hbody
    split at h
    · rename_i e hcode
      obtain ⟨hr, hresult, rfl⟩ := Option.map_eq_some_iff.mp h
      refine Or.inr ⟨fun hok => ?_, failed_of_hResult hresult, rfl⟩
      rcases rewriteCode_error hcode with ⟨hdecoded, -⟩ | hcrash
      · exact hok.decoded hdecoded
      · exact not_isCrash_of_hResult hresult hcrash
    · rename_i rewriter code hcode
      obtain ⟨hfat, hdecoded⟩ := rewriteCode_ok hcode
      split at h
      · rename_i hmemory
        obtain rfl := Option.some.inj h
        exact Or.inr ⟨fun hok => by simp [hok.memory] at hmemory, failed_eOutOfMemory, rfl⟩
      · rename_i hmemory
        split at h
        · rename_i e hheader
          obtain ⟨hr, hresult, -⟩ := Option.map_eq_some_iff.mp h
          have hcrash := (ILRewriter.exportHeader_crashesOnly hfat code).of_error hheader
          exact absurd hcrash (not_isCrash_of_hResult hresult)
        · rename_i out hheader
          split at h
          · rename_i hset
            obtain rfl := Option.some.inj h
            exact Or.inr ⟨fun hok => by simp [hok.setILFunctionBody] at hset, hset, rfl⟩
          · rename_i hset
            obtain rfl := Option.some.inj h
            refine Or.inl ⟨⟨?_, hdecoded, ?_, ?_⟩, rfl, _, rfl, rfl, rfl, rfl⟩
            · exact Bool.eq_false_iff.mpr hbody
            · simpa using hmemory
            · exact Bool.eq_false_iff.mpr hset

/-- A request behind the registration, when no step fails: it returns `S_OK`, and the body of its
method was set. -/
structure Rewrote (w : InstrumenterState) (c : JitCall) (methodId : ℕ) (r : InstrumentReturn) :
    Prop where
  hr : r.hr = sOk
  not_fails : ¬r.Fails
  process : r.state.process = w.process.doInstrumentation c.function methodId
  handed : ∃ b : HandedBody, b.definition = c.function.definition ∧ b.methodId = methodId
    ∧ b.body = c.body ∧ r.state.handed = w.handed ++ [b]

/-- One that fails behind the registration: no body was set, or one with stale signature tokens. -/
structure Failed (w : InstrumenterState) (r : InstrumentReturn) : Prop where
  fails : r.Fails
  instrumentedMethods : r.state.process.instrumentedMethods = w.process.instrumentedMethods
  agrees : w.Agrees → r.state.Agrees

/-- **`doInstrumentation` succeeds or fails** with its steps. -/
theorem doInstrumentation_cases {methodId : ℕ} {r : InstrumentReturn}
    (h : w.doInstrumentation addr c methodId = some r) :
    (c.Succeeds ∧ Rewrote w c methodId r) ∨ (¬c.Succeeds ∧ Failed w r) := by
  rw [doInstrumentation] at h
  cases hmetadata : firstFailure c.metadataResults with
  | some hr =>
      rw [hmetadata] at h
      obtain rfl := Option.some.inj h
      refine Or.inr ⟨fun hok => ?_, ⟨hr, List.mem_cons_self, failed_of_firstFailure hmetadata⟩,
        rfl, fun h => h⟩
      rw [hok.metadata] at hmetadata
      cases hmetadata
  | none =>
      rw [hmetadata] at h
      have hrefresh := refreshTokens_cases (w := w) (c := c)
      cases hw : w.refreshTokens c with
      | mk hrTokens w' =>
          rw [hw] at h hrefresh
          obtain ⟨hprocess, hhanded, htokens⟩ := hrefresh
          obtain ⟨⟨hr, w''⟩, hrewrite, rfl⟩ := Option.map_eq_some_iff.mp h
          rcases rewriteIL_cases hrewrite with ⟨hbody, hr_eq, b, hdefinition, hid, hb, hw''⟩
            | ⟨hbody, hfailed, hw''⟩
          · dsimp only at hr_eq hw'' hprocess hhanded
            subst hr_eq hw''
            cases hhr : failed hrTokens with
            | false =>
                refine Or.inl ⟨⟨hmetadata, htokens.mp hhr, hbody⟩, rfl, ?_, ?_,
                  b, hdefinition, hid, hb, ?_⟩
                · simp [InstrumentReturn.Fails, hhr, not_failed_sOk]
                · show w'.process.doInstrumentation _ _ = _
                  rw [hprocess]
                · show w'.handed ++ [b] = _
                  rw [hhanded]
            | true =>
                refine Or.inr ⟨fun hok => ?_, ⟨hrTokens, by simp, hhr⟩, ?_, fun hagrees => ?_⟩
                · rw [htokens.mpr hok.tokens] at hhr
                  cases hhr
                · show w'.process.instrumentedMethods = _
                  rw [hprocess]
                · show w'.process.rewritten ++ [_] = (w'.handed ++ [b]).map _
                  rw [hprocess, hhanded, hagrees, List.map_append, ← hdefinition, ← hid]
                  rfl
          · dsimp only at hfailed hw'' hprocess
            subst hw''
            refine Or.inr ⟨fun hok => hbody hok.body, ⟨hr, by simp, hfailed⟩, ?_, fun hagrees => ?_⟩
            · rw [hprocess]
            · rw [Agrees, hprocess, hhanded]
              exact hagrees

/-- A call that has nothing to register leaves the records as they are, and says so when it
fails. -/
structure PassedBy (w : InstrumenterState) (c : JitCall) (r : InstrumentReturn) : Prop where
  failed_hr : r.Fails → failed r.hr = true
  process : ¬r.Fails → r.state.process = w.process.instrument c.functionId c.function
  handed : r.state.handed = w.handed
  instrumentedMethods : r.state.process.instrumentedMethods = w.process.instrumentedMethods
  rewritten : r.state.process.rewritten = w.process.rewritten

theorem setMainFunction_instrumentedMethods (p : Process) (functionId : FunctionID) :
    (p.setMainFunction functionId).instrumentedMethods = p.instrumentedMethods := by
  rw [Process.setMainFunction]
  split
  · rfl
  · rfl

theorem collectAndInsert_instrumentedMethods {p process : Process} {functionId : FunctionID}
    {f : FunctionInfo} {methodId : ℕ}
    (h : (p.setMainFunction functionId).collectAndInsert f = (methodId, process)) :
    process.instrumentedMethods = f.definition :: p.instrumentedMethods := by
  obtain rfl : process = _ := (congrArg Prod.snd h).symm
  show f.definition :: (p.setMainFunction functionId).instrumentedMethods = _
  rw [setMainFunction_instrumentedMethods]

theorem setMainFunction_rewritten (p : Process) (functionId : FunctionID) :
    (p.setMainFunction functionId).rewritten = p.rewritten := by
  rw [Process.setMainFunction]
  split
  · rfl
  · rfl

/-- **Everything a call can do**: it fails in front of the registration or has nothing to do, or it
registers the method and goes on with `doInstrumentation`. -/
theorem instrument_cases {r : InstrumentReturn} (h : w.instrument addr c = some r) :
    (¬w.Registers c ∧ PassedBy w c r)
      ∨ (w.Registers c ∧ ∃ methodId process,
        (w.process.setMainFunction c.functionId).collectAndInsert c.function = (methodId, process)
          ∧ { w with process }.doInstrumentation addr c methodId = some r) := by
  rw [instrument] at h
  cases hinfos : firstFailure c.infoResults with
  | some hr =>
      rw [hinfos] at h
      obtain rfl := Option.some.inj h
      have hfailed := failed_of_firstFailure hinfos
      refine Or.inl ⟨fun hreg => ?_, fun _ => hfailed, fun hnot => ?_, rfl, rfl, rfl⟩
      · rw [hreg.infos] at hinfos
        cases hinfos
      · exact absurd ⟨hr, List.mem_cons_self, hfailed⟩ hnot
  | none =>
      rw [hinfos] at h
      dsimp only at h
      have hpassed : ∀ w' : InstrumenterState, ¬InstrumentReturn.Fails ⟨sOk, [], w'⟩ := by
        intro w'
        simp [InstrumentReturn.Fails, not_failed_sOk]
      split at h
      · rename_i hneeded
        obtain rfl := Option.some.inj h
        refine Or.inl ⟨fun hreg => ?_, fun hfails => absurd hfails (hpassed w), fun _ => ?_,
          rfl, rfl, rfl⟩
        · simp [hreg.needed] at hneeded
        · rw [Process.instrument, if_pos hneeded]
      · rename_i hneeded
        rw [setMainFunction_instrumentedMethods] at h
        split at h
        · rename_i hmem
          obtain rfl := Option.some.inj h
          refine Or.inl ⟨fun hreg => hreg.new hmem, fun hfails => absurd hfails (hpassed _),
            fun _ => ?_, rfl, setMainFunction_instrumentedMethods _ _,
            setMainFunction_rewritten _ _⟩
          rw [Process.instrument, if_neg hneeded, if_pos]
          rw [setMainFunction_instrumentedMethods]
          exact hmem
        · rename_i hmem
          exact Or.inr ⟨⟨hinfos, by simpa using hneeded, hmem⟩, _, _, rfl, h⟩

/-- **Without a failure the process is that of `Process.instrument`.** -/
theorem instrument_process {r : InstrumentReturn} (h : w.instrument addr c = some r)
    (hok : ¬r.Fails) : r.state.process = w.process.instrument c.functionId c.function := by
  rcases instrument_cases h with ⟨-, hpassed⟩ | ⟨hreg, methodId, process, hcollect, hdo⟩
  · exact hpassed.process hok
  · rcases doInstrumentation_cases hdo with ⟨-, hrewrote⟩ | ⟨-, hfailed⟩
    · rw [hrewrote.process, Process.instrument, if_neg (by simp [hreg.needed]), if_neg]
      · rw [hcollect]
      · rw [setMainFunction_instrumentedMethods]
        exact hreg.new
    · exact absurd hfailed.fails hok

/-- The process goes on recording exactly the bodies that were set, whatever fails. -/
theorem instrument_agrees {r : InstrumentReturn} (h : w.instrument addr c = some r)
    (hw : w.Agrees) : r.state.Agrees := by
  rcases instrument_cases h with ⟨-, hpassed⟩ | ⟨hreg, methodId, process, hcollect, hdo⟩
  · rw [Agrees, hpassed.rewritten, hpassed.handed]
    exact hw
  · have hprocess : ({ w with process } : InstrumenterState).Agrees := by
      obtain rfl : process = _ := (congrArg Prod.snd hcollect).symm
      show (w.process.setMainFunction c.functionId).rewritten = _
      rw [setMainFunction_rewritten]
      exact hw
    rcases doInstrumentation_cases hdo with ⟨-, hrewrote⟩ | ⟨-, hfailed⟩
    · obtain ⟨b, hdefinition, hid, -, hhanded⟩ := hrewrote.handed
      rw [Agrees, hrewrote.process, hhanded, List.map_append, ← hprocess]
      show _ ++ [(c.function.definition, methodId)] = _ ++ [(b.definition, b.methodId)]
      rw [hdefinition, hid]
    · exact hfailed.agrees hprocess

end cases

end InstrumenterState

/-! ### Runs -/

/-- What a run of requests has come to, with the last request: the records in front of it, and what
it returned. -/
structure InstrumentRun where
  state : InstrumenterState
  last : Option (List (UInt32 × ℕ) × InstrumentReturn)

inductive InstrumentAct where
  | instrument (c : JitCall)
  -- the probes and the methods of the interface, between two requests
  | other (profiler : ProfilerState) (mainMethodInfo : Option MethodInfo)

namespace InstrumentRun

def init (profiler : ProfilerState) (mainMethodInfo : Option MethodInfo) : InstrumentRun :=
  ⟨⟨⟨profiler, mainMethodInfo, [], []⟩, fun _ => .empty, []⟩, none⟩

variable (addr : Probe → ℕ) (w : InstrumentRun)

/-- A request that crashes is not a step: the process is gone. -/
def step : InstrumentAct → Option InstrumentRun
  | .instrument c => (w.state.instrument addr c).map fun r =>
      ⟨r.state, some (w.state.process.instrumentedMethods, r)⟩
  | .other profiler mainMethodInfo =>
      some ⟨{ w.state with process := { w.state.process with profiler, mainMethodInfo } }, none⟩

/-- Only rewritten methods are recorded, and the last request, if one of its steps has failed,
returned a failure and left the records as they were. -/
structure OnlyRewrittenRecorded : Prop where
  rewritten : ∀ d ∈ w.state.process.instrumentedMethods, ∃ b ∈ w.state.handed, b.definition = d
  failure : ∀ recorded r, w.last = some (recorded, r) → r.Fails →
    failed r.hr = true ∧ ∀ d, d ∈ w.state.process.instrumentedMethods ↔ d ∈ recorded

/-- A request that returns, and has registered its method, meets no failure behind that. -/
def StepsSucceed : InstrumentAct → Prop
  | .instrument c => (w.state.instrument addr c).isSome → w.state.Registers c → c.Succeeds
  | .other _ _ => True

variable {addr w} {w' : InstrumentRun} {act : InstrumentAct}

theorem OnlyRewrittenRecorded.step (h : w.OnlyRewrittenRecorded) (hP : w.StepsSucceed addr act)
    (hstep : w.step addr act = some w') : w'.OnlyRewrittenRecorded := by
  cases act with
  | other profiler mainMethodInfo =>
      obtain rfl := Option.some.inj hstep
      exact ⟨h.rewritten, by simp⟩
  | instrument c =>
      obtain ⟨r, hr, rfl⟩ := Option.map_eq_some_iff.mp hstep
      rcases InstrumenterState.instrument_cases hr with ⟨-, hpassed⟩
        | ⟨hreg, methodId, process, hcollect, hdo⟩
      · constructor
        · show ∀ d ∈ r.state.process.instrumentedMethods, ∃ b ∈ r.state.handed, _
          rw [hpassed.instrumentedMethods, hpassed.handed]
          exact h.rewritten
        · intro recorded r' hlast hfails
          obtain ⟨rfl, rfl⟩ := Prod.mk.inj (Option.some.inj hlast)
          refine ⟨hpassed.failed_hr hfails, fun d => ?_⟩
          rw [hpassed.instrumentedMethods]
      · have hsucceeds : c.Succeeds := hP (by rw [hr]; rfl) hreg
        rcases InstrumenterState.doInstrumentation_cases hdo with ⟨-, hrewrote⟩ | ⟨hnot, -⟩
        · obtain ⟨b, hdefinition, -, -, hhanded⟩ := hrewrote.handed
          have hinserted := InstrumenterState.collectAndInsert_instrumentedMethods hcollect
          constructor
          · intro d hd
            change d ∈ r.state.process.instrumentedMethods at hd
            show ∃ b ∈ r.state.handed, b.definition = d
            rw [hrewrote.process] at hd
            change d ∈ process.instrumentedMethods at hd
            rw [hinserted] at hd
            rw [hhanded]
            rcases List.mem_cons.mp hd with rfl | hd
            · exact ⟨b, List.mem_append_right _ List.mem_cons_self, hdefinition⟩
            · obtain ⟨b', hb', hdefinition'⟩ := h.rewritten d hd
              exact ⟨b', List.mem_append_left _ hb', hdefinition'⟩
          · intro recorded r' hlast hfails
            obtain ⟨rfl, rfl⟩ := Prod.mk.inj (Option.some.inj hlast)
            exact absurd hfails hrewrote.not_fails
        · exact absurd hsucceeds hnot

/-- A failure behind the registration leaves the method recorded. -/
theorem OnlyRewrittenRecorded.broken (hP : ¬w.StepsSucceed addr act) :
    ∃ w', w.step addr act = some w' ∧ ¬w'.OnlyRewrittenRecorded := by
  cases act with
  | other profiler mainMethodInfo => exact absurd trivial hP
  | instrument c =>
      obtain ⟨hreturns, hreg, hnot⟩ : (w.state.instrument addr c).isSome = true
          ∧ w.state.Registers c ∧ ¬c.Succeeds := by
        simpa only [StepsSucceed, Classical.not_imp] using hP
      obtain ⟨r, hr⟩ := Option.isSome_iff_exists.mp hreturns
      refine ⟨_, Option.map_eq_some_iff.mpr ⟨r, hr, rfl⟩, fun h => ?_⟩
      rcases InstrumenterState.instrument_cases hr with ⟨hnotreg, -⟩
        | ⟨-, methodId, process, hcollect, hdo⟩
      · exact hnotreg hreg
      · rcases InstrumenterState.doInstrumentation_cases hdo with ⟨hsucceeds, -⟩ | ⟨-, hfailed⟩
        · exact hnot hsucceeds
        · have hinserted := InstrumenterState.collectAndInsert_instrumentedMethods hcollect
          obtain ⟨-, hsame⟩ := h.failure _ r rfl hfailed.fails
          refine hreg.new ((hsame c.function.definition).mp ?_)
          show _ ∈ r.state.process.instrumentedMethods
          rw [hfailed.instrumentedMethods]
          show _ ∈ process.instrumentedMethods
          rw [hinserted]
          exact List.mem_cons_self

/-- The process of a run records exactly the bodies that were set. -/
theorem agrees_of_run {profiler : ProfilerState} {mainMethodInfo : Option MethodInfo}
    {acts : List InstrumentAct}
    (h : run (step addr) (init profiler mainMethodInfo) acts = some w) : w.state.Agrees := by
  have hinit : (init profiler mainMethodInfo).state.Agrees := rfl
  refine run_invariant (I := fun w => w.state.Agrees) ?_ hinit h
  intro w act w' hw hstep
  cases act with
  | other profiler mainMethodInfo =>
      obtain rfl := Option.some.inj hstep
      exact hw
  | instrument c =>
      obtain ⟨r, hr, rfl⟩ := Option.map_eq_some_iff.mp hstep
      exact InstrumenterState.instrument_agrees hr hw

/-- **Only rewritten methods are recorded** in a run of requests, exactly if no request that returns
meets a failure behind the registration of its method. -/
theorem onlyRewrittenRecorded_iff (profiler : ProfilerState) (mainMethodInfo : Option MethodInfo)
    (acts : List InstrumentAct) :
    Always (step addr) OnlyRewrittenRecorded (init profiler mainMethodInfo) acts
      ↔ Along (step addr) (StepsSucceed addr) (init profiler mainMethodInfo) acts := by
  have hinit : OnlyRewrittenRecorded (init profiler mainMethodInfo) := by
    constructor
    · intro d hd
      cases hd
    · intro recorded r hlast
      cases hlast
  exact always_iff_along (fun _ h => h) (fun _ _ _ h hP hstep => h.step hP hstep)
    (fun _ _ _ hP => OnlyRewrittenRecorded.broken hP) hinit

/-- What `SetEntryMain` was given for the method of the request below. -/
def malformedMain : MethodInfo := ⟨0x06000001, 1, [65], 1, [66], rfl, rfl⟩

/-- The request for a method whose body is the lead byte of a long opcode, without the opcode;
nothing fails but the decoding loop. -/
def malformedRequest : JitCall where
  functionId := 7
  thread := 0
  oldModuleId := 0
  function := ⟨1, ⟨0x06000001, 2, [65, 0], 2, [66, 0], rfl, rfl⟩⟩
  getFunctionInfo := sOk
  getModuleInfo := (sOk, sOk)
  getAssemblyInfo := (sOk, sOk)
  getModuleMetaData := sOk
  queryInterface := sOk
  getTokenFromSig := (sOk, 0x11000001)
  getTokenFromSig₂ := (sOk, 0x11000002)
  getTokenFromSig₃ := (sOk, 0x11000003)
  getILFunctionBody := sOk
  body := ⟨2, 8, 0, ⟨[0xFE], by decide⟩, []⟩
  getILFunctionBodyAllocator := sOk
  allocated := true
  setILFunctionBody := sOk

/-- The request for main returns `S_OK`, and its method is recorded without a body. -/
theorem malformed_not_onlyRewrittenRecorded :
    ¬Always (step fun _ => 0) OnlyRewrittenRecorded (init (.init false true) (some malformedMain))
      [.instrument malformedRequest] := by
  intro h
  have hP : ¬StepsSucceed (fun _ => 0) (init (.init false true) (some malformedMain))
      (.instrument malformedRequest) := by
    intro hP
    have hreg : (init (.init false true) (some malformedMain)).state.Registers malformedRequest :=
      ⟨by decide, by decide, by decide⟩
    have hsucceeds := hP (by decide) hreg
    exact hsucceeds.body.decoded rfl
  obtain ⟨w', hstep, hnot⟩ := OnlyRewrittenRecorded.broken hP
  exact hnot (h.2 w' hstep)

end InstrumentRun

end TestExecutor
