import TestExecutor.Profiler.Probes

/-!
# Which methods are instrumented

`instrumenter.cpp` and `ProfilerState::setEntryMain`: a method is rewritten when it is compiled, if
it is the one under test, and at most once for each definition.

* `FunctionInfo` — what the runtime tells about a function;
* `Process` — the profiler, the method under test and the rewritten definitions;
* `Process.setEntryMain`, `Process.isMain`, `Process.instrument` — the operations;
* `TestedMethod` — a method as its test and as the runtime name it; `TestedMethod.isMain`.
-/

namespace TestExecutor

open TestExecutor.Library

/-- The answers of `GetFunctionInfo`, `GetModuleInfo` and `GetAssemblyInfo`; the names end with a
zero. -/
structure FunctionInfo where
  moduleId : ℕ
  info : MethodInfo

/-- The definition that a function belongs to: the key of `instrumentedMethods`. -/
def FunctionInfo.definition (f : FunctionInfo) : UInt32 × ℕ := (f.info.token, f.moduleId)

/-- The lookup in `instrumentedMethods`. -/
instance decidableInstrumented (d : UInt32 × ℕ) (ds : List (UInt32 × ℕ)) : Decidable (d ∈ ds) :=
  inferInstance

/-- The profiler, `mainMethodInfo` (`none` for the null name in the beginning),
`instrumentedMethods`, and the bodies that were set: definitions with their method ids. -/
structure Process where
  profiler : ProfilerState
  mainMethodInfo : Option MethodInfo
  instrumentedMethods : List (UInt32 × ℕ)
  rewritten : List ((UInt32 × ℕ) × ℕ)

namespace Process

variable (p : Process)

def setEntryMain (info : MethodInfo) : Process := { p with mainMethodInfo := some info }

/-- `IsMain`: the name of the module comes with its zero, the one of the test without. -/
def isMain (method : MethodInfo) : Bool :=
  match p.mainMethodInfo with
  | none => false
  | some main =>
      if main.moduleNameLength ≠ method.moduleNameLength - 1 ∨ main.token ≠ method.token then false
      else (List.range main.moduleNameLength.toNat).all fun i =>
        main.moduleName[i]? = method.moduleName[i]?

def instrumentationIsNeeded (method : MethodInfo) : Bool :=
  p.isMain method || !p.profiler.collectMainOnly

/-- What follows the test `InstrumentationIsNeeded`: the id of main is set. -/
def setMainFunction (functionId : FunctionID) : Process :=
  if p.profiler.collectMainOnly then
    { p with profiler := { p.profiler with mainFunctionId := functionId } }
  else p

/-- The locked part: the method gets an id, and its definition is remembered. -/
def collectAndInsert (f : FunctionInfo) : ℕ × Process :=
  let (methodId, profiler) := p.profiler.collectMethod f.info
  (methodId, { p with
    profiler
    instrumentedMethods := f.definition :: p.instrumentedMethods })

/-- `doInstrumentation`, which ends with `SetILFunctionBody`. -/
def doInstrumentation (f : FunctionInfo) (methodId : ℕ) : Process :=
  { p with rewritten := p.rewritten ++ [(f.definition, methodId)] }

/-- `Instrumenter::instrument`. -/
def instrument (functionId : FunctionID) (f : FunctionInfo) : Process :=
  -- skipping non-main methods
  if !p.instrumentationIsNeeded f.info then p
  else
    let p := p.setMainFunction functionId
    -- checking if this method was rewritten before
    if f.definition ∈ p.instrumentedMethods then p
    else
      let (methodId, p) := p.collectAndInsert f
      p.doInstrumentation f methodId

end Process

/-- A method under test: its id, what the runtime tells about it, and what `SetEntryMain` is given
for it. -/
structure TestedMethod where
  functionId : FunctionID
  function : FunctionInfo
  entry : MethodInfo
  functionId_ne : functionId ≠ 0
  token_eq : entry.token = function.info.token
  moduleName_eq : function.info.moduleName = entry.moduleName ++ [0]

variable {p : Process}

/-- The method under test is main. -/
theorem TestedMethod.isMain (m : TestedMethod) :
    (p.setEntryMain m.entry).isMain m.function.info = true := by
  have hlength : m.entry.moduleNameLength = m.function.info.moduleNameLength - 1 := by
    have hfunction := m.function.info.moduleName_length
    rw [m.moduleName_eq, List.length_append, m.entry.moduleName_length] at hfunction
    have hbound := m.function.info.moduleNameLength.toNat_lt
    refine UInt32.toNat_inj.mp ?_
    rw [UInt32.toNat_sub]
    simp only [List.length_cons, List.length_nil, UInt32.toNat_one] at hfunction ⊢
    omega
  simp only [Process.isMain, Process.setEntryMain]
  rw [if_neg (by simp [hlength, m.token_eq]), List.all_eq_true]
  intro i hi
  have hlt : i < m.entry.moduleName.length := by
    rw [m.entry.moduleName_length]
    exact List.mem_range.mp hi
  rw [m.moduleName_eq, List.getElem?_append_left hlt]
  simp

end TestExecutor
