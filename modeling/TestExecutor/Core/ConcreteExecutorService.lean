import TestExecutor.Coverage.CoverageTool

/-!
# `ConcreteExecutorService`

A request is a batch of tests for one method.  Each test is resolved and called, what it returns or
throws is compared with what it expects, and behind the last test the coverage of the method is
collected and compared with what an attribute of the method promises.

* `ServiceTypes`, `Services` — what is left to the runtime, to the resolver and to the native side;
* `Attempt`, `attempt` — what a test comes to inside of the `try`;
* `runTest`, `checkCoverage`, `execute` — the service;
* `Services.Reproduces`, `Services.failure` — the verdict on a test;
* `execute_spec` — the result of a request, from the verdicts on its tests.
-/

namespace TestExecutor.ConcreteExecutorService

open TestExecutor.InteractionCoverageTool

/-- The state of the process, tests, methods, objects, exceptions and their types. -/
structure ServiceTypes where
  World : Type
  Test : Type
  Mth : Type
  Obj : Type
  Exn : Type
  Ty : Type
  decTy : DecidableEq Ty

attribute [instance] ServiceTypes.decTy

/-- The method that a batch is about: its graph, its token, the name of its module and its own. -/
structure Explored where
  cfg : CfgInfo
  method : Method
  token : Int32
  moduleName : List UInt16
  name : String

/-- What the service calls.  What runs code of others takes the state of the process to the next one. -/
structure Services (τ : ServiceTypes) where
  /-- `ResolveBatchExploredMethod` behind the first test, `getMethod` and `CFG`. -/
  explore : τ.Test → τ.World → Except τ.Exn Explored × τ.World
  /-- `Resolve`; the method may be null. -/
  resolve : τ.Test → τ.World → Except τ.Exn (Option τ.Mth × List τ.Obj × τ.Obj) × τ.World
  asException : τ.Obj → Option τ.Exn
  isStatic : τ.Mth → Bool
  null : τ.Obj
  setEntryMain : τ.Mth → τ.World → τ.World
  setCurrentThreadId : Int32 → τ.World → τ.World
  invoke : τ.Mth → τ.Obj → List τ.Obj → τ.World → Except τ.Exn τ.Obj × τ.World
  equals : τ.Obj → τ.Obj → τ.World → Except τ.Exn Bool × τ.World
  getHistory : τ.World → List UInt8
  /-- The inner exception, which may be null, of a `TargetInvocationException`. -/
  innerException : τ.Exn → Option (Option τ.Exn)
  getType : τ.Exn → τ.Ty
  objText : τ.Obj → String
  exnText : τ.Exn → String
  nullReference : τ.Exn
  indexOutOfRange : τ.Exn
  argumentOutOfRange : τ.Exn
  /-- Of `First`. -/
  invalidOperation : τ.Exn
  newException : String → τ.Exn
  toolException : ToolError → τ.Exn
  newLine : String
  opCodeName : ℕ → String
  /-- The types of `SamplesAssembly`, which may be null, and those with a name that ends right. -/
  samplesTypes : Option (List τ.Ty)
  isTestAttribute : τ.Ty → Bool
  /-- The attribute of the method, which may be null, and its `ExpectedCoverage`, which may be. -/
  customAttribute : τ.Ty → Option (Option Int32)

/-- `ExecutionResult`. -/
inductive ExecutionResult
  | success (coverage : Int32) (generatedTests : ℕ)
  | fail (reason : String) (coverage : Int32) (reproduced : ℕ)
  deriving DecidableEq, Repr

variable {τ : ServiceTypes} (sv : Services τ)

/-! ### One test -/

/-- What a test has come to: the expected and the actual value and whether they are equal, or an
exception; and the variables that were assigned on the way. -/
structure Attempt (τ : ServiceTypes) where
  result : Except τ.Exn (τ.Obj × τ.Obj × Bool)
  expectedException : Option τ.Exn
  entryMainWasSet : Bool
  world : τ.World

/-- The instance and the other arguments. -/
def instanceAndArgs (m : τ.Mth) (callArgs : List τ.Obj) : Except τ.Exn (τ.Obj × List τ.Obj) :=
  if sv.isStatic m then .ok (sv.null, callArgs)
  else
    match callArgs with
    | [] => .error sv.indexOutOfRange
    | target :: callArgs => .ok (target, callArgs)

/-- The part behind `SetEntryMain`. -/
def call (m : τ.Mth) (target : τ.Obj) (callArgs : List τ.Obj) (expected : τ.Obj) (w : τ.World) :
    Except τ.Exn (τ.Obj × τ.Obj × Bool) × τ.World :=
  match sv.invoke m target callArgs (sv.setCurrentThreadId 0 w) with
  | (.error e, w) => (.error e, w)
  | (.ok actual, w) =>
      match sv.equals expected actual w with
      | (.error e, w) => (.error e, w)
      | (.ok resultsEqual, w) => (.ok (expected, actual, resultsEqual), w)

/-- The body of the `try`. -/
def attempt (w : τ.World) (test : τ.Test) : Attempt τ :=
  match sv.resolve test w with
  | (.error e, w) => ⟨.error e, none, false, w⟩
  | (.ok (none, _, expected), w) => ⟨.error sv.nullReference, sv.asException expected, false, w⟩
  | (.ok (some m, callArgs, expected), w) =>
      match instanceAndArgs sv m callArgs with
      | .error e => ⟨.error e, sv.asException expected, false, w⟩
      | .ok (target, callArgs) =>
          let (result, w) := call sv m target callArgs expected (sv.setEntryMain m w)
          ⟨result, sv.asException expected, true, w⟩

/-- The variables of `Execute`. -/
structure Execution (τ : ServiceTypes) where
  failedTestsReasons : List String
  reproduced : ℕ
  entryMainWasSet : Bool
  world : τ.World

/-- One round of the loop over the tests, with the handlers. -/
def runTest (x : Execution τ) (test : τ.Test) : Execution τ :=
  let a := attempt sv x.world test
  let x := { x with entryMainWasSet := x.entryMainWasSet || a.entryMainWasSet, world := a.world }
  match a.result with
  | .ok (expected, actual, resultsEqual) =>
      if resultsEqual then { x with reproduced := x.reproduced + 1 }
      else
        let reason := "Symbolic result is not equal to actual, expected " ++ sv.objText expected
          ++ ", actual " ++ sv.objText actual
        { x with failedTestsReasons := x.failedTestsReasons ++ [reason] }
  | .error e =>
      match sv.innerException e with
      | some actualException =>
          if actualException.map sv.getType = a.expectedException.map sv.getType then
            { x with reproduced := x.reproduced + 1 }
          else
            let reason := "Unexpected exception " ++ (actualException.map sv.exnText).getD ""
            { x with failedTestsReasons := x.failedTestsReasons ++ [reason] }
      | none =>
          let reason := "Internal error occured:\n" ++ sv.exnText e
          { x with failedTestsReasons := x.failedTestsReasons ++ [reason] }

/-! ### The request -/

/-- `CheckCoverage`. -/
def checkCoverage (name : String) (actual : Int32) : Except τ.Exn Bool :=
  match sv.samplesTypes with
  | none => .error sv.nullReference
  | some types =>
      match types.find? sv.isTestAttribute with
      | none => .error sv.invalidOperation
      | some testSvmAttribute =>
          match sv.customAttribute testSvmAttribute with
          | none => .error (sv.newException
              ("Method " ++ name ++ " does not have expected SvmTestAttribute"))
          | some none => .error (sv.newException
              ("Method " ++ name ++ " does not have expected coverage attribute set"))
          | some (some expectedCoverage) => .ok (actual = expectedCoverage)

/-- `ComputeCoverage` on the method of the batch. -/
def coverageOf (explored : Explored) (entryMainWasSet : Bool) (w : τ.World) :
    Except τ.Exn (Int32 × String) :=
  (computeCoverage explored.cfg explored.method sv.newLine sv.opCodeName entryMainWasSet
    (sv.getHistory w) explored.token explored.moduleName).mapError sv.toolException

/-- What follows the loop. -/
def conclude (explored : Explored) (allTestsCount : ℕ) (x : Execution τ) :
    Except τ.Exn ExecutionResult := do
  let (actualCoverage, info) ← coverageOf sv explored x.entryMainWasSet x.world
  if x.failedTestsReasons ≠ [] then
    pure (.fail ("\n".intercalate x.failedTestsReasons) actualCoverage x.reproduced)
  else if ← checkCoverage sv explored.name actualCoverage then
    pure (.success actualCoverage allTestsCount)
  else
    pure (.fail ("Actual coverage is " ++ toString actualCoverage.toInt ++ "\n" ++ info) actualCoverage
      x.reproduced)

/-- `Execute`. -/
def execute (w : τ.World) (tests : List τ.Test) : Except τ.Exn ExecutionResult :=
  match tests with
  | [] => .error sv.argumentOutOfRange
  | test :: _ =>
      match sv.explore test w with
      | (.error e, _) => .error e
      | (.ok explored, w) =>
          conclude sv explored tests.length (tests.foldl (runTest sv) ⟨[], 0, false, w⟩)

/-! ### The verdicts -/

/-- What the tests come to, one behind the other. -/
def attempts (w : τ.World) : List τ.Test → List (Attempt τ)
  | [] => []
  | test :: tests =>
      let a := attempt sv w test
      a :: attempts a.world tests

/-- The state behind the tests. -/
def behind (w : τ.World) (as : List (Attempt τ)) : τ.World := as.foldl (fun _ a => a.world) w

/-- Why a test fails, if it does. -/
def failure (a : Attempt τ) : Option String :=
  match a.result with
  | .ok (expected, actual, resultsEqual) =>
      if resultsEqual then none
      else some ("Symbolic result is not equal to actual, expected " ++ sv.objText expected
        ++ ", actual " ++ sv.objText actual)
  | .error e =>
      match sv.innerException e with
      | some actualException =>
          if actualException.map sv.getType = a.expectedException.map sv.getType then none
          else some ("Unexpected exception " ++ (actualException.map sv.exnText).getD "")
      | none => some ("Internal error occured:\n" ++ sv.exnText e)

/-- The value is the expected one, or the exception comes from a called method and has the type of the
expected one, where no exception has the type of no exception. -/
def Reproduces (a : Attempt τ) : Prop :=
  (∃ expected actual, a.result = .ok (expected, actual, true))
    ∨ ∃ e actualException, a.result = .error e ∧ sv.innerException e = some actualException
      ∧ actualException.map sv.getType = a.expectedException.map sv.getType

variable {sv}

theorem failure_eq_none_iff {a : Attempt τ} : failure sv a = none ↔ Reproduces sv a := by
  obtain ⟨result, expectedException, entryMainWasSet, w⟩ := a
  unfold failure Reproduces
  cases result with
  | ok values =>
      obtain ⟨expected, actual, resultsEqual⟩ := values
      cases resultsEqual <;> simp
  | error e =>
      cases hinner : sv.innerException e with
      | none => simp [hinner]
      | some actualException => simp [hinner]

/-- A round adds one to the tests that are reproduced, or a reason. -/
theorem runTest_eq (x : Execution τ) (test : τ.Test) :
    runTest sv x test = ⟨x.failedTestsReasons ++ (failure sv (attempt sv x.world test)).toList,
      x.reproduced + (if failure sv (attempt sv x.world test) = none then 1 else 0),
      x.entryMainWasSet || (attempt sv x.world test).entryMainWasSet,
      (attempt sv x.world test).world⟩ := by
  unfold runTest failure
  generalize attempt sv x.world test = a
  obtain ⟨result, expectedException, entryMainWasSet, w⟩ := a
  cases result with
  | ok values =>
      obtain ⟨expected, actual, resultsEqual⟩ := values
      cases resultsEqual <;> simp
  | error e =>
      cases hinner : sv.innerException e with
      | none => simp [hinner]
      | some actualException =>
          by_cases htype : actualException.map sv.getType = expectedException.map sv.getType
          · simp [hinner, htype]
          · simp [hinner, htype]

/-- The loop over the tests. -/
theorem foldl_runTest (tests : List τ.Test) : ∀ x : Execution τ,
    tests.foldl (runTest sv) x
      = ⟨x.failedTestsReasons ++ (attempts sv x.world tests).filterMap (failure sv),
        x.reproduced + (attempts sv x.world tests).countP fun a => failure sv a = none,
        x.entryMainWasSet || (attempts sv x.world tests).any Attempt.entryMainWasSet,
        behind x.world (attempts sv x.world tests)⟩ := by
  induction tests with
  | nil =>
      intro x
      simp [attempts, behind]
  | cons test tests ih =>
      intro x
      rw [List.foldl_cons, ih, runTest_eq]
      simp only [attempts, behind, List.foldl_cons, List.any_cons, List.countP_cons, Bool.or_assoc,
        decide_eq_true_eq]
      congr 1
      · cases hfailure : failure sv (attempt sv x.world test) with
        | none => simp [hfailure]
        | some reason => simp [hfailure]
      · omega

theorem attempts_length (w : τ.World) (tests : List τ.Test) :
    (attempts sv w tests).length = tests.length := by
  induction tests generalizing w with
  | nil => rfl
  | cons test tests ih => rw [attempts, List.length_cons, ih, List.length_cons]

/-- No reasons, no failures. -/
theorem filterMap_failure_eq_nil_iff {as : List (Attempt τ)} :
    as.filterMap (failure sv) = [] ↔ ∀ a ∈ as, Reproduces sv a := by
  rw [List.filterMap_eq_nil_iff]
  exact forall₂_congr fun _ _ => failure_eq_none_iff

/-! ### The result -/

/-- A request with a method: what follows the loop, in terms of the verdicts. -/
theorem execute_eq {w w₁ : τ.World} {test : τ.Test} {tests : List τ.Test} {explored : Explored}
    (hexplore : sv.explore test w = (.ok explored, w₁)) {as : List (Attempt τ)}
    (has : as = attempts sv w₁ (test :: tests)) :
    execute sv w (test :: tests) = conclude sv explored (tests.length + 1)
      ⟨as.filterMap (failure sv), as.countP fun a => failure sv a = none,
        as.any Attempt.entryMainWasSet, behind w₁ as⟩ := by
  rw [execute, hexplore]
  dsimp only
  rw [foldl_runTest, List.nil_append, Nat.zero_add, Bool.false_or, List.length_cons, has]

/-- Success is reported when there are no reasons and the coverage is the promised one. -/
theorem conclude_success_iff {explored : Explored} {n : ℕ} {x : Execution τ} {c : Int32} {k : ℕ} :
    conclude sv explored n x = .ok (.success c k) ↔ k = n ∧ x.failedTestsReasons = []
      ∧ (∃ info, coverageOf sv explored x.entryMainWasSet x.world = .ok (c, info))
      ∧ checkCoverage sv explored.name c = .ok true := by
  unfold conclude
  cases hcoverage : coverageOf sv explored x.entryMainWasSet x.world with
  | error e => simp [bind, Except.bind]
  | ok p =>
      obtain ⟨actualCoverage, info⟩ := p
      by_cases hreasons : x.failedTestsReasons = []
      · cases hcheck : checkCoverage sv explored.name actualCoverage with
        | error e =>
            simp only [bind, Except.bind, hreasons, ne_eq, not_true_eq_false, if_false, hcheck]
            refine iff_of_false (by rintro ⟨⟩) ?_
            rintro ⟨-, -, ⟨info', heq⟩, hcheck'⟩
            obtain ⟨rfl, -⟩ := Prod.mk.inj (Except.ok.inj heq)
            cases hcheck.symm.trans hcheck'
        | ok agrees =>
            cases agrees with
            | false =>
                simp only [bind, Except.bind, hreasons, ne_eq, not_true_eq_false, if_false, hcheck,
                  pure, Except.pure, Bool.false_eq_true]
                refine iff_of_false (by rintro ⟨⟩) ?_
                rintro ⟨-, -, ⟨info', heq⟩, hcheck'⟩
                obtain ⟨rfl, -⟩ := Prod.mk.inj (Except.ok.inj heq)
                cases hcheck.symm.trans hcheck'
            | true =>
                simp only [bind, Except.bind, hreasons, ne_eq, not_true_eq_false, if_false, hcheck,
                  pure, Except.pure, if_true, Except.ok.injEq, ExecutionResult.success.injEq,
                  Prod.mk.injEq, true_and]
                constructor
                · rintro ⟨rfl, rfl⟩
                  exact ⟨rfl, ⟨info, rfl, rfl⟩, hcheck⟩
                · rintro ⟨rfl, ⟨info', rfl, -⟩, -⟩
                  exact ⟨rfl, rfl⟩
      · simp [bind, Except.bind, hreasons, pure, Except.pure]

/-- A failure has the number of the tests that were reproduced, and the reasons of the others; if there
are none, then the coverage is not the promised one. -/
theorem conclude_fail {explored : Explored} {n : ℕ} {x : Execution τ} {reason : String} {c : Int32}
    {k : ℕ} (h : conclude sv explored n x = .ok (.fail reason c k)) : k = x.reproduced
      ∧ (∃ info, coverageOf sv explored x.entryMainWasSet x.world = .ok (c, info))
      ∧ (x.failedTestsReasons ≠ [] → reason = "\n".intercalate x.failedTestsReasons)
      ∧ (x.failedTestsReasons = [] → checkCoverage sv explored.name c = .ok false) := by
  unfold conclude at h
  cases hcoverage : coverageOf sv explored x.entryMainWasSet x.world with
  | error e =>
      rw [hcoverage] at h
      cases h
  | ok p =>
      obtain ⟨actualCoverage, info⟩ := p
      rw [hcoverage] at h
      by_cases hreasons : x.failedTestsReasons = []
      · cases hcheck : checkCoverage sv explored.name actualCoverage with
        | error e => simp [bind, Except.bind, hreasons, hcheck] at h
        | ok agrees =>
            cases agrees with
            | true => simp [bind, Except.bind, hreasons, hcheck, pure, Except.pure] at h
            | false =>
                simp only [bind, Except.bind, hreasons, ne_eq, not_true_eq_false, if_false, hcheck,
                  pure, Except.pure, Bool.false_eq_true, Except.ok.injEq,
                  ExecutionResult.fail.injEq] at h
                obtain ⟨-, rfl, rfl⟩ := h
                exact ⟨rfl, ⟨info, rfl⟩, fun hne => absurd hreasons hne, fun _ => hcheck⟩
      · simp only [bind, Except.bind, hreasons, ne_eq, not_false_eq_true, if_true, pure, Except.pure,
          Except.ok.injEq, ExecutionResult.fail.injEq] at h
        obtain ⟨rfl, rfl, rfl⟩ := h
        exact ⟨rfl, ⟨info, rfl⟩, fun _ => rfl, fun heq => absurd heq hreasons⟩

/-- **The result of a request.**  Success is reported exactly if every test of the batch has reproduced
what it expects and the coverage is the promised one.  A failure counts the tests that have, and has the
reasons of all others in their order.  But if no test has come as far as to the call of its method, then
there is no result, whatever the reasons. -/
theorem execute_spec (sv : Services τ) {w w₁ : τ.World} {test : τ.Test} {tests : List τ.Test}
    {explored : Explored} (hexplore : sv.explore test w = (.ok explored, w₁))
    {as : List (Attempt τ)} (has : as = attempts sv w₁ (test :: tests)) :
    as.length = tests.length + 1
      ∧ (∀ c n, execute sv w (test :: tests) = .ok (.success c n) ↔ n = tests.length + 1
        ∧ (∀ a ∈ as, Reproduces sv a)
        ∧ (∃ info, coverageOf sv explored (as.any Attempt.entryMainWasSet) (behind w₁ as)
          = .ok (c, info))
        ∧ checkCoverage sv explored.name c = .ok true)
      ∧ (∀ reason c k, execute sv w (test :: tests) = .ok (.fail reason c k) →
        k = (as.countP fun a => failure sv a = none)
          ∧ ((∃ a ∈ as, ¬Reproduces sv a) → reason = "\n".intercalate (as.filterMap (failure sv)))
          ∧ ((∀ a ∈ as, Reproduces sv a) → checkCoverage sv explored.name c = .ok false))
      ∧ ((∀ a ∈ as, a.entryMainWasSet = false) → execute sv w (test :: tests)
        = .error (sv.toolException (.internalException
          "Try call GetRawHistory, while entryMain wasn't set"))) := by
  rw [execute_eq hexplore has]
  refine ⟨by rw [has, attempts_length, List.length_cons], fun c n => ?_, fun reason c k h => ?_,
    fun hnone => ?_⟩
  · rw [conclude_success_iff, filterMap_failure_eq_nil_iff]
  · obtain ⟨hk, -, hreasons, hcheck⟩ := conclude_fail h
    refine ⟨hk, fun hfails => hreasons fun hnil => ?_,
      fun hall => hcheck (filterMap_failure_eq_nil_iff.mpr hall)⟩
    obtain ⟨a, ha, hnot⟩ := hfails
    exact hnot (filterMap_failure_eq_nil_iff.mp hnil a ha)
  · have hany : as.any Attempt.entryMainWasSet = false := by
      rw [List.any_eq_false]
      exact fun a ha => by simp [hnone a ha]
    rw [conclude, hany]
    rfl

/-- Exceptions by their messages, and nothing else that differs. -/
def messages : ServiceTypes := ⟨Unit, Unit, Unit, Unit, String, Unit, inferInstance⟩

/-- No test can be resolved. -/
def unresolved : Services messages where
  explore := fun _ w => (.ok ⟨⟨fun _ => .new 0, [], 0, [], .empty⟩,
    ⟨⟨[0x00, 0x00, 0x2A], by decide⟩, [], .empty, [], fun _ => true⟩, 0x06000001, [], "Main"⟩, w)
  resolve := fun _ w => (.error "Object reference not set to an instance of an object.", w)
  asException := fun _ => none
  isStatic := fun _ => true
  null := ()
  setEntryMain := fun _ w => w
  setCurrentThreadId := fun _ w => w
  invoke := fun _ _ _ w => (.ok (), w)
  equals := fun _ _ w => (.ok true, w)
  getHistory := fun _ => []
  innerException := fun _ => none
  getType := fun _ => ()
  objText := fun _ => ""
  exnText := id
  nullReference := "Object reference not set to an instance of an object."
  indexOutOfRange := "Index was outside the bounds of the array."
  argumentOutOfRange := "Index was out of range."
  invalidOperation := "Sequence contains no matching element"
  newException := id
  toolException := fun
    | .internalException message | .failure message => message
    | .net _ | .cfg _ => ""
  newLine := "\n"
  opCodeName := toString
  samplesTypes := none
  isTestAttribute := fun _ => true
  customAttribute := fun _ => none

/-- The reasons of both tests are lost. -/
theorem execute_spec_unresolved : execute unresolved () [(), ()]
    = .error "Try call GetRawHistory, while entryMain wasn't set" := by
  obtain ⟨-, -, -, hnone⟩ := @execute_spec messages unresolved () () () [()] _ rfl _ rfl
  exact hnone (by decide)

end TestExecutor.ConcreteExecutorService
