import TestExecutor.Profiler.EntryMethod
import TestExecutor.Profiler.NestedUnwinding
import TestExecutor.Profiler.Rounds

/-!
# The assertions of a driven session

`ConcreteExecutorService.Execute` on one thread, in main-only mode: `SetEntryMain`,
`SetCurrentThreadId`, and an invocation that fails before main is entered, or that enters main and
leaves it by a return; `GetHistory` between tests.

* `BodyEvent`, `BodyEvent.step` — what happens inside main, and to the frames above it;
* `Outcome`, `DriverOp`, `DriverOp.run` — tests and collections;
* `IsDriven` — the bodies take place above the frame of main;
* `AssertionsHold` — no `profiler_assert` fails;
* `NoTestWhileMapped`, `UnwindingsRemembered` — what the assertions rest on; `PopsOwnFrames` — the
  end of another function's unwinding is not taken for the end of main's;
* `InsideMain`, `Between` — the invariants inside main and between tests; `assertionsHold_iff`.
-/

namespace TestExecutor

open TestExecutor.Library ProfilerState

/-! ### Inside main -/

/-- Frames of main and exceptions, and the other probes of methods under test. -/
inductive BodyEvent where
  | frame (e : FrameEvent)
  | probe (e : ProbeEvent)

def BodyEvent.run (s : ProfilerState) (thread : ThreadID) :
    BodyEvent → Except Fault ProfilerState
  | .frame e => e.run s thread
  | .probe e => e.run s thread

def runBodyEvents (thread : ThreadID) (s : ProfilerState) (body : List BodyEvent) :
    Except Fault ProfilerState := body.foldlM (fun s e => e.run s thread) s

/-- A frame of a method under test is left. -/
def NestedFrames.popMain (fs : NestedFrames) : Option NestedFrames :=
  match fs.stack with
  | .main :: below => if fs.CanPop then some { fs with stack := below } else none
  | _ => none

/-- What an event does to the frames above that of main; `mains` are the methods that carry the
probes of main: all that were compiled while they were under test. -/
def BodyEvent.step (mains : List FunctionID) (fs : NestedFrames) :
    BodyEvent → Option NestedFrames
  | .probe e =>
      match e.probe with
      | .tailcall => fs.popMain
      | .coverage | .branch | .call | .stsfld | .throw => some fs
      | .enter | .enterMain | .leave | .leaveMain => none
  | .frame (.enterMain _ _) => some { fs with stack := .main :: fs.stack }
  | .frame (.leaveMain _ _) => fs.popMain
  | .frame (.unwindEnter functionId _) =>
      if functionId ∈ mains → fs.stack.head? = some .main ∧ fs.CanPop
        then some { fs with pending := (functionId, fs.stack) :: fs.pending } else none
  | .frame .unwindLeave =>
      match fs.pending with
      | (functionId, base) :: rest =>
          if fs.stack = base then some ⟨if functionId ∈ mains then base.tail else base, rest⟩
          else none
      | [] => none
  | .frame (.catchEnter _ _) => some fs
  | .frame .filterEnter => some { fs with stack := .filter :: fs.stack }
  | .frame .filterLeave =>
      match fs.stack with
      | .filter :: below => if fs.CanPop then some { fs with stack := below } else none
      | _ => none

/-- The events can happen one after the other. -/
def bodyFrames (mains : List FunctionID) (fs : NestedFrames) :
    List BodyEvent → Option NestedFrames
  | [] => some fs
  | e :: es => (e.step mains fs).bind fun fs' => bodyFrames mains fs' es

/-! ### Tests and collections -/

/-- How the invocation of a test goes.  An early failure may have compiled the method. -/
inductive Outcome where
  | failsEarly (compiles : Bool)
  | returns (methodId : Int32) (enterOffset : UInt32) (body : List BodyEvent)
      (leaveOffset : UInt32)

/-- One step of a session on one thread. -/
inductive DriverOp where
  | test (method : TestedMethod) (outcome : Outcome)
  | getHistory

/-- What happens inside main, if it is entered. -/
def DriverOp.body : DriverOp → List BodyEvent
  | .test _ (.returns _ _ body _) => body
  | _ => []

/-- The functions that were compiled under test, and the one that came last. -/
structure Compilations where
  compiled : List FunctionID
  latest : FunctionID

def Compilations.compile (c : Compilations) (functionId : FunctionID) : Compilations :=
  if functionId ∈ c.compiled then c else ⟨functionId :: c.compiled, functionId⟩

/-- The compilations behind a step. -/
def DriverOp.compilations (c : Compilations) : DriverOp → Compilations
  | .test _ (.failsEarly false) => c
  | .test method _ => c.compile method.functionId
  | .getHistory => c

namespace Session

/-- `SetEntryMain` and `SetCurrentThreadId(0)`. -/
def setUp (session : Session) (thread : ThreadID) (method : TestedMethod) : Session :=
  let p := session.process.setEntryMain method.entry
  { session with process := { p with profiler := p.profiler.setCurrentThreadId thread 0 } }

/-- A method is compiled, and instrumented, once. -/
def compile (session : Session) (method : TestedMethod) : Session :=
  if method.functionId ∈ session.compiled then session
  else {
    process := session.process.instrument method.functionId method.function
    compiled := method.functionId :: session.compiled }

end Session

/-- The probes of an invocation. -/
def invoke (thread : ThreadID) (methodId : Int32) (enterOffset : UInt32) (body : List BodyEvent)
    (leaveOffset : UInt32) (s : ProfilerState) : Except Fault ProfilerState := do
  let s ← s.trackEnterMain thread enterOffset methodId
  let s ← runBodyEvents thread s body
  s.trackLeaveMain thread leaveOffset methodId

def DriverOp.run (thread : ThreadID) (session : Session) : DriverOp → Except Fault Session
  | .test method (.failsEarly compiles) =>
      let session := session.setUp thread method
      .ok (if compiles then session.compile method else session)
  | .test method (.returns methodId enterOffset body leaveOffset) => do
      let session := (session.setUp thread method).compile method
      let s ← invoke thread methodId enterOffset body leaveOffset session.process.profiler
      pure { session with process := { session.process with profiler := s } }
  | .getHistory =>
      .ok { session with
        process := { session.process with profiler := session.process.profiler.getHistory.2 } }

/-- The body of every invocation takes place above the frame of main. -/
def IsDriven : Compilations → List DriverOp → Prop
  | _, [] => True
  | c, op :: ops => bodyFrames (op.compilations c).compiled .empty op.body = some .empty
      ∧ IsDriven (op.compilations c) ops

/-- Every step runs, and no assertion has failed behind it. -/
def AssertionsHold (thread : ThreadID) : Session → List DriverOp → Prop
  | _, [] => True
  | session, op :: ops => ∃ session', op.run thread session = .ok session'
      ∧ session'.process.profiler.failedAsserts = [] ∧ AssertionsHold thread session' ops

/-! ### What the assertions rest on -/

/-- The function that is remembered behind an event. -/
def BodyEvent.remembers (last : Option FunctionID) : BodyEvent → Option FunctionID
  | .frame e => e.remembers last
  | .probe _ => last

/-- How many events of a body meet a condition on the frames and on what is remembered. -/
def countEvents (mains : List FunctionID) (P : NestedFrames → Option FunctionID → BodyEvent → Bool) :
    NestedFrames → Option FunctionID → List BodyEvent → ℕ
  | _, _, [] => 0
  | fs, last, e :: es => (if P fs last e then 1 else 0)
      + (e.step mains fs).elim 0 fun fs' => countEvents mains P fs' (e.remembers last) es

/-- The unwinding of a function that meets `P` ends. -/
def BodyEvent.ends (P : FunctionID → Bool) (fs : NestedFrames) : BodyEvent → Bool
  | .frame .unwindLeave => fs.pending.head?.any fun p => P p.1
  | _ => false

/-- An unwinding ends, and nothing is remembered. -/
def BodyEvent.endsForgotten (fs : NestedFrames) (last : Option FunctionID) (e : BodyEvent) : Bool :=
  e.ends (fun _ => decide (last = none)) fs

/-- The unwinding of a method under test ends, while the one that was compiled last is not what is
remembered: the profiler does not notice that a frame is removed. -/
def BodyEvent.endsUnnoticed (c : Compilations) (fs : NestedFrames) (last : Option FunctionID)
    (e : BodyEvent) : Bool :=
  e.ends (fun f => decide (f ∈ c.compiled) && decide (last ≠ some c.latest)) fs

/-- The unwinding of another function ends, while that method is remembered: the profiler removes a
frame of main that is still there. -/
def BodyEvent.popsForeign (c : Compilations) (fs : NestedFrames) (last : Option FunctionID)
    (e : BodyEvent) : Bool :=
  e.ends (fun f => decide (f ∉ c.compiled) && decide (last = some c.latest)) fs

/-- Inside no test does the profiler remove a frame for the unwinding of another function. -/
def PopsOwnFrames : Compilations → List DriverOp → Prop
  | _, [] => True
  | c, op :: ops =>
      countEvents (op.compilations c).compiled (BodyEvent.popsForeign (op.compilations c)) .empty
        none op.body = 0
      ∧ PopsOwnFrames (op.compilations c) ops

/-- Whenever an unwinding ends inside a test, something is remembered. -/
def UnwindingsRemembered : Compilations → List DriverOp → Prop
  | _, [] => True
  | c, op :: ops =>
      countEvents (op.compilations c).compiled BodyEvent.endsForgotten .empty none op.body = 0
      ∧ UnwindingsRemembered (op.compilations c) ops

/-- The test leaves its thread mapped: main was not entered, or a frame was removed unnoticed. -/
def DriverOp.leavesMapped (c : Compilations) : DriverOp → Bool
  | .test _ (.failsEarly _) => true
  | .test _ (.returns _ _ body _) =>
      decide (0 < countEvents c.compiled (BodyEvent.endsUnnoticed c) .empty none body)
  | .getHistory => false

def DriverOp.isTest : DriverOp → Bool
  | .test _ _ => true
  | .getHistory => false

/-- No test starts while its thread is still mapped by an earlier one. -/
def NoTestWhileMapped : Compilations → Bool → List DriverOp → Prop
  | _, _, [] => True
  | c, mapped, op :: ops => (op.isTest = true → mapped = false)
      ∧ NoTestWhileMapped (op.compilations c) (op.leavesMapped (op.compilations c)) ops

/-! ### The invariant inside main -/

/-- The profiler inside main: the balance counts the frames of methods under test, and `surplus`
frames that were unwound without being noticed; `last` is remembered of the unwindings. -/
structure InsideMain (c : Compilations) (asserts : List AssertSite) (s : ProfilerState)
    (thread : ThreadID) (fs : NestedFrames) (last : Option FunctionID) (surplus : ℕ) : Prop where
  tracked : ∃ history, Tracked s thread ((frames fs.stack + 1 + surplus : ℕ) : ℤ)
    ((fs.stack.count .filter : ℕ) : ℤ) history
  mapped : s.hasMapping thread = true
  asserts_eq : s.failedAsserts = asserts
  running : s.isFinished = false
  mainOnly : s.collectMainOnly = true
  active : s.isPassiveRun = false
  latest_eq : s.mainFunctionId = c.latest
  remembered : fs.pending ≠ [] → s.unwindFunctionIds.lookup thread = last
  main_on_top : ∀ p ∈ fs.pending, p.1 ∈ c.compiled → p.2.head? = some .main

/-- What the events inside main leave alone. -/
structure SameFlags (s s' : ProfilerState) : Prop where
  mapping_eq : s'.threadIdMapping = s.threadIdMapping
  asserts_eq : s'.failedAsserts = s.failedAsserts
  isFinished_eq : s'.isFinished = s.isFinished
  collectMainOnly_eq : s'.collectMainOnly = s.collectMainOnly
  isPassiveRun_eq : s'.isPassiveRun = s.isPassiveRun
  mainFunctionId_eq : s'.mainFunctionId = s.mainFunctionId

theorem SameFlags.refl (s : ProfilerState) : SameFlags s s := ⟨rfl, rfl, rfl, rfl, rfl, rfl⟩

variable {c : Compilations} {s s' : ProfilerState} {thread : ThreadID} {fs fs' : NestedFrames}
  {last last' : Option FunctionID} {surplus surplus' : ℕ} {asserts : List AssertSite}

theorem InsideMain.of_sameFlags (h : InsideMain c asserts s thread fs last surplus)
    (hflags : SameFlags s s')
    (htracked : ∃ history, Tracked s' thread ((frames fs'.stack + 1 + surplus' : ℕ) : ℤ)
      ((fs'.stack.count .filter : ℕ) : ℤ) history)
    (hremembered : fs'.pending ≠ [] → s'.unwindFunctionIds.lookup thread = last')
    (htop : ∀ p ∈ fs'.pending, p.1 ∈ c.compiled → p.2.head? = some .main) :
    InsideMain c asserts s' thread fs' last' surplus' where
  tracked := htracked
  mapped := by
    rw [hasMapping, hflags.mapping_eq]
    exact h.mapped
  asserts_eq := hflags.asserts_eq.trans h.asserts_eq
  running := hflags.isFinished_eq.trans h.running
  mainOnly := hflags.collectMainOnly_eq.trans h.mainOnly
  active := hflags.isPassiveRun_eq.trans h.active
  latest_eq := hflags.mainFunctionId_eq.trans h.latest_eq
  remembered := hremembered
  main_on_top := htop

/-- A failed assertion is recorded, and nothing else is changed. -/
theorem InsideMain.profilerAssert (h : InsideMain c asserts s thread fs last surplus)
    (site : AssertSite) (e : Bool) :
    InsideMain c (asserts ++ if e then [] else [site]) (s.profilerAssert site e) thread fs last
      surplus := by
  cases e with
  | true => simpa using h
  | false =>
      obtain ⟨history, htracked⟩ := h.tracked
      exact ⟨⟨history, htracked.balance_eq, htracked.filters_eq, htracked.history_eq⟩, h.mapped,
        congrArg (· ++ [site]) h.asserts_eq, h.running, h.mainOnly, h.active, h.latest_eq,
        h.remembered, h.main_on_top⟩

/-- Probes and filters leave the unwindings under way alone. -/
theorem InsideMain.of_sameUnwinding {stack : List Frame}
    (h : InsideMain c asserts s thread fs last surplus)
    (hflags : SameFlags s s') (hids : s'.unwindFunctionIds = s.unwindFunctionIds)
    (htracked : ∃ history, Tracked s' thread ((frames stack + 1 + surplus : ℕ) : ℤ)
      ((stack.count .filter : ℕ) : ℤ) history) :
    InsideMain c asserts s' thread ⟨stack, fs.pending⟩ last surplus :=
  h.of_sameFlags hflags htracked (by rw [hids]; exact h.remembered) h.main_on_top

theorem NestedFrames.popMain_eq (hpop : fs.popMain = some fs') :
    fs.stack = .main :: fs'.stack ∧ fs'.pending = fs.pending := by
  rw [NestedFrames.popMain] at hpop
  split at hpop
  · rename_i below hstack
    split at hpop
    · obtain rfl := (Option.some.inj hpop).symm
      exact ⟨hstack, rfl⟩
    · cases hpop
  · cases hpop

/-- A frame above that of main is left. -/
theorem InsideMain.popMain (h : InsideMain c asserts s thread fs last surplus)
    (hpop : fs.popMain = some fs') (hflags : SameFlags s s')
    (hids : s'.unwindFunctionIds = s.unwindFunctionIds)
    (hleft : ∀ (balance filters : ℤ) (history : CoverageHistory),
      Tracked s thread balance filters history →
        2 ≤ balance → ∃ history', Tracked s' thread (balance - 1) filters history') :
    InsideMain c asserts s' thread fs' last surplus := by
  obtain ⟨hstack, hpending⟩ := NestedFrames.popMain_eq hpop
  obtain ⟨history, htracked⟩ := h.tracked
  rw [hstack, frames_main, List.count_cons_of_ne (by decide)] at htracked
  obtain ⟨history', hleft⟩ := hleft _ _ _ htracked (by push_cast; omega)
  have hbalance : ((frames fs'.stack + 1 + 1 + surplus : ℕ) : ℤ) - 1
      = ((frames fs'.stack + 1 + surplus : ℕ) : ℤ) := by
    push_cast
    omega
  rw [hbalance] at hleft
  have hinside := h.of_sameUnwinding hflags hids ⟨history', hleft⟩
  rwa [← hpending] at hinside

/-- The end of an unwinding for which no frame of main is popped; an assertion fails when nothing is
remembered. -/
theorem unwindFunctionLeave_ignored {balance filters : ℤ} {history : CoverageHistory}
    (h : Tracked s thread balance filters history) (hmode : s.collectMainOnly = true)
    (hother : s.mainFunctionId ≠ ThreadStorage.load s.unwindFunctionIds thread) :
    s.unwindFunctionLeave thread = .ok {
      s.profilerAssert .threadStorage (ThreadStorage.exist s.unwindFunctionIds thread) with
        unwindFunctionIds := s.unwindFunctionIds.erase thread } := by
  obtain ⟨asserts, hs⟩ := profilerAssert_eq s .threadStorage
    (ThreadStorage.exist s.unwindFunctionIds thread)
  simp [unwindFunctionLeave, h.isCurrentThreadTracked, hs, hmode, hother, ThreadStorage.remove]

/-- The end of an unwinding: a frame is popped when the method that was compiled last is remembered,
and an assertion fails when nothing is. -/
theorem InsideMain.unwindLeave {functionId : FunctionID} {rest : List (FunctionID × List Frame)}
    (h : InsideMain c asserts s thread fs last surplus)
    (hpending : fs.pending = (functionId, fs.stack) :: rest)
    (hown : last = some c.latest → functionId ∈ c.compiled) (hlatest : c.latest ≠ 0) :
    ∃ s', s.exceptionUnwindFunctionLeave thread = .ok s'
      ∧ InsideMain c (asserts ++ if last.isSome then [] else [.threadStorage]) s' thread
        ⟨if functionId ∈ c.compiled then fs.stack.tail else fs.stack, rest⟩ none
        (surplus + if functionId ∈ c.compiled ∧ last ≠ some c.latest then 1 else 0) := by
  obtain ⟨history, htracked⟩ := h.tracked
  have hid : s.unwindFunctionIds.lookup thread = last := h.remembered (by simp [hpending])
  have hrun : s.exceptionUnwindFunctionLeave thread = s.unwindFunctionLeave thread := by
    rw [exceptionUnwindFunctionLeave, h.running, htracked.isCurrentThreadTracked]
    exact if_neg (by simp)
  have htop : ∀ p ∈ rest, p.1 ∈ c.compiled → p.2.head? = some .main := fun p hp =>
    h.main_on_top p (by rw [hpending]; exact List.mem_cons_of_mem _ hp)
  have hstack : functionId ∈ c.compiled → ∃ below, fs.stack = .main :: below := fun hmem =>
    List.head?_eq_some_iff.mp (h.main_on_top _ (by rw [hpending]; exact List.mem_cons_self) hmem)
  rw [hrun]
  by_cases hmain : last = some c.latest
  · -- the profiler pops the frame
    have hmem := hown hmain
    obtain ⟨below, hbelow⟩ := hstack hmem
    rw [hbelow, frames_main, List.count_cons_of_ne (by decide)] at htracked
    have hleave := unwindFunctionLeave_main htracked (by rw [h.latest_eq, ← hmain]; exact hid)
      (by push_cast; omega) (by omega) (fun hone => by push_cast at hone; omega)
    rw [if_neg (by push_cast; omega)] at hleave
    refine ⟨_, hleave, ?_⟩
    rw [if_pos (show last.isSome = true by rw [hmain]; rfl), List.append_nil, if_pos hmem,
      if_neg (fun hboth => hboth.2 hmain), Nat.add_zero surplus, hbelow, List.tail_cons]
    have hbalance : ((frames below + 1 + 1 + surplus : ℕ) : ℤ) - 1
        = ((frames below + 1 + surplus : ℕ) : ℤ) := by
      push_cast
      omega
    refine h.of_sameFlags ⟨rfl, rfl, rfl, rfl, rfl, rfl⟩ ⟨history, ?_⟩
      (fun _ => OrderedMap.lookup_erase_self _ _) htop
    rw [← hbalance]
    exact ⟨OrderedMap.lookup_insert_self _ _ _, htracked.filters_eq, htracked.history_eq⟩
  · -- the profiler takes it for another function
    have hload : s.mainFunctionId ≠ ThreadStorage.load s.unwindFunctionIds thread := by
      rw [h.latest_eq, ThreadStorage.load, hid]
      cases last with
      | none => exact hlatest
      | some f => exact fun heq => hmain (congrArg some heq.symm)
    have hleave := unwindFunctionLeave_ignored htracked h.mainOnly hload
    have hasserted := h.profilerAssert .threadStorage
      (ThreadStorage.exist s.unwindFunctionIds thread)
    obtain ⟨history, htracked⟩ := hasserted.tracked
    rw [ThreadStorage.exist, hid] at hasserted hleave htracked
    refine ⟨_, hleave, hasserted.of_sameFlags ⟨rfl, rfl, rfl, rfl, rfl, rfl⟩ ⟨history, ?_⟩
      (fun _ => OrderedMap.lookup_erase_self _ _) htop⟩
    by_cases hmem : functionId ∈ c.compiled
    · obtain ⟨below, hbelow⟩ := hstack hmem
      rw [hbelow, frames_main, List.count_cons_of_ne (by decide)] at htracked
      rw [if_pos hmem, if_pos ⟨hmem, hmain⟩, hbelow, List.tail_cons]
      have hbalance : frames below + 1 + (surplus + 1) = frames below + 1 + 1 + surplus := by omega
      rw [hbalance]
      exact ⟨htracked.balance_eq, htracked.filters_eq, htracked.history_eq⟩
    · rw [if_neg hmem, if_neg (fun hboth => hmem hboth.1), Nat.add_zero surplus]
      exact ⟨htracked.balance_eq, htracked.filters_eq, htracked.history_eq⟩

/-- An unwinding begins, or its exception is caught: the function is remembered. -/
theorem InsideMain.unwindEnter {functionId : FunctionID} {pending : List (FunctionID × List Frame)}
    (h : InsideMain c asserts s thread fs last surplus) (hid : functionId ≠ 0)
    (htop : ∀ p ∈ pending, p.1 ∈ c.compiled → p.2.head? = some .main) :
    InsideMain c asserts (s.exceptionUnwindFunctionEnter thread functionId) thread
      ⟨fs.stack, pending⟩ (some functionId) surplus := by
  obtain ⟨history, htracked⟩ := h.tracked
  rw [exceptionUnwindFunctionEnter, if_pos htracked.isCurrentThreadTracked,
    unwindFunctionEnter_tracked htracked hid]
  exact h.of_sameFlags ⟨rfl, rfl, rfl, rfl, rfl, rfl⟩
    ⟨history, htracked.balance_eq, htracked.filters_eq, htracked.history_eq⟩
    (fun _ => OrderedMap.lookup_insert_self _ _ _) htop

/-- One event inside main other than the end of an unwinding. -/
theorem BodyEvent.run_inside_plain {e : BodyEvent} (h : InsideMain c asserts s thread fs last surplus)
    (hstep : e.step c.compiled fs = some fs') (hne : e ≠ .frame .unwindLeave) :
    ∃ s', e.run s thread = .ok s'
      ∧ InsideMain c asserts s' thread fs' (e.remembers last) surplus := by
  obtain ⟨history, htracked⟩ := h.tracked
  cases e with
  | probe e =>
      obtain ⟨called, offset, methodId⟩ := e
      have plain : ∀ event, fs = fs' → ∃ s', s.trackPlain thread offset methodId event = .ok s'
          ∧ InsideMain c asserts s' thread fs' last surplus := by
        intro event heq
        subst heq
        exact ⟨_, trackPlain_tracked htracked event,
          h.of_sameUnwinding ⟨rfl, rfl, rfl, rfl, rfl, rfl⟩ rfl
            ⟨_, htracked.addCoverage offset methodId event⟩⟩
      cases called with
      | tailcall =>
          have hrun : s.trackTailcall thread offset methodId = .ok _ :=
            trackTailcall_tracked htracked (by push_cast; omega)
          refine ⟨_, hrun, h.popMain hstep ⟨rfl, rfl, rfl, rfl, rfl, rfl⟩ rfl ?_⟩
          intro balance filters history₁ htracked₁ _
          obtain rfl := Option.some.inj (htracked₁.balance_eq.symm.trans htracked.balance_eq)
          have hleft := htracked₁.leftMain (((frames fs.stack + 1 + surplus : ℕ) : ℤ) - 1)
            (history.addCoverage thread offset .tailcall methodId)
          exact ⟨_, hleft⟩
      | coverage => exact plain .trackCoverage (Option.some.inj hstep)
      | branch => exact plain .branchHit (Option.some.inj hstep)
      | call => exact plain .call (Option.some.inj hstep)
      | stsfld => exact plain .stsfldHit (Option.some.inj hstep)
      | throw => exact plain .leave (Option.some.inj hstep)
      | enter => cases hstep
      | enterMain => cases hstep
      | leave => cases hstep
      | leaveMain => cases hstep
  | frame e =>
      cases e with
      | enterMain offset methodId =>
          obtain rfl := (Option.some.inj hstep).symm
          refine ⟨_, trackEnterMain_tracked htracked, ?_⟩
          refine h.of_sameUnwinding ⟨rfl, rfl, rfl, rfl, rfl, rfl⟩ rfl ⟨history, ?_⟩
          rw [frames_main, List.count_cons_of_ne (by decide)]
          have hset := htracked.setBalance (((frames fs.stack + 1 + surplus : ℕ) : ℤ) + 1)
          have hbalance : ((frames fs.stack + 1 + 1 + surplus : ℕ) : ℤ)
              = ((frames fs.stack + 1 + surplus : ℕ) : ℤ) + 1 := by
            push_cast
            omega
          rw [hbalance]
          exact hset
      | leaveMain offset methodId =>
          have hstack := (NestedFrames.popMain_eq hstep).1
          have htwo : (2 : ℤ) ≤ ((frames fs.stack + 1 + surplus : ℕ) : ℤ) := by
            rw [hstack, frames_main]
            push_cast
            omega
          have hrun : s.trackLeaveMain thread offset methodId = .ok _ :=
            trackLeaveMain_tracked htracked (by omega) fun hone => absurd hone (by omega)
          rw [if_neg (by omega)] at hrun
          refine ⟨_, hrun, h.popMain hstep ⟨rfl, rfl, rfl, rfl, rfl, rfl⟩ rfl ?_⟩
          intro balance filters history₁ htracked₁ _
          obtain rfl := Option.some.inj (htracked₁.balance_eq.symm.trans htracked.balance_eq)
          have hleft := htracked₁.leftMain (((frames fs.stack + 1 + surplus : ℕ) : ℤ) - 1)
            (history.addCoverage thread offset .leaveMain methodId)
          exact ⟨_, hleft⟩
      | unwindEnter functionId hid =>
          simp only [BodyEvent.step] at hstep
          split at hstep
          · rename_i hcan
            obtain rfl := (Option.some.inj hstep).symm
            refine ⟨_, rfl, h.unwindEnter hid fun p hp hmem => ?_⟩
            rcases List.mem_cons.mp hp with rfl | hp
            · exact (hcan hmem).1
            · exact h.main_on_top p hp hmem
          · cases hstep
      | unwindLeave => exact absurd rfl hne
      | catchEnter functionId hid =>
          obtain rfl := (Option.some.inj hstep).symm
          exact ⟨_, rfl, h.unwindEnter hid h.main_on_top⟩
      | filterEnter =>
          obtain rfl := (Option.some.inj hstep).symm
          have hrun : s.exceptionSearchFilterEnter thread = s.filterEnter thread := by
            rw [exceptionSearchFilterEnter, h.running, htracked.isCurrentThreadTracked]
            exact if_neg (by simp)
          refine ⟨_, congrArg Except.ok (hrun.trans (filterEnter_tracked htracked)), ?_⟩
          refine h.of_sameUnwinding ⟨rfl, rfl, rfl, rfl, rfl, rfl⟩ rfl ⟨history, ?_⟩
          rw [frames_filter, List.count_cons_self]
          push_cast
          have hset := htracked.setFilters (((fs.stack.count .filter : ℕ) : ℤ) + 1)
          push_cast at hset
          exact hset
      | filterLeave =>
          simp only [BodyEvent.step] at hstep
          split at hstep
          · rename_i below hstack
            split at hstep
            · obtain rfl := (Option.some.inj hstep).symm
              have hrun : s.exceptionSearchFilterLeave thread = s.filterLeave thread := by
                rw [exceptionSearchFilterLeave, h.running, htracked.isCurrentThreadTracked]
                exact if_neg (by simp)
              refine ⟨_, congrArg Except.ok (hrun.trans (filterLeave_tracked htracked)), ?_⟩
              refine h.of_sameUnwinding ⟨rfl, rfl, rfl, rfl, rfl, rfl⟩ rfl ⟨history, ?_⟩
              have hset := htracked.setFilters ((below.count .filter : ℕ) : ℤ)
              rw [hstack, frames_filter] at hset
              rw [hstack, List.count_cons_self]
              push_cast at hset ⊢
              rw [add_sub_cancel_right]
              exact hset
            · cases hstep
          · cases hstep

/-- One event inside main: an end of an unwinding for which nothing is remembered breaks an
assertion, and one that is not noticed leaves a frame behind. -/
theorem BodyEvent.run_inside {e : BodyEvent} (h : InsideMain c asserts s thread fs last surplus)
    (hlatest : c.latest ≠ 0) (hstep : e.step c.compiled fs = some fs')
    (hown : e.popsForeign c fs last = false) :
    ∃ s', e.run s thread = .ok s'
      ∧ InsideMain c
        (asserts ++ List.replicate (if e.endsForgotten fs last then 1 else 0) .threadStorage)
        s' thread fs' (e.remembers last)
        (surplus + if e.endsUnnoticed c fs last then 1 else 0) := by
  by_cases hleave : e = .frame .unwindLeave
  · subst hleave
    simp only [BodyEvent.step] at hstep
    split at hstep
    · rename_i functionId base rest hpending
      split at hstep
      · rename_i hbase
        subst hbase
        obtain rfl := (Option.some.inj hstep).symm
        simp only [BodyEvent.popsForeign, BodyEvent.ends, hpending, List.head?_cons,
          Option.any_some] at hown
        obtain ⟨s', hrun, hinside⟩ := h.unwindLeave hpending
          (fun hlast => by simpa [hlast] using hown) hlatest
        refine ⟨s', hrun, ?_⟩
        simp only [BodyEvent.endsForgotten, BodyEvent.endsUnnoticed, BodyEvent.ends, hpending,
          List.head?_cons, Option.any_some, BodyEvent.remembers, FrameEvent.remembers]
        cases last with
        | none => simpa using hinside
        | some f => simpa using hinside
      · cases hstep
    · cases hstep
  · obtain ⟨s', hrun, hinside⟩ := BodyEvent.run_inside_plain h hstep hleave
    have hends : ∀ P, e.ends P fs = false := by
      intro P
      rw [BodyEvent.ends]
      exact hleave
    refine ⟨s', hrun, ?_⟩
    rw [BodyEvent.endsForgotten, BodyEvent.endsUnnoticed, hends, hends]
    simpa using hinside

/-- The events inside main, one after the other. -/
theorem runBodyEvents_inside (body : List BodyEvent) (hlatest : c.latest ≠ 0) :
    ∀ {asserts : List AssertSite} {s : ProfilerState} {fs : NestedFrames}
      {last : Option FunctionID} {surplus : ℕ},
      InsideMain c asserts s thread fs last surplus → bodyFrames c.compiled fs body = some fs' →
      countEvents c.compiled (BodyEvent.popsForeign c) fs last body = 0 →
      ∃ s' last', runBodyEvents thread s body = .ok s'
        ∧ InsideMain c (asserts ++ List.replicate
            (countEvents c.compiled BodyEvent.endsForgotten fs last body) .threadStorage)
          s' thread fs' last'
          (surplus + countEvents c.compiled (BodyEvent.endsUnnoticed c) fs last body) := by
  induction body with
  | nil =>
      intro asserts s fs last surplus h hframes _
      obtain rfl := Option.some.inj hframes
      exact ⟨s, last, rfl, by simpa [countEvents] using h⟩
  | cons e es ih =>
      intro asserts s fs last surplus h hframes hown
      obtain ⟨fs₁, hstep, hframes⟩ := Option.bind_eq_some_iff.mp hframes
      simp only [countEvents, hstep, Option.elim_some] at hown ⊢
      obtain ⟨s₁, hrun, h₁⟩ := BodyEvent.run_inside h hlatest hstep
        (by by_contra hforeign; simp [hforeign] at hown)
      obtain ⟨s', last', hruns, h'⟩ := ih h₁ hframes (by omega)
      refine ⟨s', last', ?_, ?_⟩
      · rw [runBodyEvents, List.foldlM_cons, hrun]
        exact hruns
      · rwa [List.append_assoc, List.replicate_append_replicate, Nat.add_assoc] at h'

/-! ### The invariant between tests -/

/-- The session between two tests: `surplus` frames of the thread were unwound without being
noticed, and without them it is outside every invocation. -/
structure Between (c : Compilations) (asserts : List AssertSite) (session : Session)
    (thread : ThreadID) (mapped : Bool) (surplus : ℕ) : Prop where
  frames : HasFrames session.process.profiler thread surplus 0
  mapping : session.process.profiler.hasMapping thread = mapped
  mapped_of_surplus : mapped = false → surplus = 0
  asserts_eq : session.process.profiler.failedAsserts = asserts
  running : session.process.profiler.isFinished = false
  mainOnly : session.process.profiler.collectMainOnly = true
  active : session.process.profiler.isPassiveRun = false
  latest_eq : session.process.profiler.mainFunctionId = c.latest
  compiled_eq : session.compiled = c.compiled
  latest_ne : c.compiled ≠ [] → c.latest ≠ 0

variable {session session' : Session} {method : TestedMethod} {mapped : Bool}

/-- The frames are those of the per-thread maps. -/
theorem HasFrames.of_sameMaps {live filters : ℕ} (h : HasFrames s thread live filters)
    (hbalances : s'.stackBalances = s.stackBalances)
    (hfilters : s'.inFilterMapping = s.inFilterMapping)
    (hcoverage : s'.trackedCoverage = s.trackedCoverage) : HasFrames s' thread live filters := by
  cases live with
  | zero =>
      have hun := hasFrames_zero.mp h
      refine hasFrames_zero.mpr ⟨?_, ?_, ?_⟩
      · rw [hbalances]
        exact hun.balance_eq
      · rw [hfilters]
        exact hun.filters_eq
      · rw [hcoverage]
        exact hun.history_eq
  | succ live =>
      obtain ⟨history, htracked⟩ := hasFrames_succ.mp h
      refine hasFrames_succ.mpr ⟨history, ?_, ?_, ?_⟩
      · rw [hbalances]
        exact htracked.balance_eq
      · rw [hfilters]
        exact htracked.filters_eq
      · rw [hcoverage]
        exact htracked.history_eq

/-- Only the first mapping of a thread keeps the assertion of the storage. -/
theorem Between.setUp (h : Between c asserts session thread mapped surplus)
    (method : TestedMethod) :
    Between c (if mapped then asserts ++ [.threadStorage] else asserts)
      (session.setUp thread method) thread true surplus := by
  have hexist : ThreadStorage.exist session.process.profiler.threadIdMapping thread = mapped :=
    h.mapping
  have hs : (session.setUp thread method).process.profiler
      = { session.process.profiler with
          threadIdMapping := session.process.profiler.threadIdMapping.insert thread 0
          failedAsserts := if mapped then asserts ++ [.threadStorage] else asserts } := by
    show session.process.profiler.mapCurrentThread thread 0 = _
    rw [mapCurrentThread, hexist, ← h.asserts_eq]
    cases mapped with
    | true => rfl
    | false => rfl
  refine ⟨?_, ?_, nofun, ?_, ?_, ?_, ?_, ?_, h.compiled_eq, h.latest_ne⟩
  · rw [hs]
    exact HasFrames.of_sameMaps h.frames rfl rfl rfl
  · rw [hs]
    exact ThreadStorage.exist_eq_true.mpr ⟨0, OrderedMap.lookup_insert_self _ _ _⟩
  · rw [hs]
  · rw [hs]
    exact h.running
  · rw [hs]
    exact h.mainOnly
  · rw [hs]
    exact h.active
  · rw [hs]
    exact h.latest_eq

/-- The method under test is compiled, and is main, when it is new. -/
theorem Between.compile (h : Between c asserts session thread mapped surplus)
    (hmain : session.process.mainMethodInfo = some method.entry) :
    Between (c.compile method.functionId) asserts (session.compile method) thread mapped
      surplus := by
  rw [Session.compile, Compilations.compile, h.compiled_eq]
  by_cases hmem : method.functionId ∈ c.compiled
  · rw [if_pos hmem, if_pos hmem]
    exact h
  · rw [if_neg hmem, if_neg hmem]
    have hentry : session.process = session.process.setEntryMain method.entry := by
      rw [Process.setEntryMain, ← hmain]
    obtain ⟨collected, hs⟩ := instrument_profiler session.process method h.mainOnly
    rw [← hentry] at hs
    refine ⟨?_, ?_, h.mapped_of_surplus, ?_, ?_, ?_, ?_, ?_, rfl,
      fun _ => method.functionId_ne⟩
    · rw [hs]
      exact HasFrames.of_sameMaps h.frames rfl rfl rfl
    · rw [hs]
      exact h.mapping
    · rw [hs]
      exact h.asserts_eq
    · rw [hs]
      exact h.running
    · rw [hs]
      exact h.mainOnly
    · rw [hs]
      exact h.active
    · rw [hs]

theorem Compilations.compile_ne_nil (c : Compilations) (functionId : FunctionID) :
    (c.compile functionId).compiled ≠ [] := by
  rw [Compilations.compile]
  split
  · rename_i hmem
    exact List.ne_nil_of_mem hmem
  · exact List.cons_ne_nil _ _

/-- Main is entered. -/
theorem Between.enterMain (h : Between c asserts session thread true surplus)
    (offset : UInt32) (methodId : Int32) :
    ∃ s', session.process.profiler.trackEnterMain thread offset methodId = .ok s'
      ∧ InsideMain c asserts s' thread .empty none surplus := by
  have inside : ∀ s' : ProfilerState, SameFlags session.process.profiler s' →
      HasFrames s' thread (surplus + 1) 0 →
        InsideMain c asserts s' thread .empty none surplus := by
    intro s' hflags hframes
    obtain ⟨history, htracked⟩ := hframes.tracked (Nat.succ_ne_zero surplus)
    refine ⟨⟨history, ?_⟩, ?_, hflags.asserts_eq.trans h.asserts_eq,
      hflags.isFinished_eq.trans h.running, hflags.collectMainOnly_eq.trans h.mainOnly,
      hflags.isPassiveRun_eq.trans h.active, hflags.mainFunctionId_eq.trans h.latest_eq,
      fun hne => absurd rfl hne, nofun⟩
    · show Tracked s' thread ((0 + 1 + surplus : ℕ) : ℤ) ((0 : ℕ) : ℤ) history
      rw [Nat.zero_add, Nat.add_comm]
      exact htracked
    · rw [hasMapping, hflags.mapping_eq]
      exact h.mapping
  have hframes := h.frames
  cases surplus with
  | zero =>
      refine ⟨_, trackEnterMain_untracked (hasFrames_zero.mp hframes),
        inside _ ⟨rfl, rfl, rfl, rfl, rfl, rfl⟩ (hasFrames_succ.mpr ⟨.new thread offset methodId, ?_⟩)⟩
      exact ⟨OrderedMap.lookup_insert_self _ _ _, OrderedMap.lookup_insert_self _ _ _,
        OrderedMap.lookup_insert_self _ _ _⟩
  | succ surplus =>
      obtain ⟨history, htracked⟩ := hasFrames_succ.mp hframes
      refine ⟨_, trackEnterMain_tracked htracked,
        inside _ ⟨rfl, rfl, rfl, rfl, rfl, rfl⟩ (hasFrames_succ.mpr ⟨history, ?_⟩)⟩
      exact_mod_cast htracked.setBalance (surplus + 1 + 1)

/-- Main is left by a return: without unnoticed frames the invocation ends, and the thread loses its
mapping. -/
theorem InsideMain.leaveMain (h : InsideMain c asserts s thread .empty last surplus)
    (offset : UInt32) (methodId : Int32) (hcompiled : session.compiled = c.compiled)
    (hlatest : c.compiled ≠ [] → c.latest ≠ 0) :
    ∃ s', s.trackLeaveMain thread offset methodId = .ok s'
      ∧ Between c asserts { session with process := { session.process with profiler := s' } }
        thread (decide (0 < surplus)) surplus := by
  obtain ⟨history, htracked⟩ := h.tracked
  have hbalance : ((frames NestedFrames.empty.stack + 1 + surplus : ℕ) : ℤ) = surplus + 1 := by
    show ((0 + 1 + surplus : ℕ) : ℤ) = _
    push_cast
    omega
  rw [hbalance] at htracked
  have hrun : s.trackLeaveMain thread offset methodId = .ok _ :=
    trackLeaveMain_tracked htracked (by omega) fun _ => rfl
  refine ⟨_, hrun, ?_⟩
  cases surplus with
  | zero =>
      rw [if_pos (by rfl)]
      refine ⟨hasFrames_zero.mpr (finished_untracked _ _ _), ?_, fun _ => rfl, ?_, h.running,
        h.mainOnly, h.active, h.latest_eq, hcompiled, hlatest⟩
      · show (OrderedMap.lookup (if s.isPassiveRun then s.threadIdMapping
          else s.threadIdMapping.erase thread) thread).isSome = false
        rw [h.active, if_neg Bool.false_ne_true, OrderedMap.lookup_erase_self]
        rfl
      · show (if s.isPassiveRun || s.hasMapping thread then s.failedAsserts
          else s.failedAsserts ++ [.threadStorage]) = asserts
        rw [h.active, h.mapped]
        exact h.asserts_eq
  | succ surplus =>
      rw [if_neg (by omega)]
      have hleft := htracked.leftMain (((surplus + 1 : ℕ) : ℤ) + 1 - 1)
        (history.addCoverage thread offset .leaveMain methodId)
      refine ⟨hasFrames_succ.mpr ⟨history.addCoverage thread offset .leaveMain methodId, ?_⟩,
        h.mapped, fun hfalse => ?_, h.asserts_eq, h.running, h.mainOnly, h.active, h.latest_eq,
        hcompiled, hlatest⟩
      · push_cast at hleft ⊢
        rw [add_sub_cancel_right] at hleft ⊢
        exact hleft
      · exact absurd hfalse (by simp)

/-- One invocation. -/
theorem Between.invoke {methodId : Int32} {enterOffset leaveOffset : UInt32}
    {body : List BodyEvent} (h : Between c asserts session thread true surplus)
    (hne : c.compiled ≠ []) (hdriven : bodyFrames c.compiled .empty body = some .empty)
    (hown : countEvents c.compiled (BodyEvent.popsForeign c) .empty none body = 0)
    (hsurplus : surplus' = surplus
      + countEvents c.compiled (BodyEvent.endsUnnoticed c) .empty none body) :
    ∃ s', invoke thread methodId enterOffset body leaveOffset session.process.profiler = .ok s'
      ∧ Between c (asserts ++ List.replicate
          (countEvents c.compiled BodyEvent.endsForgotten .empty none body) .threadStorage)
        { session with process := { session.process with profiler := s' } }
        thread (decide (0 < surplus')) surplus' := by
  obtain ⟨s₁, henter, hinside₁⟩ := h.enterMain enterOffset methodId
  obtain ⟨s₂, last, hbody, hinside₂⟩ :=
    runBodyEvents_inside body (h.latest_ne hne) hinside₁ hdriven hown
  rw [← hsurplus] at hinside₂
  obtain ⟨s', hleave, hbetween⟩ :=
    hinside₂.leaveMain leaveOffset methodId h.compiled_eq h.latest_ne
  refine ⟨s', ?_, hbetween⟩
  rw [TestExecutor.invoke, henter]
  show (runBodyEvents thread s₁ body >>= _) = _
  rw [hbody]
  exact hleave

/-- A collection forgets the threads. -/
theorem Between.getHistory (h : Between c asserts session thread mapped surplus) :
    Between c asserts
      { session with
        process := { session.process with profiler := session.process.profiler.getHistory.2 } }
      thread false 0 := by
  obtain ⟨ids, reports, heq⟩ :=
    addNotEntered_eq session.process.profiler.getMapping session.process.profiler
  have hs : session.process.profiler.getHistory.2 = { session.process.profiler with
      serializedCoverageThreadIds := ids
      serializedCoverage := []
      trackedCoverage := OrderedMap.empty
      threadIdMapping := OrderedMap.empty
      stackBalances := OrderedMap.empty
      unwindFunctionIds := OrderedMap.empty
      inFilterMapping := OrderedMap.empty } := by
    simp only [ProfilerState.getHistory, serializeCoverageReport, heq, clearCoverage, clearThreads]
  rw [hs]
  exact ⟨hasFrames_zero.mpr ⟨rfl, rfl, rfl⟩, rfl, fun _ => rfl, h.asserts_eq, h.running, h.mainOnly,
    h.active, h.latest_eq, h.compiled_eq, h.latest_ne⟩

/-! ### Whole sessions -/

/-- The assertions that a step of a session breaks: one when a test finds its thread mapped, and one
for each unwinding that ends while nothing is remembered. -/
def DriverOp.broken (c : Compilations) (mapped : Bool) (op : DriverOp) : List AssertSite :=
  (if op.isTest && mapped then [.threadStorage] else [])
    ++ List.replicate (countEvents c.compiled BodyEvent.endsForgotten .empty none op.body)
      .threadStorage

theorem DriverOp.broken_eq_nil {op : DriverOp} : op.broken c mapped = [] ↔
    (op.isTest = true → mapped = false)
      ∧ countEvents c.compiled BodyEvent.endsForgotten .empty none op.body = 0 := by
  rw [DriverOp.broken, List.append_eq_nil_iff, List.replicate_eq_nil_iff]
  cases op.isTest <;> cases mapped <;> simp

/-- A step of a session: it runs and breaks these assertions. -/
theorem DriverOp.run_between (h : Between c asserts session thread mapped surplus) (op : DriverOp)
    (hdriven : bodyFrames (op.compilations c).compiled .empty op.body = some .empty)
    (hown : countEvents (op.compilations c).compiled (BodyEvent.popsForeign (op.compilations c))
      .empty none op.body = 0) :
    ∃ session' mapped' surplus', op.run thread session = .ok session'
      ∧ Between (op.compilations c) (asserts ++ op.broken (op.compilations c) mapped) session'
        thread mapped' surplus'
      ∧ ((op.isTest = true → mapped = false) → mapped' = op.leavesMapped (op.compilations c)) := by
  cases op with
  | getHistory =>
      exact ⟨_, false, 0, rfl, by simpa [DriverOp.broken, DriverOp.isTest, DriverOp.body,
        DriverOp.compilations, countEvents] using h.getHistory, fun _ => rfl⟩
  | test method outcome =>
      have hsetUp := h.setUp method
      have hmain : (session.setUp thread method).process.mainMethodInfo = some method.entry := rfl
      have hcompile := hsetUp.compile hmain
      have hasserts : (if mapped then asserts ++ [AssertSite.threadStorage] else asserts)
          = asserts ++ if mapped then [.threadStorage] else [] := by
        cases mapped <;> simp
      rw [hasserts] at hsetUp hcompile
      cases outcome with
      | failsEarly compiles =>
          cases compiles with
          | false => exact ⟨_, true, surplus, rfl, by simpa [DriverOp.broken, DriverOp.isTest,
              DriverOp.body, DriverOp.compilations, countEvents] using hsetUp, fun _ => rfl⟩
          | true => exact ⟨_, true, surplus, rfl, by simpa [DriverOp.broken, DriverOp.isTest,
              DriverOp.body, DriverOp.compilations, countEvents] using hcompile, fun _ => rfl⟩
      | returns methodId enterOffset body leaveOffset =>
          obtain ⟨s', hrun, hbetween⟩ := hcompile.invoke (c.compile_ne_nil method.functionId)
            (show bodyFrames (c.compile method.functionId).compiled .empty body = _ from hdriven)
            hown rfl
          refine ⟨_, _, _, ?_, by rw [List.append_assoc] at hbetween; exact hbetween, ?_⟩
          · rw [DriverOp.run, hrun]
            rfl
          · intro hmapped
            rw [h.mapped_of_surplus (hmapped rfl), Nat.zero_add]
            rfl

theorem assertionsHold_of_between (ops : List DriverOp) :
    ∀ {c : Compilations} {session : Session} {mapped : Bool} {surplus : ℕ},
      Between c [] session thread mapped surplus → IsDriven c ops → PopsOwnFrames c ops →
      (AssertionsHold thread session ops
        ↔ NoTestWhileMapped c mapped ops ∧ UnwindingsRemembered c ops) := by
  induction ops with
  | nil => intro c session mapped surplus _ _ _; exact (and_self_iff).symm
  | cons op ops ih =>
      intro c session mapped surplus h hdriven hown
      obtain ⟨session', mapped', surplus', hrun, hbetween, hmapped⟩ :=
        op.run_between h hdriven.1 hown.1
      rw [List.nil_append] at hbetween
      have hrest : op.broken (op.compilations c) mapped = [] → (AssertionsHold thread session' ops
          ↔ NoTestWhileMapped (op.compilations c) (op.leavesMapped (op.compilations c)) ops
            ∧ UnwindingsRemembered (op.compilations c) ops) := by
        intro hnone
        rw [hnone] at hbetween
        rw [← hmapped (DriverOp.broken_eq_nil.mp hnone).1]
        exact ih hbetween hdriven.2 hown.2
      constructor
      · rintro ⟨session₁, hrun₁, hasserts, hholds⟩
        obtain rfl : session' = session₁ := Except.ok.inj (hrun.symm.trans hrun₁)
        have hnone := hbetween.asserts_eq.symm.trans hasserts
        obtain ⟨htest, hforgotten⟩ := DriverOp.broken_eq_nil.mp hnone
        obtain ⟨htests, hremembered⟩ := (hrest hnone).mp hholds
        exact ⟨⟨htest, htests⟩, hforgotten, hremembered⟩
      · rintro ⟨⟨htest, htests⟩, hforgotten, hremembered⟩
        have hnone := DriverOp.broken_eq_nil.mpr ⟨htest, hforgotten⟩
        exact ⟨session', hrun, hbetween.asserts_eq.trans hnone,
          (hrest hnone).mpr ⟨htests, hremembered⟩⟩

/-- **When the assertions hold.**  For every sequence of tests and collections that begins with an
untracked thread without a mapping, and inside which no unwinding of another function is taken for
one of main: no assertion fails exactly when every unwinding that ends finds something remembered,
and no test starts while its thread is still mapped, by a test that failed before main, or inside
which a frame of a method under test was removed while another function than the one compiled last
was remembered. -/
theorem assertionsHold_iff (p : Process) (thread : ThreadID) (ops : List DriverOp)
    (huntracked : Untracked p.profiler thread) (hunmapped : p.profiler.hasMapping thread = false)
    (hrunning : p.profiler.isFinished = false) (hmode : p.profiler.collectMainOnly = true)
    (hactive : p.profiler.isPassiveRun = false) (hasserts : p.profiler.failedAsserts = [])
    (hdriven : IsDriven ⟨[], p.profiler.mainFunctionId⟩ ops)
    (hown : PopsOwnFrames ⟨[], p.profiler.mainFunctionId⟩ ops) :
    AssertionsHold thread ⟨p, []⟩ ops
      ↔ NoTestWhileMapped ⟨[], p.profiler.mainFunctionId⟩ false ops
        ∧ UnwindingsRemembered ⟨[], p.profiler.mainFunctionId⟩ ops := by
  have h : Between ⟨[], p.profiler.mainFunctionId⟩ [] ⟨p, []⟩ thread false 0 :=
    ⟨hasFrames_zero.mpr huntracked, hunmapped, fun _ => rfl, hasserts, hrunning, hmode, hactive,
      rfl, rfl, fun hne => absurd rfl hne⟩
  exact assertionsHold_of_between ops h hdriven hown

/-- A test that enters main and returns.  Inside main a frame of main is unwound, and another
function, in whose finally block an exception is caught. -/
def catchingTest (m : TestedMethod) (methodId : Int32) : DriverOp :=
  .test m (.returns methodId 0 [.probe ⟨.branch, 2, methodId⟩, .frame (.enterMain 0 methodId),
    .frame (.unwindEnter m.functionId m.functionId_ne), .frame .unwindLeave,
    .frame (.unwindEnter 9 (by decide)), .frame (.catchEnter 8 (by decide)), .frame .unwindLeave,
    .frame (.catchEnter m.functionId m.functionId_ne)] 4)

/-- A test that fails before main, a collection, and two tests that return. -/
theorem assertionsHold_iff_collected :
    AssertionsHold 0 ⟨freshProcess, []⟩ [.test (tokenMethod 5 1 (by decide)) (.failsEarly true),
        .getHistory, catchingTest (tokenMethod 5 1 (by decide)) 0,
        catchingTest (tokenMethod 6 2 (by decide)) 1]
      ↔ NoTestWhileMapped ⟨[], 2 ^ 64 - 1⟩ false
        [.test (tokenMethod 5 1 (by decide)) (.failsEarly true), .getHistory,
          catchingTest (tokenMethod 5 1 (by decide)) 0,
          catchingTest (tokenMethod 6 2 (by decide)) 1]
        ∧ UnwindingsRemembered ⟨[], 2 ^ 64 - 1⟩
          [.test (tokenMethod 5 1 (by decide)) (.failsEarly true), .getHistory,
            catchingTest (tokenMethod 5 1 (by decide)) 0,
            catchingTest (tokenMethod 6 2 (by decide)) 1] :=
  assertionsHold_iff freshProcess 0 _ ⟨rfl, rfl, rfl⟩ rfl rfl rfl rfl rfl
    ⟨rfl, rfl, rfl, rfl, trivial⟩ ⟨rfl, rfl, rfl, rfl, trivial⟩

/-- The second of two tests maps a thread that the first one, which failed early, left mapped. -/
theorem early_failure_breaks_assertion :
    ¬AssertionsHold 0 ⟨freshProcess, []⟩
      [.test (tokenMethod 5 1 (by decide)) (.failsEarly false),
        .test (tokenMethod 5 1 (by decide)) (.returns 0 0 [] 4)] := by
  intro h
  obtain ⟨session, hrun, -, session', hrun', hasserts, -⟩ := h
  obtain rfl := Except.ok.inj hrun
  obtain rfl := Except.ok.inj hrun'
  exact absurd hasserts (by decide)

end TestExecutor
