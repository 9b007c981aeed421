import TestExecutor.Profiler.Recorded

/-!
# The report of a tracked thread

What a thread has called for while it was tracked is in the report that it pushes when it finishes.
If only the main method is collected, nothing has to be said about collections in between: a thread
that has lost its history cannot come to push a report.

* `Task.Enters`, `Task.step_enters` — the operations that lead to a new history;
* `Lost`, `Lost.step` — a thread without a history stays without one;
* `StaysTracked`, `Recording` — the condition on a schedule, and what it keeps;
* `ReportedCalls`, `ReportedCalls.hasRecord` — the calls that a report is to have records of.
-/

namespace TestExecutor

open TestExecutor.Library ProfilerState

variable {s s' : ProfilerState} {thread t : ThreadID} {task next : Task} {w w' : World} {act : Act}
  {call : UInt32 × Int32}

/-! ### New histories -/

/-- The operations of an `EnterMain` up to the one that stores a history. -/
def Task.Enters : Task → Prop
  | .trackBalances _ _ | .trackFilters _ _ | .trackUp _ _ | .addStore _ _ _ => True
  | .add _ event _ _ => event = .enterMain
  | _ => False

/-- If only the main method is collected, no other operation leads to one of them. -/
theorem Task.step_enters (hmain : s.collectMainOnly = true)
    (hok : task.step s thread = .ok (s', some next)) (h : next.Enters) : task.Enters := by
  have goes : ∀ {a : ProfilerState} {n : Option Task},
      (Except.ok (a, n) : Except Fault (ProfilerState × Option Task)) = .ok (s', some next) →
      n = some next := fun heq => (Prod.mk.inj (Except.ok.inj heq)).2
  have hafter : ∀ {after : AfterAdd}, after.task = some next → ¬next.Enters := by
    intro after heq hnext
    cases after <;> cases heq <;> exact hnext
  cases task with
  | trackBalances | trackFilters | trackUp | addStore => trivial
  | add offset event methodId after =>
      obtain ⟨asserts, hassert⟩ := profilerAssert_eq s .coverageTracker (s.isCurrentThreadTracked thread)
      simp only [Task.step, hassert, hmain] at hok
      split at hok
      · rename_i hstores
        show event = .enterMain
        simpa using (Bool.and_eq_true_iff.mp hstores).1
      · cases goes hok
        exact h.elim
  | addLoad offset event methodId after =>
      simp only [Task.step] at hok
      split at hok
      · cases hok
      · exact absurd h (hafter (goes hok))
  | finishVisit coverage threadId =>
      cases coverage with
      | none => cases hok
      | some history =>
          cases goes hok
          exact h
  | mainDown | unwindRemove | unwindBalance | unwindFilter | finishMapping | finishFilters =>
      have hnext := goes hok
      split at hnext <;> cases hnext <;> exact h
  | tailcallDown =>
      cases goes hok
      cases h
  | stackUp | stackDown | filterUp | filterDown | unwindStore | finishUnmap => cases goes hok
  | _ =>
      cases goes hok
      exact h

/-- A thread that is tracked starts none of them. -/
theorem Call.start_not_enters {c : Call} (htracked : s.isCurrentThreadTracked thread = true)
    (h : (c.start s thread).2 = .task task) : ¬task.Enters := by
  have probes : ∀ {next : Option Task}, Pc.ofTask next = .task task → next = some task := by
    intro next heq
    cases next with
    | none => cases heq
    | some n =>
        cases heq
        rfl
  cases c with
  | probe p offset methodId =>
      have hprobe := probes h
      rw [htracked] at hprobe
      cases p with
      | enter | leave =>
          simp only [probeTask, Bool.not_true, Bool.false_eq_true, if_false] at hprobe
          split at hprobe <;> cases hprobe <;> rintro ⟨⟩
      | _ =>
          cases hprobe
          rintro ⟨⟩
  | setCurrentThreadId mapId => cases h
  | collectMethod info => cases h
  | getHistory => cases h
  | _ =>
      simp only [Call.start] at h
      split at h <;> cases h <;> exact id

/-- Which methods are collected never changes. -/
theorem World.step_collectMainOnly (hstep : w.step act = some w') :
    w'.profiler.collectMainOnly = w.profiler.collectMainOnly := by
  obtain ⟨-, ⟨thread, call, rfl, -, hstep⟩ | ⟨thread, task, rfl, -, hstep⟩
    | ⟨thread, pc, rfl, -, hstep⟩⟩ := World.step_cases hstep
  · rcases World.callStep_cases hstep with ⟨info, rfl, -, rfl⟩ | ⟨s', hbook, -, rfl⟩
    · rfl
    · exact hbook.mainOnly_eq
  · rcases World.taskStep_cases hstep with rfl | ⟨s', next, hok, -, rfl⟩
    · rfl
    · have hstate : ((World.note { w with profiler := s' } thread task).setPc thread
          (.ofTask next)).profiler = s' := World.note_profiler _ _ _
      rw [hstate]
      by_cases hplain : task.IsCoverage
      · obtain ⟨asserts, hassert⟩ := profilerAssert_eq w.profiler .threadStorage
          (ThreadStorage.exist w.profiler.trackedCoverage thread)
        cases task with
        | addStore | finishPush =>
            obtain ⟨rfl, -⟩ := Prod.mk.inj (Except.ok.inj hok)
            rfl
        | addLoad offset event methodId after =>
            simp only [Task.step, hassert] at hok
            split at hok
            · cases hok
            · obtain ⟨rfl, -⟩ := Prod.mk.inj (Except.ok.inj hok)
              rfl
        | abort =>
            simp only [Task.step, invocationAborted, hassert] at hok
            obtain ⟨rfl, -⟩ := Prod.mk.inj (Except.ok.inj hok)
            rfl
        | finishVisit coverage threadId =>
            cases coverage with
            | none => cases hok
            | some history =>
                obtain ⟨rfl, -⟩ := Prod.mk.inj (Except.ok.inj hok)
                rfl
        | finishRemove history threadId =>
            simp only [Task.step, hassert] at hok
            obtain ⟨rfl, -⟩ := Prod.mk.inj (Except.ok.inj hok)
            rfl
        | _ => exact absurd hplain id
      · exact (Task.step_bookkeeping hok hplain).mainOnly_eq
  · cases pc with
    | lockCollected | lockSerialized | methods =>
        simp only [World.historyStep] at hstep
        split at hstep
        all_goals first | cases hstep; rfl | cases hstep
    | notEntered found threadMapping =>
        obtain rfl := Option.some.inj hstep
        obtain ⟨ids, buffers, hadded⟩ := addNotEntered_eq threadMapping w.profiler
        show (addNotEntered threadMapping w.profiler).collectMainOnly = _
        rw [hadded]
    | _ =>
        obtain rfl := Option.some.inj hstep
        rfl

/-! ### A history that is lost -/

/-- The thread has no history, and none in hand. -/
structure Lost (w : World) (t : ThreadID) : Prop where
  noHistory : ∀ history, w.profiler.trackedCoverage.lookup t ≠ some (some history)
  inHand : ∀ task, w.pc t = .task task → task.inHand = none

/-- A step that leaves a thread alone. -/
theorem Lost.of_same (h : Lost w t) (hpc : w'.pc t = w.pc t)
    (htracked : w'.profiler.trackedCoverage.lookup t = w.profiler.trackedCoverage.lookup t) :
    Lost w' t where
  noHistory := fun history => htracked ▸ h.noHistory history
  inHand := fun task htask => h.inHand task (hpc.symm.trans htask)

/-- It can only get a new one from an `EnterMain`. -/
theorem Lost.step (h : Lost w t) (henters : ∀ task, w.pc t = .task task → ¬task.Enters)
    (hstep : w.step act = some w') : Lost w' t := by
  cases World.step_effect hstep with
  | crashes hw =>
      rw [hw]
      exact h.of_same rfl rfl
  | @calls thread c hidle hpc htracked _ _ _ =>
      by_cases ht : t = thread
      · subst ht
        refine ⟨fun history => htracked ▸ h.noHistory history, fun task htask => ?_⟩
        rw [hpc, Function.update_self] at htask
        exact (Call.start_task _ _ htask).1
      · refine h.of_same ?_ (by rw [htracked])
        rw [hpc, Function.update_of_ne ht]
  | @works thread task next htask hpc heffect _ _ _ =>
      by_cases ht : t = thread
      · subst ht
        have hnow : ∀ {n : Task}, w'.pc t = .task n → next = some n := by
          intro n heq
          rw [hpc, Function.update_self] at heq
          cases next with
          | none => cases heq
          | some n' =>
              cases heq
              rfl
        have hinHand := h.inHand task htask
        cases heffect with
        | keeps htracked _ hnext _ =>
            refine ⟨fun history => htracked ▸ h.noHistory history, fun n hn => ?_⟩
            obtain rfl := hnow hn
            exact hnext.trans hinHand
        | tests htracked hnext =>
            refine ⟨fun history => htracked ▸ h.noHistory history, fun n hn => ?_⟩
            obtain rfl := Option.some.inj (hnow hn)
            rcases hnext with ⟨rfl, -⟩ | rfl <;> rfl
        | stores _ => exact absurd trivial (henters _ htask)
        | appends hload _ => exact absurd hload (h.noHistory _)
        | aborts htracked =>
            refine ⟨fun history hlookup => ?_, fun n hn => ?_⟩
            · rw [htracked, OrderedMap.lookup_insert_self] at hlookup
              cases hlookup
            · cases hnow hn
              rfl
        | loads htracked =>
            refine ⟨fun history => htracked ▸ h.noHistory history, fun n hn => ?_⟩
            cases hnow hn
            by_contra hsome
            obtain ⟨history, hload⟩ := Option.ne_none_iff_exists'.mp hsome
            exact h.noHistory history (load_eq_some hload)
        | removes _ | pushes _ => cases hinHand
      · refine h.of_same ?_ (heffect.others ht)
        rw [hpc, Function.update_of_ne ht]
  | @collects thread pc next hhistory hpc hnext htracked _ _ _ =>
      refine ⟨fun history hlookup => ?_, fun task htask => ?_⟩
      · rcases htracked with heq | ⟨-, heq⟩
        · exact h.noHistory history (heq ▸ hlookup)
        · rw [heq] at hlookup
          cases hlookup
      · by_cases ht : t = thread
        · subst ht
          rw [hpc, Function.update_self] at htask
          exact absurd htask (hnext task)
        · rw [hpc, Function.update_of_ne ht] at htask
          exact h.inHand task htask

theorem Task.inHand_of_pending (h : task.pending = some call) : task.inHand = none := by
  cases task <;> first | rfl | cases h

/-- A history is lost in a collection, or when the thread is aborted, unless the thread has it in
hand. -/
theorem Holds.lose (h : Holds w t call) (hloses : ¬KeepsHistory t w act)
    (hstep : w.step act = some w') : Holds w' t call ∨ Lost w' t := by
  cases World.step_effect hstep with
  | crashes hw => exact Or.inl (hw ▸ h.of_same rfl rfl)
  | calls _ _ _ _ _ _ => exact absurd trivial hloses
  | @works thread task next htask hpc heffect _ _ _ =>
      have habort : thread = t ∧ task = .abort := by
        by_contra hnot
        refine hloses ⟨by rw [htask]; exact Pc.noConfusion, by rw [htask]; exact Pc.noConfusion, ?_⟩
        rintro rfl heq
        exact hnot ⟨rfl, Pc.task.inj (htask.symm.trans heq)⟩
      obtain ⟨rfl, rfl⟩ := habort
      cases h with
      | pending htask' hpending =>
          cases htask.symm.trans htask'
          cases hpending
      | inHand htask' hinHand _ =>
          cases htask.symm.trans htask'
          cases hinHand
      | tracked hlookup hrecord hnone =>
          have hnow : ∀ {n : Task}, w'.pc thread = .task n → next = some n := by
            intro n heq
            rw [hpc, Function.update_self] at heq
            cases next with
            | none => cases heq
            | some n' =>
                cases heq
                rfl
          cases heffect with
          | keeps htracked _ hinHand hstore =>
              refine Or.inl (.tracked (htracked ▸ hlookup) hrecord fun n hn => ?_)
              obtain rfl := hnow hn
              exact ⟨hinHand, hstore n rfl⟩
          | aborts htracked =>
              refine Or.inr ⟨fun history hsome => ?_, fun n hn => ?_⟩
              · rw [htracked, OrderedMap.lookup_insert_self] at hsome
                cases hsome
              · cases hnow hn
                rfl
  | @collects thread pc next hhistory hpc hnext htracked _ _ _ =>
      have hsame : ∀ {task : Task}, w'.pc t = .task task → w.pc t = .task task := by
        intro task htask
        by_cases ht : t = thread
        · subst ht
          rw [hpc, Function.update_self] at htask
          exact absurd htask (hnext task)
        · rwa [hpc, Function.update_of_ne ht] at htask
      have hstays : ∀ {task : Task}, w.pc t = .task task → w'.pc t = .task task := by
        intro task htask
        rw [hpc, Function.update_of_ne, htask]
        rintro rfl
        exact nomatch hhistory.symm.trans htask
      rcases htracked with heq | ⟨-, heq⟩
      · left
        cases h with
        | pending htask hpending => exact .pending (hstays htask) hpending
        | inHand htask hinHand hrecord => exact .inHand (hstays htask) hinHand hrecord
        | tracked hlookup hrecord hnone =>
            exact .tracked (heq ▸ hlookup) hrecord fun task htask => hnone task (hsame htask)
      · have hlost : (∀ task, w.pc t = .task task → task.inHand = none) → Lost w' t := by
          refine fun hnone => ⟨fun history hsome => ?_, fun task htask => hnone task (hsame htask)⟩
          rw [heq] at hsome
          cases hsome
        cases h with
        | pending htask hpending =>
            refine Or.inr (hlost fun task htask' => ?_)
            cases htask.symm.trans htask'
            exact Task.inHand_of_pending hpending
        | inHand htask hinHand hrecord => exact Or.inl (.inHand (hstays htask) hinHand hrecord)
        | tracked _ _ hnone => exact Or.inr (hlost fun task htask => (hnone task htask).1)

/-! ### A tracked thread -/

/-- The thread is tracked; and unless only the main method is collected, its history is kept, since it
would be replaced by a new one. -/
def StaysTracked (t : ThreadID) (w : World) (act : Act) : Prop :=
  w.profiler.isCurrentThreadTracked t = true
    ∧ (w.profiler.collectMainOnly = false → KeepsHistory t w act)

instance (t : ThreadID) (w : World) (act : Act) : Decidable (StaysTracked t w act) :=
  inferInstanceAs (Decidable (_ ∧ _))

/-- The call is recorded, or the history is lost, in which case the thread cannot finish any more; or
it is finishing. -/
structure Recording (w : World) (t : ThreadID) (call : UInt32 × Int32) : Prop where
  enters : w.profiler.collectMainOnly = true → ∀ task, w.pc t = .task task → ¬task.Enters
  holds : Holds w t call ∨ (w.profiler.collectMainOnly = true ∧ Lost w t)
    ∨ w.pc t = .task .finishBalances
    ∨ (w.pc t = .task .finishFilters ∧ w.profiler.isCurrentThreadTracked t = false)

/-- A thread that has pushed its report is going to be untracked. -/
theorem World.step_finishBalances (hpc : w.pc t = .task .finishBalances)
    (hstep : w.step act = some w') : w'.pc t = .task .finishBalances
      ∨ (w'.pc t = .task .finishFilters ∧ w'.profiler.isCurrentThreadTracked t = false) := by
  by_cases hact : act = .step t
  · subst hact
    obtain ⟨-, ⟨_, _, hact, -, -⟩ | ⟨_, task, hact, htask, hstep⟩ | ⟨_, pc, hact, hpc', -⟩⟩ :=
      World.step_cases hstep
    · cases hact
    · cases hact
      cases hpc.symm.trans htask
      rcases World.taskStep_cases hstep with rfl | ⟨s', next, hok, -, rfl⟩
      · exact Or.inl hpc
      · right
        obtain ⟨asserts, hassert⟩ := profilerAssert_eq w.profiler .threadStorage
          (ThreadStorage.exist w.profiler.stackBalances t)
        simp only [Task.step, hassert] at hok
        obtain ⟨rfl, rfl⟩ := Prod.mk.inj (Except.ok.inj hok)
        exact ⟨Function.update_self _ _ _,
          ThreadStorage.exist_eq_false.mpr (OrderedMap.lookup_erase_self _ _)⟩
    · cases hact
      cases hpc.symm.trans hpc'
  · left
    cases World.step_effect hstep with
    | crashes hw => exact hw ▸ hpc
    | @calls thread c hidle hpc' _ _ _ _ =>
        rw [hpc', Function.update_of_ne, hpc]
        rintro rfl
        cases hidle.symm.trans hpc
    | @works thread task next htask hpc' _ _ _ _ =>
        rw [hpc', Function.update_of_ne, hpc]
        rintro rfl
        exact hact rfl
    | @collects thread pc next hhistory hpc' _ _ _ _ _ =>
        rw [hpc', Function.update_of_ne, hpc]
        rintro rfl
        exact hact rfl

/-- A tracked thread starts no new history. -/
theorem World.step_not_enters (htracked : w.profiler.isCurrentThreadTracked t = true)
    (hmain : w.profiler.collectMainOnly = true) (h : ∀ task, w.pc t = .task task → ¬task.Enters)
    (hstep : w.step act = some w') : ∀ task, w'.pc t = .task task → ¬task.Enters := by
  have others : ∀ {thread : ThreadID} {next : Pc}, w'.pc = Function.update w.pc thread next →
      (∀ task, next = .task task → t = thread → ¬task.Enters) →
      ∀ task, w'.pc t = .task task → ¬task.Enters := by
    intro thread next hpc hnext task htask
    rw [hpc] at htask
    by_cases ht : t = thread
    · subst ht
      rw [Function.update_self] at htask
      exact hnext task htask rfl
    · rw [Function.update_of_ne ht] at htask
      exact h task htask
  obtain ⟨-, ⟨thread, c, rfl, -, -⟩ | ⟨thread, task, rfl, htask, htaskStep⟩
    | ⟨thread, pc, rfl, hhistory, hhistoryStep⟩⟩ := World.step_cases hstep
  · cases World.step_effect hstep with
    | calls _ hpc _ _ _ _ =>
        refine others hpc ?_
        rintro task hnext rfl
        exact Call.start_not_enters htracked hnext
  · rcases World.taskStep_cases htaskStep with rfl | ⟨s', next, hok, -, rfl⟩
    · exact h
    · obtain ⟨hpcs, -, -⟩ := note_mutexes { w with profiler := s' } thread task
      have hpc : ((World.note { w with profiler := s' } thread task).setPc thread (.ofTask next)).pc
          = Function.update w.pc thread (.ofTask next) := by
        show Function.update (World.note _ thread task).pc thread _ = _
        rw [hpcs]
      refine others hpc ?_
      rintro n hn rfl
      cases next with
      | none => cases hn
      | some n' =>
          cases hn
          exact fun henters => h task htask (Task.step_enters hmain hok henters)
  · cases World.historyStep_effect hhistory hhistoryStep with
    | crashes hw => exact hw ▸ h
    | works htask _ _ _ _ _ => exact nomatch hhistory.symm.trans htask
    | collects _ hpc hnext _ _ _ _ => exact others hpc fun task heq _ => absurd heq (hnext task)

theorem Recording.step (h : Recording w t call) (hstays : StaysTracked t w act)
    (hstep : w.step act = some w') : Recording w' t call := by
  have hmain := World.step_collectMainOnly hstep
  refine ⟨fun heq => World.step_not_enters hstays.1 (hmain ▸ heq) (h.enters (hmain ▸ heq)) hstep, ?_⟩
  rw [hmain]
  rcases h.holds with hholds | ⟨heq, hlost⟩ | hpc | ⟨-, huntracked⟩
  · by_cases hkeeps : KeepsHistory t w act
    · rcases hholds.step hkeeps hstep with hholds | ⟨-, -, -, -, -, hpc, -⟩
      · exact Or.inl hholds
      · exact Or.inr (Or.inr (Or.inl hpc))
    · -- only in this mode may the history be lost
      have heq : w.profiler.collectMainOnly = true := by
        by_contra hfalse
        exact hkeeps (hstays.2 (Bool.eq_false_iff.mpr hfalse))
      exact (hholds.lose hkeeps hstep).imp id fun hlost => Or.inl ⟨heq, hlost⟩
  · exact Or.inr (Or.inl ⟨heq, hlost.step (h.enters heq) hstep⟩)
  · exact Or.inr (Or.inr (World.step_finishBalances hpc hstep))
  · rw [hstays.1] at huntracked
    cases huntracked

/-- A thread makes calls while it is tracked, from some place of the schedule on up to where it pushes a
report. -/
def ReportedCalls (isPassiveRun collectMainOnly : Bool) (acts : List Act) (t : ThreadID)
    (calls : List (Probe × UInt32 × Int32)) (threadId : Int32) (history : CoverageHistory) : Prop :=
  ∃ before during after w₀ w₁, acts = before ++ during ++ after
    ∧ run World.step (.init isPassiveRun collectMainOnly) before = some w₀
    ∧ Along World.step (StaysTracked t) w₀ during ∧ run World.step w₀ during = some w₁
    ∧ (∀ c ∈ calls, .call t (.probe c.1 c.2.1 c.2.2) ∈ during)
    ∧ w₁.pc t = .task (.finishPush history threadId)

/-- The calls of a part of the schedule. -/
theorem ReportedCalls.of_take {isPassiveRun collectMainOnly : Bool} {acts : List Act}
    {calls : List (Probe × UInt32 × Int32)} {threadId : Int32} {history : CoverageHistory} (n k : ℕ)
    (hcalls : ∀ c ∈ calls, .call t (.probe c.1 c.2.1 c.2.2) ∈ (acts.drop n).take k)
    (h : ∃ w₀ ∈ run World.step (.init isPassiveRun collectMainOnly) (acts.take n),
      Along World.step (StaysTracked t) w₀ ((acts.drop n).take k)
        ∧ ∃ w₁ ∈ run World.step w₀ ((acts.drop n).take k),
          w₁.pc t = .task (.finishPush history threadId)) :
    ReportedCalls isPassiveRun collectMainOnly acts t calls threadId history := by
  obtain ⟨w₀, hbefore, hstays, w₁, hduring, hpc⟩ := h
  refine ⟨acts.take n, (acts.drop n).take k, (acts.drop n).drop k, w₀, w₁, ?_, hbefore, hstays, hduring,
    hcalls, hpc⟩
  rw [List.append_assoc, List.take_append_drop, List.take_append_drop]

/-- The probes that record for every tracked thread. -/
def Probe.RecordsTracked : Probe → Prop
  | .enterMain | .enter | .leave => False
  | _ => True

/-- A call is being recorded behind it. -/
theorem Recording.of_call {p : Probe} {offset : UInt32} {methodId : Int32} (hp : p.RecordsTracked)
    (htracked : w.profiler.isCurrentThreadTracked t = true)
    (hstep : w.step (.call t (.probe p offset methodId)) = some w') :
    Recording w' t (offset, methodId) := by
  have hrecords : w.profiler.Records t p := by
    cases p with
    | enterMain | enter | leave => exact absurd hp id
    | _ => exact htracked
  refine ⟨fun _ task htask => ?_, Or.inl (Holds.of_call hrecords hstep)⟩
  cases World.step_effect hstep with
  | calls _ hpc _ _ _ _ =>
      rw [hpc, Function.update_self] at htask
      exact Call.start_not_enters htracked htask

/-- **The report has what the thread has called for** while it was tracked, whatever the other threads
do in between. -/
theorem ReportedCalls.hasRecord {isPassiveRun collectMainOnly : Bool} {acts : List Act}
    {calls : List (Probe × UInt32 × Int32)} {threadId : Int32} {history : CoverageHistory}
    (h : ReportedCalls isPassiveRun collectMainOnly acts t calls threadId history)
    {c : Probe × UInt32 × Int32} (hc : c ∈ calls) (hp : c.1.RecordsTracked) :
    HasRecord t c.2 history := by
  obtain ⟨before, during, after, w₀, w₁, -, -, hstays, hduring, hcalls, hpc⟩ := h
  obtain ⟨front, back, rfl⟩ := List.append_of_mem (hcalls c hc)
  obtain ⟨w₂, hfront, hback⟩ := Option.bind_eq_some_iff.mp ((run_append _ _ _).symm.trans hduring)
  have hstays₂ := hstays.behind hfront
  rw [run_cons] at hback
  obtain ⟨w₃, hstep, hback⟩ := Option.bind_eq_some_iff.mp hback
  have hrecording : Recording w₁ t c.2 := (always_of_along
    (I := fun w => Recording w t c.2) (Q := fun w => Recording w t c.2) (fun _ h => h)
    (fun _ _ _ h hstays hstep => h.step hstays hstep) (.of_call hp hstays₂.1.1 hstep)
    (hstays₂.2 w₃ hstep)).behind hback
  rcases hrecording.holds with hholds | ⟨-, hlost⟩ | hbalances | ⟨hfilters, -⟩
  · cases hholds with
    | pending htask hpending =>
        cases hpc.symm.trans htask
        cases hpending
    | inHand htask hinHand hrecord =>
        cases hpc.symm.trans htask
        obtain rfl := Option.some.inj hinHand
        exact hrecord
    | tracked _ _ hnone => exact nomatch (hnone _ hpc).1
  · exact nomatch hlost.inHand _ hpc
  · exact nomatch hpc.symm.trans hbalances
  · exact nomatch hpc.symm.trans hfilters

end TestExecutor
