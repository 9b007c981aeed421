import TestExecutor.Profiler.Steps

/-!
# The mutexes of a collection

`serializeCoverageReport` holds `collectedMethodsMutex` and `serializedCoverageMutex` from its first
two operations to its last two.

* `Pc.HoldsCollected`, `Pc.HoldsSerialized` — where a thread holds them;
* `Locked` — each mutex is held by the thread that stands there; `Locked.step`.
-/

namespace TestExecutor

open TestExecutor.Library ProfilerState

def Pc.HoldsCollected : Pc → Prop
  | .history .lockSerialized | .history (.methods _ _) | .history (.mapping _)
  | .history (.notEntered _ _) | .history (.serialize _) | .history .clearTracked
  | .history .clearSerialized | .history .unlockSerialized | .history .unlockCollected => True
  | _ => False

def Pc.HoldsSerialized : Pc → Prop
  | .history (.methods _ _) | .history (.mapping _) | .history (.notEntered _ _)
  | .history (.serialize _) | .history .clearTracked | .history .clearSerialized
  | .history .unlockSerialized => True
  | _ => False

/-- The holder of a mutex is the thread that stands between its locking and its unlocking. -/
structure Locked (w : World) : Prop where
  collected_iff : ∀ t, w.collectedMethodsMutex = some t ↔ (w.pc t).HoldsCollected
  serialized_iff : ∀ t, w.serializedCoverageMutex = some t ↔ (w.pc t).HoldsSerialized

variable {w w' : World} {thread : ThreadID}

theorem Pc.ofTask_holds (next : Option Task) :
    ¬(Pc.ofTask next).HoldsCollected ∧ ¬(Pc.ofTask next).HoldsSerialized := by
  cases next with
  | none => exact ⟨id, id⟩
  | some task => exact ⟨id, id⟩

/-- A thread that moves holds what the mutexes say. -/
theorem Locked.move (h : Locked w) {pc : Pc} (hpc : w'.pc = Function.update w.pc thread pc)
    (hcollected : ∀ t, w'.collectedMethodsMutex = some t
      ↔ if t = thread then pc.HoldsCollected else w.collectedMethodsMutex = some t)
    (hserialized : ∀ t, w'.serializedCoverageMutex = some t
      ↔ if t = thread then pc.HoldsSerialized else w.serializedCoverageMutex = some t) :
    Locked w' where
  collected_iff := by
    intro t
    rw [hcollected, hpc, Function.update_apply]
    split
    · exact Iff.rfl
    · exact h.collected_iff t
  serialized_iff := by
    intro t
    rw [hserialized, hpc, Function.update_apply]
    split
    · exact Iff.rfl
    · exact h.serialized_iff t

/-- A thread that moves without locking or unlocking. -/
theorem Locked.stay (h : Locked w) {pc : Pc} (hpc : w'.pc = Function.update w.pc thread pc)
    (hcollected : w'.collectedMethodsMutex = w.collectedMethodsMutex)
    (hserialized : w'.serializedCoverageMutex = w.serializedCoverageMutex)
    (hholds : (pc.HoldsCollected ↔ (w.pc thread).HoldsCollected)
      ∧ (pc.HoldsSerialized ↔ (w.pc thread).HoldsSerialized)) : Locked w' := by
  refine h.move hpc (fun t => ?_) fun t => ?_
  · rw [hcollected]
    split
    · rename_i ht
      rw [hholds.1, ht, h.collected_iff]
    · exact Iff.rfl
  · rw [hserialized]
    split
    · rename_i ht
      rw [hholds.2, ht, h.serialized_iff]
    · exact Iff.rfl

theorem lock_iff {mutex : Option ThreadID} (hfree : mutex = none) (t : ThreadID) :
    some thread = some t ↔ if t = thread then True else mutex = some t := by
  rw [hfree]
  split
  · rename_i ht
    simp [ht]
  · rename_i ht
    simp [Ne.symm ht]

theorem unlock_iff {mutex : Option ThreadID} (hheld : mutex = some thread) (t : ThreadID) :
    none = some t ↔ if t = thread then False else mutex = some t := by
  rw [hheld]
  split
  · simp
  · rename_i ht
    simp [Ne.symm ht]

theorem Locked.historyStep (h : Locked w) {pc : HistoryPc} (hpc : w.pc thread = .history pc)
    (hstep : w.historyStep thread pc = some w') : Locked w' := by
  -- an operation that neither locks nor unlocks
  have stays : ∀ {next : Pc}, w'.pc = Function.update w.pc thread next →
      w'.collectedMethodsMutex = w.collectedMethodsMutex →
      w'.serializedCoverageMutex = w.serializedCoverageMutex →
      (next.HoldsCollected ↔ (Pc.history pc).HoldsCollected)
        ∧ (next.HoldsSerialized ↔ (Pc.history pc).HoldsSerialized) → Locked w' := by
    intro next hnext hcollected hserialized hholds
    exact h.stay hnext hcollected hserialized (by rwa [hpc])
  have hcollected : (Pc.history pc).HoldsCollected → w.collectedMethodsMutex = some thread := by
    intro hholds
    rw [h.collected_iff, hpc]
    exact hholds
  have hserialized : (Pc.history pc).HoldsSerialized →
      w.serializedCoverageMutex = some thread := by
    intro hholds
    rw [h.serialized_iff, hpc]
    exact hholds
  have hnot : ¬(Pc.history pc).HoldsSerialized → w.serializedCoverageMutex ≠ some thread := by
    intro hholds
    rwa [Ne, h.serialized_iff, hpc]
  cases pc with
  | lockCollected =>
      simp only [World.historyStep] at hstep
      split at hstep
      · cases hstep
      · rename_i hfree
        obtain rfl := Option.some.inj hstep
        refine h.move rfl (lock_iff (by simpa using hfree)) fun t => ?_
        show w.serializedCoverageMutex = some t ↔ _
        split
        · rename_i ht
          rw [ht]
          exact iff_of_false (hnot id) id
        · exact Iff.rfl
  | lockSerialized =>
      simp only [World.historyStep] at hstep
      split at hstep
      · cases hstep
      · rename_i hfree
        obtain rfl := Option.some.inj hstep
        refine h.move rfl (fun t => ?_) (lock_iff (by simpa using hfree))
        show w.collectedMethodsMutex = some t ↔ _
        split
        · rename_i ht
          rw [ht]
          exact iff_of_true (hcollected trivial) trivial
        · exact Iff.rfl
  | methods i found =>
      simp only [World.historyStep] at hstep
      split at hstep
      · obtain rfl := Option.some.inj hstep
        exact stays rfl rfl rfl ⟨Iff.rfl, Iff.rfl⟩
      · obtain rfl := Option.some.inj hstep
        exact stays rfl rfl rfl ⟨Iff.rfl, Iff.rfl⟩
  | unlockSerialized =>
      obtain rfl := Option.some.inj hstep
      refine h.move rfl (fun t => ?_) (unlock_iff (hserialized trivial))
      show w.collectedMethodsMutex = some t ↔ _
      split
      · rename_i ht
        rw [ht]
        exact iff_of_true (hcollected trivial) trivial
      · exact Iff.rfl
  | unlockCollected =>
      obtain rfl := Option.some.inj hstep
      refine h.move rfl (unlock_iff (hcollected trivial)) fun t => ?_
      show w.serializedCoverageMutex = some t ↔ _
      split
      · rename_i ht
        rw [ht]
        exact iff_of_false (hnot id) id
      · exact Iff.rfl
  | _ =>
      obtain rfl := Option.some.inj hstep
      exact stays rfl rfl rfl ⟨Iff.rfl, Iff.rfl⟩

theorem Call.start_holds (s : ProfilerState) (thread : ThreadID) (call : Call) :
    ¬(call.start s thread).2.HoldsCollected ∧ ¬(call.start s thread).2.HoldsSerialized := by
  cases call with
  | probe p offset methodId => exact Pc.ofTask_holds _
  | setCurrentThreadId mapId => exact ⟨id, id⟩
  | collectMethod info => exact ⟨id, id⟩
  | getHistory => exact ⟨id, id⟩
  | _ =>
      simp only [Call.start]
      split
      · exact ⟨id, id⟩
      · exact ⟨id, id⟩

theorem note_mutexes (w : World) (thread : ThreadID) (task : Task) :
    (w.note thread task).pc = w.pc
      ∧ (w.note thread task).collectedMethodsMutex = w.collectedMethodsMutex
      ∧ (w.note thread task).serializedCoverageMutex = w.serializedCoverageMutex := by
  cases task <;> exact ⟨rfl, rfl, rfl⟩

theorem Locked.step (h : Locked w) {act : Act} (hstep : w.step act = some w') : Locked w' := by
  obtain ⟨-, ⟨thread, call, rfl, hpc, hstep⟩ | ⟨thread, task, rfl, hpc, hstep⟩
    | ⟨thread, pc, rfl, hpc, hstep⟩⟩ := World.step_cases hstep
  · rcases World.callStep_cases hstep with ⟨info, -, -, rfl⟩ | ⟨s', -, -, rfl⟩
    · exact h.stay rfl rfl rfl (by rw [hpc]; exact ⟨Iff.rfl, Iff.rfl⟩)
    · obtain ⟨hcollected, hserialized⟩ := call.start_holds w.profiler thread
      exact h.stay rfl rfl rfl (by
        rw [hpc]
        exact ⟨iff_of_false hcollected id, iff_of_false hserialized id⟩)
  · rcases World.taskStep_cases hstep with rfl | ⟨s', next, -, -, rfl⟩
    · exact ⟨h.collected_iff, h.serialized_iff⟩
    · obtain ⟨hcollected, hserialized⟩ := Pc.ofTask_holds next
      obtain ⟨hpcs, hcmutex, hsmutex⟩ := note_mutexes { w with profiler := s' } thread task
      have hmoved : ((World.note { w with profiler := s' } thread task).setPc thread
          (.ofTask next)).pc = Function.update w.pc thread (.ofTask next) := by
        show Function.update ((World.note _ thread task).pc) thread _ = _
        rw [hpcs]
      refine h.stay hmoved hcmutex hsmutex ?_
      rw [hpc]
      exact ⟨iff_of_false hcollected id, iff_of_false hserialized id⟩
  · exact h.historyStep hpc hstep

theorem locked_init (isPassiveRun collectMainOnly : Bool) :
    Locked (.init isPassiveRun collectMainOnly) :=
  ⟨fun t => iff_of_false (fun h => by cases h) id, fun t => iff_of_false (fun h => by cases h) id⟩

end TestExecutor
