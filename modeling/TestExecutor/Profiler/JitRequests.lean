import TestExecutor.Library.Runs
import TestExecutor.Profiler.Instrumenter

/-!
# Concurrent requests to instrument methods

`instrumenter.cpp`: the runtime compiles methods on several threads, each request with an
`Instrumenter` of its own, whose mutex it shares with nobody.  The lookup in `instrumentedMethods`,
the locked part and the final `SetILFunctionBody` are separate steps.

* `InstrumentPc`, `JitState`, `JitState.step` — the requests and their steps;
* `InstrumentedOnce` — no definition is given two method ids or rewritten twice;
* `MissesAlone` — no lookup misses while another request for the definition has missed it;
* `instrumentedOnce_along`.
-/

namespace TestExecutor

open TestExecutor.Library

/-! ### The requests -/

inductive InstrumentPc where
  | called
  -- in front of the lookup
  | looking
  -- the lookup missed; in front of the locked part
  | missed
  | collected (methodId : ℕ)
  | returned
  deriving DecidableEq, Repr

/-- The places of a request at which nothing is under way. -/
def InstrumentPc.Quiet (pc : InstrumentPc) : Prop :=
  pc ≠ .missed ∧ ∀ methodId, pc ≠ .collected methodId

/-- The process, where the requests stand, and the method ids that they were given. -/
structure JitState (ι : Type) where
  process : Process
  pc : ι → InstrumentPc
  given : List (ι × ((UInt32 × ℕ) × ℕ))

inductive JitAct (ι : Type) where
  | request (i : ι)
  | setEntryMain (info : MethodInfo)

namespace JitState

variable {ι : Type} [DecidableEq ι] (request : ι → FunctionID × FunctionInfo)

def init (s : ProfilerState) (main : Option MethodInfo) : JitState ι :=
  ⟨⟨s, main, [], []⟩, fun _ => .called, []⟩

def setPc (w : JitState ι) (i : ι) (pc : InstrumentPc) : JitState ι :=
  { w with pc := Function.update w.pc i pc }

def requestStep (w : JitState ι) (i : ι) : Option (JitState ι) :=
  let (functionId, f) := request i
  match w.pc i with
  | .called =>
      if !w.process.instrumentationIsNeeded f.info then some (w.setPc i .returned)
      else some ({ w with process := w.process.setMainFunction functionId }.setPc i .looking)
  | .looking =>
      some (w.setPc i (if f.definition ∈ w.process.instrumentedMethods then .returned else .missed))
  | .missed =>
      let (methodId, process) := w.process.collectAndInsert f
      some ({ w with process, given := w.given ++ [(i, f.definition, methodId)] }.setPc i
        (.collected methodId))
  | .collected methodId =>
      some ({ w with process := w.process.doInstrumentation f methodId }.setPc i .returned)
  | .returned => none

def step (w : JitState ι) : JitAct ι → Option (JitState ι)
  | .request i => w.requestStep request i
  | .setEntryMain info => some { w with process := w.process.setEntryMain info }

/-- The definition that a request is about. -/
def definition (i : ι) : UInt32 × ℕ := (request i).2.definition

/-- No definition is given two method ids, and none is rewritten twice. -/
def InstrumentedOnce (w : JitState ι) : Prop :=
  (w.given.map fun g => g.2.1).Nodup ∧ (w.process.rewritten.map Prod.fst).Nodup

/-- No lookup misses a definition while another request stands between its own missed lookup of the
definition and the locked part. -/
def MissesAlone (w : JitState ι) : JitAct ι → Prop
  | .request i => w.pc i = .looking → definition request i ∉ w.process.instrumentedMethods →
      ∀ j, w.pc j = .missed → definition request j ≠ definition request i
  | .setEntryMain _ => True

/-- The request is past its missed lookup: it will be given an id, or was given one. -/
def Claims (w : JitState ι) (i : ι) (d : UInt32 × ℕ) : Prop :=
  (w.pc i = .missed ∧ definition request i = d) ∨ ∃ methodId, (i, d, methodId) ∈ w.given

/-- Every request has returned, or was never made. -/
def Settled (w : JitState ι) : Prop := ∀ i, w.pc i = .called ∨ w.pc i = .returned

/-! ### One step -/

/-- What holds as long as every lookup misses alone. -/
structure OneEach (w : JitState ι) : Prop where
  once : InstrumentedOnce w
  inserted_iff : ∀ d, d ∈ w.process.instrumentedMethods ↔ d ∈ w.given.map fun g => g.2.1
  rewritten_inserted : ∀ d ∈ w.process.rewritten.map Prod.fst, d ∈ w.process.instrumentedMethods
  missed_new : ∀ i, w.pc i = .missed → definition request i ∉ w.process.instrumentedMethods
  missed_alone : ∀ i j, w.pc i = .missed → w.pc j = .missed →
    definition request i = definition request j → i = j
  collected_new : ∀ i methodId, w.pc i = .collected methodId →
    definition request i ∈ w.process.instrumentedMethods
      ∧ definition request i ∉ w.process.rewritten.map Prod.fst
  collected_alone : ∀ i j m n, w.pc i = .collected m → w.pc j = .collected n →
    definition request i = definition request j → i = j

variable {request} {w w' : JitState ι} {i : ι}

theorem setPc_pc (w : JitState ι) (i j : ι) (pc : InstrumentPc) :
    (w.setPc i pc).pc j = if j = i then pc else w.pc j := Function.update_apply _ _ _ _

/-- A request that moves between quiet places. -/
theorem OneEach.quiet (h : OneEach request w) {process : Process}
    (hinserted : process.instrumentedMethods = w.process.instrumentedMethods)
    (hrewritten : process.rewritten = w.process.rewritten) {pc : InstrumentPc} (hpc : pc.Quiet) :
    OneEach request ({ w with process }.setPc i pc) := by
  have hmissed : ∀ j, ({ w with process }.setPc i pc).pc j = .missed → w.pc j = .missed := by
    intro j hj
    rw [setPc_pc] at hj
    split at hj
    · exact absurd hj hpc.1
    · exact hj
  have hcollected : ∀ j m, ({ w with process }.setPc i pc).pc j = .collected m →
      w.pc j = .collected m := by
    intro j m hj
    rw [setPc_pc] at hj
    split at hj
    · exact absurd hj (hpc.2 m)
    · exact hj
  refine ⟨⟨h.once.1, ?_⟩, ?_, ?_, ?_, ?_, ?_, ?_⟩
  · show (process.rewritten.map Prod.fst).Nodup
    rw [hrewritten]
    exact h.once.2
  · intro d
    show d ∈ process.instrumentedMethods ↔ _
    rw [hinserted]
    exact h.inserted_iff d
  · show ∀ d ∈ process.rewritten.map Prod.fst, d ∈ process.instrumentedMethods
    rw [hrewritten, hinserted]
    exact h.rewritten_inserted
  · intro j hj
    show definition request j ∉ process.instrumentedMethods
    rw [hinserted]
    exact h.missed_new j (hmissed j hj)
  · intro j k hj hk
    exact h.missed_alone j k (hmissed j hj) (hmissed k hk)
  · intro j m hj
    show definition request j ∈ process.instrumentedMethods
      ∧ definition request j ∉ process.rewritten.map Prod.fst
    rw [hinserted, hrewritten]
    exact h.collected_new j m (hcollected j m hj)
  · intro j k m n hj hk
    exact h.collected_alone j k m n (hcollected j m hj) (hcollected k n hk)

/-- A lookup that misses alone. -/
theorem OneEach.miss (h : OneEach request w)
    (hnew : definition request i ∉ w.process.instrumentedMethods)
    (halone : ∀ j, w.pc j = .missed → definition request j ≠ definition request i) :
    OneEach request (w.setPc i .missed) := by
  have hcollected : ∀ j m, (w.setPc i .missed).pc j = .collected m → w.pc j = .collected m := by
    intro j m hj
    rw [setPc_pc] at hj
    split at hj
    · cases hj
    · exact hj
  refine ⟨h.once, h.inserted_iff, h.rewritten_inserted, ?_, ?_,
    fun j m hj => h.collected_new j m (hcollected j m hj),
    fun j k m n hj hk => h.collected_alone j k m n (hcollected j m hj) (hcollected k n hk)⟩
  · intro j hj
    rw [setPc_pc] at hj
    split at hj
    · rename_i hji
      rw [hji]
      exact hnew
    · exact h.missed_new j hj
  · intro j k hj hk hdef
    rw [setPc_pc] at hj hk
    split at hj <;> split at hk
    · simp_all
    · rename_i hji _
      exact absurd (by rw [← hdef, hji]) (halone k hk)
    · rename_i _ hki
      exact absurd (by rw [hdef, hki]) (halone j hj)
    · exact h.missed_alone j k hj hk hdef

/-- The locked part of a request: its definition is new, and it is the only one in front of it. -/
theorem OneEach.collect (h : OneEach request w) (hpc : w.pc i = .missed) {process : Process}
    {methodId : ℕ} (hinserted : process.instrumentedMethods
      = definition request i :: w.process.instrumentedMethods)
    (hrewritten : process.rewritten = w.process.rewritten) :
    OneEach request ({ w with
      process, given := w.given ++ [(i, definition request i, methodId)] }.setPc i
        (.collected methodId)) := by
  have hnew := h.missed_new i hpc
  have hmissed : ∀ j, ({ w with
      process, given := w.given ++ [(i, definition request i, methodId)] }.setPc i
        (.collected methodId)).pc j = .missed → j ≠ i ∧ w.pc j = .missed := by
    intro j hj
    rw [setPc_pc] at hj
    split at hj
    · cases hj
    · rename_i hji
      exact ⟨hji, hj⟩
  have hcollected : ∀ j m, ({ w with
      process, given := w.given ++ [(i, definition request i, methodId)] }.setPc i
        (.collected methodId)).pc j = .collected m → j = i ∨ w.pc j = .collected m := by
    intro j m hj
    rw [setPc_pc] at hj
    split at hj
    · rename_i hji
      exact Or.inl hji
    · exact Or.inr hj
  -- a request that was given an id before is about another definition
  have hother : ∀ j m, w.pc j = .collected m → definition request j ≠ definition request i := by
    intro j m hj heq
    exact hnew (heq ▸ (h.collected_new j m hj).1)
  refine ⟨⟨?_, ?_⟩, ?_, ?_, ?_, ?_, ?_, ?_⟩
  · show ((w.given ++ [(i, definition request i, methodId)]).map fun g => g.2.1).Nodup
    rw [List.map_append, List.nodup_append]
    refine ⟨h.once.1, List.nodup_singleton _, ?_⟩
    rintro d hd e he rfl
    rw [← h.inserted_iff] at hd
    obtain rfl : d = definition request i := List.mem_singleton.mp he
    exact hnew hd
  · show (process.rewritten.map Prod.fst).Nodup
    rw [hrewritten]
    exact h.once.2
  · intro d
    show d ∈ process.instrumentedMethods
      ↔ d ∈ (w.given ++ [(i, definition request i, methodId)]).map fun g => g.2.1
    rw [hinserted, List.map_append, List.mem_append, ← h.inserted_iff, List.mem_cons, or_comm]
    simp
  · show ∀ d ∈ process.rewritten.map Prod.fst, d ∈ process.instrumentedMethods
    rw [hrewritten, hinserted]
    exact fun d hd => List.mem_cons_of_mem _ (h.rewritten_inserted d hd)
  · intro j hj
    obtain ⟨hji, hj⟩ := hmissed j hj
    show definition request j ∉ process.instrumentedMethods
    rw [hinserted, List.mem_cons, not_or]
    exact ⟨fun heq => hji (h.missed_alone j i hj hpc heq), h.missed_new j hj⟩
  · intro j k hj hk
    exact h.missed_alone j k (hmissed j hj).2 (hmissed k hk).2
  · intro j m hj
    show definition request j ∈ process.instrumentedMethods
      ∧ definition request j ∉ process.rewritten.map Prod.fst
    rw [hinserted, hrewritten]
    rcases hcollected j m hj with rfl | hj
    · exact ⟨List.mem_cons_self, fun hmem => hnew (h.rewritten_inserted _ hmem)⟩
    · obtain ⟨hmem, hnot⟩ := h.collected_new j m hj
      exact ⟨List.mem_cons_of_mem _ hmem, hnot⟩
  · intro j k m n hj hk hdef
    rcases hcollected j m hj with rfl | hj' <;> rcases hcollected k n hk with rfl | hk'
    · rfl
    · exact absurd hdef.symm (hother k n hk')
    · exact absurd hdef (hother j m hj')
    · exact h.collected_alone j k m n hj' hk' hdef

/-- The body of a definition is set by the request that was given its id. -/
theorem OneEach.rewrite (h : OneEach request w) {methodId : ℕ}
    (hpc : w.pc i = .collected methodId) {process : Process}
    (hinserted : process.instrumentedMethods = w.process.instrumentedMethods)
    (hrewritten : process.rewritten = w.process.rewritten ++ [(definition request i, methodId)]) :
    OneEach request ({ w with process }.setPc i .returned) := by
  obtain ⟨hmem, hnot⟩ := h.collected_new i methodId hpc
  have hbodies : process.rewritten.map Prod.fst
      = w.process.rewritten.map Prod.fst ++ [definition request i] := by
    rw [hrewritten, List.map_append]
    rfl
  have hmissed : ∀ j, ({ w with process }.setPc i .returned).pc j = .missed →
      w.pc j = .missed := by
    intro j hj
    rw [setPc_pc] at hj
    split at hj
    · cases hj
    · exact hj
  have hcollected : ∀ j m, ({ w with process }.setPc i .returned).pc j = .collected m →
      j ≠ i ∧ w.pc j = .collected m := by
    intro j m hj
    rw [setPc_pc] at hj
    split at hj
    · cases hj
    · rename_i hji
      exact ⟨hji, hj⟩
  refine ⟨⟨h.once.1, ?_⟩, ?_, ?_, ?_, ?_, ?_, ?_⟩
  · show (process.rewritten.map Prod.fst).Nodup
    rw [hbodies, List.nodup_append]
    refine ⟨h.once.2, List.nodup_singleton _, ?_⟩
    rintro d hd e he rfl
    exact hnot (List.mem_singleton.mp he ▸ hd)
  · intro d
    show d ∈ process.instrumentedMethods ↔ _
    rw [hinserted]
    exact h.inserted_iff d
  · show ∀ d ∈ process.rewritten.map Prod.fst, d ∈ process.instrumentedMethods
    rw [hbodies, hinserted]
    intro d hd
    rcases List.mem_append.mp hd with hd | hd
    · exact h.rewritten_inserted d hd
    · exact List.mem_singleton.mp hd ▸ hmem
  · intro j hj
    show definition request j ∉ process.instrumentedMethods
    rw [hinserted]
    exact h.missed_new j (hmissed j hj)
  · intro j k hj hk
    exact h.missed_alone j k (hmissed j hj) (hmissed k hk)
  · intro j m hj
    obtain ⟨hji, hj⟩ := hcollected j m hj
    show definition request j ∈ process.instrumentedMethods
      ∧ definition request j ∉ process.rewritten.map Prod.fst
    rw [hinserted, hbodies, List.mem_append, not_or, List.mem_singleton]
    obtain ⟨hmem', hnot'⟩ := h.collected_new j m hj
    exact ⟨hmem', hnot', fun heq => hji (h.collected_alone j i m methodId hj hpc heq)⟩
  · intro j k m n hj hk
    exact h.collected_alone j k m n (hcollected j m hj).2 (hcollected k n hk).2

theorem setMainFunction_lists (p : Process) (functionId : FunctionID) :
    (p.setMainFunction functionId).instrumentedMethods = p.instrumentedMethods
      ∧ (p.setMainFunction functionId).rewritten = p.rewritten := by
  unfold Process.setMainFunction
  split
  · exact ⟨rfl, rfl⟩
  · exact ⟨rfl, rfl⟩

theorem OneEach.step (h : OneEach request w) {a : JitAct ι} (hP : MissesAlone request w a)
    (hstep : w.step request a = some w') : OneEach request w' := by
  cases a with
  | setEntryMain info =>
      obtain rfl := Option.some.inj hstep
      exact ⟨h.once, h.inserted_iff, h.rewritten_inserted, h.missed_new, h.missed_alone,
        h.collected_new, h.collected_alone⟩
  | request i =>
      rw [JitState.step, requestStep] at hstep
      cases hpc : w.pc i with
      | called =>
          simp only [hpc] at hstep
          split at hstep
          · obtain rfl := Option.some.inj hstep
            exact h.quiet rfl rfl ⟨by decide, fun m => by simp⟩
          · obtain rfl := Option.some.inj hstep
            obtain ⟨hinserted, hrewritten⟩ :=
              setMainFunction_lists w.process (request i).1
            exact h.quiet hinserted hrewritten ⟨by decide, fun m => by simp⟩
      | looking =>
          simp only [hpc] at hstep
          obtain rfl := Option.some.inj hstep
          split
          · exact h.quiet rfl rfl ⟨by decide, fun m => by simp⟩
          · rename_i hnew
            exact h.miss hnew (hP hpc hnew)
      | missed =>
          simp only [hpc] at hstep
          obtain rfl := Option.some.inj hstep
          exact h.collect hpc rfl rfl
      | collected methodId =>
          simp only [hpc] at hstep
          obtain rfl := Option.some.inj hstep
          exact h.rewrite hpc rfl rfl
      | returned =>
          simp only [hpc] at hstep
          cases hstep

omit [DecidableEq ι] in
theorem oneEach_init (s : ProfilerState) (main : Option MethodInfo) :
    OneEach request (JitState.init s main) where
  once := ⟨List.nodup_nil, List.nodup_nil⟩
  inserted_iff := fun d => Iff.rfl
  rewritten_inserted := fun d hd => absurd hd List.not_mem_nil
  missed_new := fun i hi => by cases hi
  missed_alone := fun i j hi => by cases hi
  collected_new := fun i m hi => by cases hi
  collected_alone := fun i j m n hi => by cases hi

/-! ### Two lookups that miss -/

/-- A request that is past its missed lookup stays so. -/
theorem Claims.step {d : UInt32 × ℕ} {a : JitAct ι} (h : Claims request w i d)
    (hstep : w.step request a = some w') : Claims request w' i d := by
  -- the other requests leave its place and the given ids alone
  have moves : ∀ j (process : Process) (pc : InstrumentPc) (more), (j = i → w.pc i ≠ .missed) →
      Claims request ({ w with process, given := w.given ++ more }.setPc j pc) i d := by
    intro j process pc more hj
    rcases h with ⟨hpc, hdef⟩ | ⟨methodId, hmem⟩
    · refine Or.inl ⟨?_, hdef⟩
      rw [setPc_pc, if_neg fun heq => hj heq.symm hpc]
      exact hpc
    · exact Or.inr ⟨methodId, List.mem_append_left _ hmem⟩
  cases a with
  | setEntryMain info =>
      obtain rfl := Option.some.inj hstep
      exact h
  | request j =>
      rw [JitState.step, requestStep] at hstep
      cases hpc : w.pc j with
      | called =>
          simp only [hpc] at hstep
          split at hstep
          · obtain rfl := Option.some.inj hstep
            have hmove := moves j w.process .returned [] (by rintro rfl; simp [hpc])
            rwa [List.append_nil] at hmove
          · obtain rfl := Option.some.inj hstep
            have hmove := moves j (w.process.setMainFunction (request j).1) .looking []
              (by rintro rfl; simp [hpc])
            rwa [List.append_nil] at hmove
      | looking =>
          simp only [hpc] at hstep
          obtain rfl := Option.some.inj hstep
          have hmove := moves j w.process (if (request j).2.definition
            ∈ w.process.instrumentedMethods then .returned else .missed) []
            (by rintro rfl; simp [hpc])
          rwa [List.append_nil] at hmove
      | missed =>
          simp only [hpc] at hstep
          obtain rfl := Option.some.inj hstep
          by_cases hji : j = i
          · subst hji
            rcases h with ⟨-, rfl⟩ | ⟨methodId, hmem⟩
            · exact Or.inr ⟨_, List.mem_append_right _ (List.mem_singleton.mpr rfl)⟩
            · exact Or.inr ⟨methodId, List.mem_append_left _ hmem⟩
          · exact moves j _ _ _ fun heq => absurd heq hji
      | collected methodId =>
          simp only [hpc] at hstep
          obtain rfl := Option.some.inj hstep
          have hmove := moves j (w.process.doInstrumentation (request j).2 methodId) .returned []
            (by rintro rfl; simp [hpc])
          rwa [List.append_nil] at hmove
      | returned =>
          simp only [hpc] at hstep
          cases hstep

/-- Behind a lookup that does not miss alone two requests are bound to be given ids. -/
theorem claims_of_not_alone {a : JitAct ι} (hP : ¬MissesAlone request w a) :
    ∃ w' i j d, w.step request a = some w' ∧ i ≠ j ∧ Claims request w' i d
      ∧ Claims request w' j d := by
  cases a with
  | setEntryMain info => exact absurd trivial hP
  | request i =>
      simp only [MissesAlone, not_forall, not_not] at hP
      obtain ⟨hpc, hnew, j, hj, hdef⟩ := hP
      have hne : j ≠ i := by
        rintro rfl
        rw [hpc] at hj
        cases hj
      refine ⟨w.setPc i .missed, i, j, definition request i, ?_, Ne.symm hne, Or.inl ⟨?_, rfl⟩,
        Or.inl ⟨?_, hdef⟩⟩
      · rw [JitState.step, requestStep]
        simp only [hpc]
        exact congrArg (fun pc => some (w.setPc i pc)) (if_neg hnew)
      · rw [setPc_pc, if_pos rfl]
      · rw [setPc_pc, if_neg hne, hj]

omit [DecidableEq ι] in
/-- Two requests that were bound to be given ids have been given them. -/
theorem not_once_of_claims {j : ι} {d : UInt32 × ℕ} (hi : Claims request w i d)
    (hj : Claims request w j d) (hne : i ≠ j) (hsettled : Settled w) : ¬InstrumentedOnce w := by
  have given : ∀ k, Claims request w k d → ∃ methodId, (k, d, methodId) ∈ w.given := by
    rintro k (⟨hpc, -⟩ | hmem)
    · rcases hsettled k with h | h
      · rw [h] at hpc
        cases hpc
      · rw [h] at hpc
        cases hpc
    · exact hmem
  intro honce
  obtain ⟨m, hm⟩ := given i hi
  obtain ⟨n, hn⟩ := given j hj
  exact hne (congrArg Prod.fst (List.inj_on_of_nodup_map honce.1 hm hn rfl))

theorem along_of_settled (acts : List (JitAct ι)) : ∀ {w w' : JitState ι},
    run (step request) w acts = some w' → Settled w' → InstrumentedOnce w' →
      Along (step request) (MissesAlone request) w acts := by
  induction acts with
  | nil =>
      intro w w' _ _ _
      trivial
  | cons a acts ih =>
      intro w w' hrun hsettled honce
      rw [run_cons] at hrun
      obtain ⟨next, hnext, hrest⟩ := Option.bind_eq_some_iff.mp hrun
      constructor
      · by_contra hP
        obtain ⟨next', i, j, d, hnext', hne, hi, hj⟩ := claims_of_not_alone hP
        obtain rfl : next = next' := Option.some.inj (hnext.symm.trans hnext')
        have stays : ∀ k, Claims request next k d → Claims request w' k d := fun k hk =>
          run_invariant (fun _ _ _ h hstep => Claims.step h hstep) hk hrest
        exact not_once_of_claims (stays i hi) (stays j hj) hne hsettled honce
      · intro s' hs'
        obtain rfl : next = s' := Option.some.inj (hnext.symm.trans hs')
        exact ih hrest hsettled honce

end JitState

open JitState

/-- **When every method is instrumented at most once.**  In every interleaving of any number of
requests, no definition is given two method ids or rewritten twice, provided that no lookup misses
a definition while another request for it stands between its own missed lookup and its insertion;
and in a run behind which every request has returned this is also necessary. -/
theorem instrumentedOnce_along {ι : Type} [DecidableEq ι] (request : ι → FunctionID × FunctionInfo)
    (s : ProfilerState) (main : Option MethodInfo) (acts : List (JitAct ι)) :
    (Along (JitState.step request) (MissesAlone request) (JitState.init s main) acts →
      Always (JitState.step request) InstrumentedOnce (JitState.init s main) acts)
    ∧ ∀ w, run (JitState.step request) (JitState.init s main) acts = some w → Settled w →
      InstrumentedOnce w →
      Along (JitState.step request) (MissesAlone request) (JitState.init s main) acts :=
  ⟨always_of_along (fun _ h => h.once) (fun _ _ _ h hP hstep => h.step hP hstep)
    (oneEach_init s main), fun _ hrun hsettled honce => along_of_settled acts hrun hsettled honce⟩

/-- Two requests for main: both lookups come before both insertions. -/
theorem method_is_rewritten_twice :
    ¬Always (JitState.step fun _ : Bool =>
        (5, ⟨0, ⟨0x06000001, 2, [65, 0], 2, [66, 0], rfl, rfl⟩⟩))
      InstrumentedOnce (JitState.init (.init false true) (some ⟨0x06000001, 1, [65], 1, [66], rfl, rfl⟩))
      [.request false, .request true, .request false, .request true, .request false,
        .request true] := by
  intro h
  have hlast := ((((((h.2 _ rfl).2 _ rfl).2 _ rfl).2 _ rfl).2 _ rfl).2 _ rfl)
  exact absurd hlast.1 (by decide)

end TestExecutor
