import TestExecutor.Profiler.ExceptionBalance

/-!
# Rounds of collection

`api.cpp`: threads are mapped to ids by `SetCurrentThreadId`, run their main methods or not, and
`GetHistory` collects the reports and clears the profiler for the next round.  Main-only mode; an
invocation ends by a return or by an exception out of main.

* `setCurrentThreadId`, `getHistory`, `collected` — the calls, and the reports of a collection;
* `RoundOp`, `Ledger` — the steps of a session, and what they say about every thread and id;
* `RoundReported`, `EveryRoundReported` — every id that was mapped in a round is reported in it;
* `KeptFresh`, `EveryRoundFresh` — an id without a finished invocation is still mapped when the
  history is collected, and was reported in no earlier round;
* `everyRoundReported_iff`.
-/

namespace TestExecutor

open TestExecutor.Library ProfilerState

/-! ### The calls -/

namespace ProfilerState

def setCurrentThreadId (s : ProfilerState) (thread : ThreadID) (mapId : Int32) : ProfilerState :=
  s.mapCurrentThread thread mapId

/-- `GetHistory`: the bytes, and the state behind it. -/
def getHistory (s : ProfilerState) : List UInt8 × ProfilerState :=
  let (bytes, s) := s.serializeCoverageReport
  (bytes, s.clearCoverage.clearThreads)

/-- The thread reports of a collection. -/
def collected (s : ProfilerState) : List (List UInt8) :=
  (addNotEntered s.getMapping s).serializedCoverage

theorem getHistory_bytes (s : ProfilerState) : s.getHistory.1
    = serializeMethods s.methodsToSerialize ++ serializeBuffers s.collected := rfl

/-- The mapped threads without a report get an empty one. -/
theorem mem_addNotEntered (mapping : List (ThreadID × Int32)) : ∀ {s : ProfilerState}
    {buffer : List UInt8}, buffer ∈ (addNotEntered mapping s).serializedCoverage
      ↔ buffer ∈ s.serializedCoverage ∨ ∃ id ∈ mapping.map Prod.snd,
        id ∉ s.serializedCoverageThreadIds ∧ buffer = reportBuffer id none := by
  induction mapping with
  | nil => intro s buffer; simp [addNotEntered]
  | cons entry rest ih =>
      intro s buffer
      rw [addNotEntered, List.map_cons]
      by_cases hmem : entry.2 ∈ s.serializedCoverageThreadIds
      · rw [if_pos hmem, ih]
        simp only [List.exists_mem_cons_iff, hmem, not_true_eq_false, false_and, false_or]
      · rw [if_neg hmem, ih, List.exists_mem_cons_iff]
        constructor
        · rintro (hmem' | ⟨id, hid, hnot, rfl⟩)
          · rcases List.mem_append.mp hmem' with hold | hnew
            · exact Or.inl hold
            · exact Or.inr (Or.inl ⟨hmem, List.mem_singleton.mp hnew⟩)
          · exact Or.inr (Or.inr ⟨id, hid, fun h => hnot (List.mem_append_left _ h), rfl⟩)
        · rintro (hold | ⟨-, rfl⟩ | ⟨id, hid, hnot, rfl⟩)
          · exact Or.inl (List.mem_append_left _ hold)
          · exact Or.inl (List.mem_append_right _ (List.mem_singleton.mpr rfl))
          · by_cases heq : id = entry.2
            · rw [heq]
              exact Or.inl (List.mem_append_right _ (List.mem_singleton.mpr rfl))
            · refine Or.inr ⟨id, hid, ?_, rfl⟩
              intro h
              rcases List.mem_append.mp h with h | h
              · exact hnot h
              · exact heq (List.mem_singleton.mp h)

/-- Every mapped id counts as reported behind a collection. -/
theorem mem_addNotEntered_ids (mapping : List (ThreadID × Int32)) : ∀ {s : ProfilerState}
    {id : Int32}, id ∈ (addNotEntered mapping s).serializedCoverageThreadIds
      ↔ id ∈ s.serializedCoverageThreadIds ∨ id ∈ mapping.map Prod.snd := by
  induction mapping with
  | nil => intro s id; simp [addNotEntered]
  | cons entry rest ih =>
      intro s id
      rw [addNotEntered, List.map_cons, List.mem_cons]
      split
      · rename_i hmem
        rw [ih]
        constructor
        · exact Or.imp_right Or.inr
        · rintro (h | rfl | h)
          · exact Or.inl h
          · exact Or.inl hmem
          · exact Or.inr h
      · rw [ih, List.mem_append, List.mem_singleton, or_assoc]

end ProfilerState

/-! ### Sessions -/

/-- A step of a session. -/
inductive RoundOp where
  | setCurrentThreadId (thread : ThreadID) (mapId : Int32)
  | enterMain (thread : ThreadID) (offset : UInt32) (methodId : Int32)
  -- the other probes of a main method
  | record (thread : ThreadID) (event : CoverageEvent) (offset : UInt32) (methodId : Int32)
  | leaveMain (thread : ThreadID) (offset : UInt32) (methodId : Int32)
  -- an exception removes the frame of main
  | unwindMain (thread : ThreadID)
  | getHistory

def RoundOp.run (s : ProfilerState) : RoundOp → Except Fault ProfilerState
  | .setCurrentThreadId thread mapId => .ok (s.setCurrentThreadId thread mapId)
  | .enterMain thread offset methodId => s.trackEnterMain thread offset methodId
  | .record thread event offset methodId => s.trackPlain thread offset methodId event
  | .leaveMain thread offset methodId => s.trackLeaveMain thread offset methodId
  | .unwindMain thread =>
      (s.exceptionUnwindFunctionEnter thread s.mainFunctionId).exceptionUnwindFunctionLeave thread
  | .getHistory => .ok s.getHistory.2

/-- What the steps of a session say: the id a thread is mapped to, the live main frames and the
records of its invocation, the ids that were mapped in this round, the invocations that finished in
it, with their ids, and the ids that earlier rounds reported. -/
structure Ledger where
  mapped : ThreadID → Option Int32
  running : ThreadID → Option (ℕ × List CoverageRecord)
  ids : List Int32
  finished : List (Int32 × List CoverageRecord)
  reported : Int32 → Prop

namespace Ledger

def empty : Ledger := ⟨fun _ => none, fun _ => none, [], [], fun _ => False⟩

/-- A main frame is left; the last one ends the invocation, and the mapping of the thread goes with
it except in a passive run. -/
def leave (passive : Bool) (ledger : Ledger) (thread : ThreadID) (live : ℕ)
    (records : List CoverageRecord) : Ledger :=
  if live = 1 then
    { ledger with
      mapped := if passive then ledger.mapped else Function.update ledger.mapped thread none
      running := Function.update ledger.running thread none
      finished := ledger.finished ++ [((ledger.mapped thread).getD 0, records)] }
  else { ledger with running := Function.update ledger.running thread (some (live - 1, records)) }

def step (passive : Bool) (ledger : Ledger) : RoundOp → Ledger
  | .setCurrentThreadId thread mapId =>
      { ledger with
        mapped := Function.update ledger.mapped thread (some mapId)
        ids := ledger.ids ++ [mapId] }
  | .enterMain thread offset methodId =>
      match ledger.running thread with
      | none => { ledger with
          running := Function.update ledger.running thread
            (some (1, [⟨offset, .enterMain, thread, methodId⟩])) }
      | some (live, records) => { ledger with
          running := Function.update ledger.running thread (some (live + 1, records)) }
  | .record thread event offset methodId =>
      match ledger.running thread with
      | none => ledger
      | some (live, records) => { ledger with
          running := Function.update ledger.running thread
            (some (live, records ++ [⟨offset, event, thread, methodId⟩])) }
  | .leaveMain thread offset methodId =>
      match ledger.running thread with
      | none => ledger
      | some (live, records) =>
          ledger.leave passive thread live (records ++ [⟨offset, .leaveMain, thread, methodId⟩])
  | .unwindMain thread =>
      match ledger.running thread with
      | none => ledger
      | some (live, records) => ledger.leave passive thread live records
  | .getHistory =>
      { empty with
        reported := fun id => ledger.reported id ∨ (∃ records, (id, records) ∈ ledger.finished)
          ∨ ∃ thread, ledger.mapped thread = some id }

end Ledger

/-- What a collection should hold for every id that was mapped in the round: the reports of the
invocations that finished under it, or an empty one if there is none. -/
def RoundReported (ledger : Ledger) (s : ProfilerState) : Prop :=
  ∀ id ∈ ledger.ids,
    (∀ records, (id, records) ∈ ledger.finished →
      reportBuffer id (some ⟨records, ∅⟩) ∈ s.collected)
    ∧ ((∀ records, (id, records) ∉ ledger.finished) → reportBuffer id none ∈ s.collected)

def EveryRoundReported (passive : Bool) : Ledger → ProfilerState → List RoundOp → Prop
  | _, _, [] => True
  | ledger, s, op :: ops => ∃ s', op.run s = .ok s' ∧ (op = .getHistory → RoundReported ledger s)
      ∧ EveryRoundReported passive (ledger.step passive op) s' ops

/-- Every id that was mapped in the round, and under which no invocation finished, is still the
mapping of a thread and was reported in no earlier round. -/
def KeptFresh (ledger : Ledger) : Prop :=
  ∀ id ∈ ledger.ids, (∀ records, (id, records) ∉ ledger.finished) →
    (∃ thread, ledger.mapped thread = some id) ∧ ¬ledger.reported id

def EveryRoundFresh (passive : Bool) : Ledger → List RoundOp → Prop
  | _, [] => True
  | ledger, op :: ops => (op = .getHistory → KeptFresh ledger)
      ∧ EveryRoundFresh passive (ledger.step passive op) ops

/-! ### Reports are told apart by their ids -/

theorem serializeInt_injective : Function.Injective serializeInt := by
  intro x y h
  have hx : x.toBitVec.toNat < 256 ^ 4 := x.toBitVec.isLt
  have hy : y.toBitVec.toNat < 256 ^ 4 := y.toBitVec.isLt
  have hnat := congrArg leNat h
  rw [serializeInt, serializeInt, leNat_leBytes, leNat_leBytes, Nat.mod_eq_of_lt hx,
    Nat.mod_eq_of_lt hy] at hnat
  exact Int32.toBitVec_inj.mp (BitVec.eq_of_toNat_eq hnat)

theorem reportBuffer_none_injective {x y : Int32} (h : reportBuffer x none = reportBuffer y none) :
    x = y := serializeInt_injective (List.append_cancel_right h)

/-- The report of an invocation is not an empty one. -/
theorem reportBuffer_some_ne {x y : Int32} {history : CoverageHistory} :
    reportBuffer x (some history) ≠ reportBuffer y none := by
  intro h
  have hflag := List.append_inj_right h (by simp [serializeInt, leBytes_length])
  have hhead := congrArg (List.take 4) hflag
  rw [List.take_left' (by simp [serializeInt, leBytes_length])] at hhead
  exact absurd hhead (by decide)

/-! ### One step -/

/-- The state is the one the ledger says. -/
structure Keeps (passive : Bool) (ledger : Ledger) (s : ProfilerState) : Prop where
  mapping_eq : ∀ t, s.threadIdMapping.lookup t = ledger.mapped t
  outside : ∀ t, ledger.running t = none → Untracked s t
  inside : ∀ {t live records}, ledger.running t = some (live, records) → live ≠ 0
    ∧ ∃ visited, Tracked s t live 0 ⟨records, visited⟩
  reports_eq : s.serializedCoverage
    = ledger.finished.map fun run => reportBuffer run.1 (some ⟨run.2, ∅⟩)
  ids_iff : ∀ id, id ∈ s.serializedCoverageThreadIds
    ↔ ledger.reported id ∨ ∃ records, (id, records) ∈ ledger.finished
  passive_eq : s.isPassiveRun = passive
  unfinished : s.isFinished = false
  mainOnly : s.collectMainOnly = true
  main_ne : s.mainFunctionId ≠ 0

variable {passive : Bool} {ledger : Ledger} {s s' : ProfilerState} {thread : ThreadID}

/-- What the profiler keeps apart from the maps of the threads. -/
structure SameReports (s s' : ProfilerState) : Prop where
  reports_eq : s'.serializedCoverage = s.serializedCoverage
  ids_eq : s'.serializedCoverageThreadIds = s.serializedCoverageThreadIds
  passive_eq : s'.isPassiveRun = s.isPassiveRun
  finished_eq : s'.isFinished = s.isFinished
  mainOnly_eq : s'.collectMainOnly = s.collectMainOnly
  main_eq : s'.mainFunctionId = s.mainFunctionId

/-- A step of a thread that neither reports nor maps: only its own invocation goes on. -/
theorem Keeps.go_on (h : Keeps passive ledger s) {live : ℕ} {records : List CoverageRecord}
    {visited : Finset Int32} (hothers : SameOthers s s' thread) (hsame : SameReports s s')
    (hmap : s'.threadIdMapping = s.threadIdMapping) (hlive : live ≠ 0)
    (htracked : Tracked s' thread live 0 ⟨records, visited⟩) :
    Keeps passive
      { ledger with running := Function.update ledger.running thread (some (live, records)) } s' where
  mapping_eq := fun t => by rw [hmap, h.mapping_eq]
  outside := by
    intro t ht
    by_cases heq : t = thread
    · subst heq
      simp at ht
    · simp only [Function.update_of_ne heq] at ht
      exact hothers.untracked heq (h.outside t ht)
  inside := by
    intro t live' records' ht
    by_cases heq : t = thread
    · subst heq
      simp only [Function.update_self] at ht
      obtain ⟨rfl, rfl⟩ := Prod.mk.inj (Option.some.inj ht)
      exact ⟨hlive, visited, htracked⟩
    · simp only [Function.update_of_ne heq] at ht
      obtain ⟨hne, visited', htr⟩ := h.inside ht
      exact ⟨hne, visited', hothers.tracked heq htr⟩
  reports_eq := hsame.reports_eq.trans h.reports_eq
  ids_iff := fun id => by rw [hsame.ids_eq, h.ids_iff]
  passive_eq := hsame.passive_eq.trans h.passive_eq
  unfinished := hsame.finished_eq.trans h.unfinished
  mainOnly := hsame.mainOnly_eq.trans h.mainOnly
  main_ne := by rw [hsame.main_eq]; exact h.main_ne

/-- A step that ends the invocation of its thread. -/
theorem Keeps.finish (h : Keeps passive ledger s) {records : List CoverageRecord}
    {visited : Finset Int32} (hothers : SameOthers s s' thread) (hsame : SameReports s s')
    (hmap : s'.threadIdMapping = s.threadIdMapping) :
    Keeps passive (ledger.leave passive thread 1 records)
      (s'.finished thread ⟨records, visited⟩) := by
  have hid : s'.mappedId thread = (ledger.mapped thread).getD 0 := by
    rw [mappedId, hasMapping, ThreadStorage.exist, ThreadStorage.load, hmap, h.mapping_eq]
    cases ledger.mapped thread <;> rfl
  have hmode : s'.isPassiveRun = passive := hsame.passive_eq.trans h.passive_eq
  have hgone := finished_untracked s' thread ⟨records, visited⟩
  rw [Ledger.leave, if_pos rfl]
  refine ⟨?_, ?_, ?_, ?_, ?_, hmode, hsame.finished_eq.trans h.unfinished,
    hsame.mainOnly_eq.trans h.mainOnly, ?_⟩
  · intro t
    show OrderedMap.lookup (if s'.isPassiveRun then s'.threadIdMapping
      else s'.threadIdMapping.erase thread) t = (if passive then ledger.mapped
        else Function.update ledger.mapped thread none) t
    rw [hmode, hmap]
    cases passive with
    | true => exact h.mapping_eq t
    | false =>
        rw [if_neg Bool.false_ne_true, if_neg Bool.false_ne_true, OrderedMap.lookup_erase,
          Function.update_apply, h.mapping_eq]
  · intro t ht
    by_cases heq : t = thread
    · rw [heq]
      exact hgone
    · simp only [Function.update_of_ne heq] at ht
      have hun := hothers.untracked heq (h.outside t ht)
      exact ⟨(OrderedMap.lookup_erase_of_ne _ heq).trans hun.balance_eq,
        (OrderedMap.lookup_erase_of_ne _ heq).trans hun.filters_eq,
        (OrderedMap.lookup_erase_of_ne _ heq).trans hun.history_eq⟩
  · intro t live records' ht
    by_cases heq : t = thread
    · subst heq
      simp at ht
    · simp only [Function.update_of_ne heq] at ht
      obtain ⟨hne, visited', htr⟩ := h.inside ht
      have htr' := hothers.tracked heq htr
      exact ⟨hne, visited', (OrderedMap.lookup_erase_of_ne _ heq).trans htr'.balance_eq,
        (OrderedMap.lookup_erase_of_ne _ heq).trans htr'.filters_eq,
        (OrderedMap.lookup_erase_of_ne _ heq).trans htr'.history_eq⟩
  · show s'.serializedCoverage ++ [reportBuffer (s'.mappedId thread) (some ⟨records, visited⟩)] = _
    rw [hsame.reports_eq, h.reports_eq, List.map_append, hid]
    rfl
  · intro id
    show id ∈ s'.serializedCoverageThreadIds ++ [s'.mappedId thread] ↔ _
    rw [List.mem_append, hsame.ids_eq, h.ids_iff, List.mem_singleton, hid]
    simp only [List.mem_append, List.mem_singleton, Prod.mk.injEq, exists_or, exists_and_left,
      exists_eq, and_true, or_assoc]
  · show s'.mainFunctionId ≠ 0
    rw [hsame.main_eq]
    exact h.main_ne

theorem Keeps.setCurrentThreadId (h : Keeps passive ledger s) (thread : ThreadID)
    (mapId : Int32) : Keeps passive (ledger.step passive (.setCurrentThreadId thread mapId))
      (s.setCurrentThreadId thread mapId) := by
  have hs : ∃ asserts, s.setCurrentThreadId thread mapId = { s with
      threadIdMapping := s.threadIdMapping.insert thread mapId, failedAsserts := asserts } := by
    unfold ProfilerState.setCurrentThreadId mapCurrentThread profilerAssert
    split
    · exact ⟨_, rfl⟩
    · exact ⟨_, rfl⟩
  obtain ⟨asserts, hs⟩ := hs
  rw [hs]
  refine ⟨?_, ?_, ?_, h.reports_eq, h.ids_iff, h.passive_eq, h.unfinished, h.mainOnly, h.main_ne⟩
  · intro t
    show (s.threadIdMapping.insert thread mapId).lookup t
      = Function.update ledger.mapped thread (some mapId) t
    rw [OrderedMap.lookup_insert, Function.update_apply, h.mapping_eq]
  · intro t ht
    obtain ⟨hbalance, hfilters, hhistory⟩ := h.outside t ht
    exact ⟨hbalance, hfilters, hhistory⟩
  · intro t live records ht
    obtain ⟨hne, visited, htr⟩ := h.inside ht
    exact ⟨hne, visited, htr.balance_eq, htr.filters_eq, htr.history_eq⟩

theorem Keeps.enterMain (h : Keeps passive ledger s) (thread : ThreadID) (offset : UInt32)
    (methodId : Int32) : ∃ s', s.trackEnterMain thread offset methodId = .ok s'
      ∧ Keeps passive (ledger.step passive (.enterMain thread offset methodId)) s' := by
  cases hrun : ledger.running thread with
  | none =>
      refine ⟨_, trackEnterMain_untracked (h.outside thread hrun), ?_⟩
      rw [Ledger.step, hrun]
      refine h.go_on ?_ ⟨rfl, rfl, rfl, rfl, rfl, rfl⟩ rfl Nat.one_ne_zero
        ⟨OrderedMap.lookup_insert_self _ _ _, OrderedMap.lookup_insert_self _ _ _,
          OrderedMap.lookup_insert_self _ _ _⟩
      constructor <;> intro t ht <;> simp [ht]
  | some run =>
      obtain ⟨live, records⟩ := run
      obtain ⟨hne, visited, htr⟩ := h.inside hrun
      refine ⟨_, trackEnterMain_tracked htr, ?_⟩
      rw [Ledger.step, hrun]
      refine h.go_on ?_ ⟨rfl, rfl, rfl, rfl, rfl, rfl⟩ rfl (Nat.succ_ne_zero live)
        (htr.setBalance _)
      constructor <;> intro t ht <;> simp [ht]

theorem Keeps.record (h : Keeps passive ledger s) (thread : ThreadID) (event : CoverageEvent)
    (offset : UInt32) (methodId : Int32) :
    ∃ s', s.trackPlain thread offset methodId event = .ok s'
      ∧ Keeps passive (ledger.step passive (.record thread event offset methodId)) s' := by
  cases hrun : ledger.running thread with
  | none =>
      refine ⟨_, trackPlain_untracked (h.outside thread hrun) event, ?_⟩
      rw [Ledger.step, hrun]
      exact h
  | some run =>
      obtain ⟨live, records⟩ := run
      obtain ⟨hne, visited, htr⟩ := h.inside hrun
      refine ⟨_, trackPlain_tracked htr event, ?_⟩
      rw [Ledger.step, hrun]
      refine h.go_on ?_ ⟨rfl, rfl, rfl, rfl, rfl, rfl⟩ rfl hne (htr.addCoverage _ _ _)
      constructor <;> intro t ht <;> simp [ht]

theorem Keeps.leaveMain (h : Keeps passive ledger s) (thread : ThreadID) (offset : UInt32)
    (methodId : Int32) : ∃ s', s.trackLeaveMain thread offset methodId = .ok s'
      ∧ Keeps passive (ledger.step passive (.leaveMain thread offset methodId)) s' := by
  cases hrun : ledger.running thread with
  | none =>
      have hnone : Probe.leaveMain.run s thread offset methodId = .ok s :=
        Probe.run_untracked (h.outside thread hrun) (by decide)
      refine ⟨s, hnone, ?_⟩
      rw [Ledger.step, hrun]
      exact h
  | some run =>
      obtain ⟨live, records⟩ := run
      obtain ⟨hne, visited, htr⟩ := h.inside hrun
      refine ⟨_, trackLeaveMain_tracked htr (by omega) (fun _ => rfl), ?_⟩
      rw [Ledger.step, hrun]
      by_cases hone : live = 1
      · subst hone
        rw [if_pos Nat.cast_one]
        refine h.finish ?_ ⟨rfl, rfl, rfl, rfl, rfl, rfl⟩ rfl
        constructor <;> intro t ht <;> simp [leftMain, ht]
      · rw [if_neg (by omega)]
        dsimp only
        rw [Ledger.leave, if_neg hone]
        have hleft := htr.leftMain (live - 1 : ℤ)
          (CoverageHistory.addCoverage ⟨records, visited⟩ thread offset .leaveMain methodId)
        rw [← Int.natCast_pred_of_pos (by omega)] at hleft ⊢
        refine h.go_on ?_ ⟨rfl, rfl, rfl, rfl, rfl, rfl⟩ rfl (by omega) hleft
        constructor <;> intro t ht <;> simp [leftMain, ht]

theorem Keeps.unwindMain (h : Keeps passive ledger s) (thread : ThreadID) :
    ∃ s', (RoundOp.unwindMain thread).run s = .ok s'
      ∧ Keeps passive (ledger.step passive (.unwindMain thread)) s' := by
  cases hrun : ledger.running thread with
  | none =>
      obtain ⟨henter, hleave, -⟩ := callbacks_untracked (h.outside thread hrun) s.mainFunctionId
      refine ⟨s, ?_, ?_⟩
      · rw [RoundOp.run, henter, hleave]
      · rw [Ledger.step, hrun]
        exact h
  | some run =>
      obtain ⟨live, records⟩ := run
      obtain ⟨hne, visited, htr⟩ := h.inside hrun
      have henter : s.exceptionUnwindFunctionEnter thread s.mainFunctionId = { s with
          unwindFunctionIds := s.unwindFunctionIds.insert thread s.mainFunctionId } := by
        rw [exceptionUnwindFunctionEnter, if_pos htr.isCurrentThreadTracked,
          unwindFunctionEnter_tracked htr h.main_ne]
      have htr' : Tracked { s with
          unwindFunctionIds := s.unwindFunctionIds.insert thread s.mainFunctionId } thread live 0
          ⟨records, visited⟩ := ⟨htr.balance_eq, htr.filters_eq, htr.history_eq⟩
      have hleave := unwindFunctionLeave_main htr' (OrderedMap.lookup_insert_self _ _ _)
        (by omega) le_rfl (fun _ => rfl)
      rw [RoundOp.run, henter, exceptionUnwindFunctionLeave, if_neg (by
        rw [htr'.isCurrentThreadTracked]
        simp [h.unfinished]), hleave]
      refine ⟨_, rfl, ?_⟩
      rw [Ledger.step, hrun]
      dsimp only
      by_cases hone : live = 1
      · subst hone
        rw [if_pos Nat.cast_one]
        refine h.finish ?_ ⟨rfl, rfl, rfl, rfl, rfl, rfl⟩ rfl
        constructor <;> intro t ht <;> simp [ht]
      · rw [if_neg (by omega), Ledger.leave, if_neg hone]
        rw [← Int.natCast_pred_of_pos (by omega)]
        refine h.go_on ?_ ⟨rfl, rfl, rfl, rfl, rfl, rfl⟩ rfl (by omega)
          ⟨OrderedMap.lookup_insert_self _ _ _, htr.filters_eq, htr.history_eq⟩
        constructor <;> intro t ht <;> simp [ht]

theorem Keeps.mem_mapping (h : Keeps passive ledger s) {id : Int32} :
    id ∈ s.getMapping.map Prod.snd ↔ ∃ t, ledger.mapped t = some id := by
  rw [List.mem_map]
  constructor
  · rintro ⟨⟨t, id⟩, hmem, rfl⟩
    exact ⟨t, by rw [← h.mapping_eq]; exact (OrderedMap.mem_entries_iff _ _ _).mp hmem⟩
  · rintro ⟨t, ht⟩
    rw [← h.mapping_eq] at ht
    exact ⟨(t, id), (OrderedMap.mem_entries_iff _ _ _).mpr ht, rfl⟩

/-- Behind a collection every thread is outside its invocation and unmapped; the reported ids stay. -/
theorem Keeps.getHistory (h : Keeps passive ledger s) :
    Keeps passive (ledger.step passive .getHistory) s.getHistory.2 := by
  obtain ⟨ids, reports, heq⟩ := addNotEntered_eq s.getMapping s
  have hids : ∀ id, id ∈ ids ↔ (ledger.reported id ∨ ∃ records, (id, records) ∈ ledger.finished)
      ∨ ∃ thread, ledger.mapped thread = some id := by
    intro id
    rw [← h.mem_mapping, ← h.ids_iff, ← mem_addNotEntered_ids, heq]
  have hs : s.getHistory.2 = { s with
      serializedCoverageThreadIds := ids
      serializedCoverage := []
      trackedCoverage := OrderedMap.empty
      threadIdMapping := OrderedMap.empty
      stackBalances := OrderedMap.empty
      unwindFunctionIds := OrderedMap.empty
      inFilterMapping := OrderedMap.empty } := by
    simp only [ProfilerState.getHistory, serializeCoverageReport, heq, clearCoverage, clearThreads]
  rw [hs]
  refine ⟨fun _ => rfl, fun t _ => ⟨rfl, rfl, rfl⟩, ?_, rfl, ?_, h.passive_eq, h.unfinished,
    h.mainOnly, h.main_ne⟩
  · intro t live records ht
    cases ht
  · intro id
    show id ∈ ids ↔ (ledger.reported id ∨ (∃ records, (id, records) ∈ ledger.finished)
        ∨ ∃ thread, ledger.mapped thread = some id) ∨ ∃ records, (id, records) ∈ []
    rw [hids]
    simp only [List.not_mem_nil, exists_false, or_false, or_assoc]

/-- Every step of a session runs, and the state behind it is the one the ledger says. -/
theorem RoundOp.run_keeps (h : Keeps passive ledger s) (op : RoundOp) :
    ∃ s', op.run s = .ok s' ∧ Keeps passive (ledger.step passive op) s' := by
  cases op with
  | setCurrentThreadId thread mapId => exact ⟨_, rfl, h.setCurrentThreadId thread mapId⟩
  | enterMain thread offset methodId => exact h.enterMain thread offset methodId
  | record thread event offset methodId => exact h.record thread event offset methodId
  | leaveMain thread offset methodId => exact h.leaveMain thread offset methodId
  | unwindMain thread => exact h.unwindMain thread
  | getHistory => exact ⟨_, rfl, h.getHistory⟩

/-! ### Whole sessions -/

/-- A collection holds an empty report of exactly the ids that are mapped and not yet reported. -/
theorem Keeps.empty_collected (h : Keeps passive ledger s) {id : Int32} :
    reportBuffer id none ∈ s.collected ↔ (∃ thread, ledger.mapped thread = some id)
      ∧ ¬ledger.reported id ∧ ∀ records, (id, records) ∉ ledger.finished := by
  rw [collected, mem_addNotEntered]
  constructor
  · rintro (hmem | ⟨id', hmapped, hnew, heq⟩)
    · rw [h.reports_eq] at hmem
      obtain ⟨run, -, heq⟩ := List.mem_map.mp hmem
      exact absurd heq reportBuffer_some_ne
    · obtain rfl := reportBuffer_none_injective heq
      rw [h.ids_iff, not_or, not_exists] at hnew
      exact ⟨h.mem_mapping.mp hmapped, hnew.1, hnew.2⟩
  · rintro ⟨hmapped, hreported, hfinished⟩
    refine Or.inr ⟨id, h.mem_mapping.mpr hmapped, ?_, rfl⟩
    rw [h.ids_iff, not_or, not_exists]
    exact ⟨hreported, hfinished⟩

theorem Keeps.roundReported_iff (h : Keeps passive ledger s) :
    RoundReported ledger s ↔ KeptFresh ledger := by
  constructor
  · intro hround id hid hnone
    obtain ⟨hmapped, hreported, -⟩ := h.empty_collected.mp ((hround id hid).2 hnone)
    exact ⟨hmapped, hreported⟩
  · intro hfresh id hid
    constructor
    · intro records hmem
      rw [collected, mem_addNotEntered, h.reports_eq]
      exact Or.inl (List.mem_map.mpr ⟨_, hmem, rfl⟩)
    · intro hnone
      obtain ⟨hmapped, hreported⟩ := hfresh id hid hnone
      exact h.empty_collected.mpr ⟨hmapped, hreported, hnone⟩

theorem everyRoundReported_of_keeps (ops : List RoundOp) : ∀ {ledger : Ledger}
    {s : ProfilerState}, Keeps passive ledger s →
      (EveryRoundReported passive ledger s ops ↔ EveryRoundFresh passive ledger ops) := by
  induction ops with
  | nil => intro ledger s _; exact Iff.rfl
  | cons op ops ih =>
      intro ledger s h
      obtain ⟨s', hrun, hs'⟩ := op.run_keeps h
      constructor
      · rintro ⟨s'', hrun', hround, hrest⟩
        obtain rfl : s' = s'' := Except.ok.inj (hrun.symm.trans hrun')
        exact ⟨fun hop => h.roundReported_iff.mp (hround hop), (ih hs').mp hrest⟩
      · rintro ⟨hfresh, hrest⟩
        exact ⟨s', hrun, fun hop => h.roundReported_iff.mpr (hfresh hop), (ih hs').mpr hrest⟩

/-- The profiler in the beginning of a session, with the id of main. -/
def sessionStart (passive : Bool) (main : FunctionID) : ProfilerState :=
  { ProfilerState.init passive true with mainFunctionId := main }

theorem sessionStart_keeps (passive : Bool) {main : FunctionID} (hmain : main ≠ 0) :
    Keeps passive .empty (sessionStart passive main) where
  mapping_eq := fun _ => rfl
  outside := fun _ _ => ⟨rfl, rfl, rfl⟩
  inside := by
    intro t live records h
    cases h
  reports_eq := rfl
  ids_iff := by simp [sessionStart, ProfilerState.init, Ledger.empty]
  passive_eq := rfl
  unfinished := rfl
  mainOnly := rfl
  main_ne := hmain

/-- **When every round reports every mapped id.**  In every session, every collection holds a
report of every id that was mapped since the last one exactly when each of these ids under which
no invocation finished is still the mapping of a thread, and was reported in no earlier round: the
list of the reported ids is never cleared. -/
theorem everyRoundReported_iff (passive : Bool) (main : FunctionID) (hmain : main ≠ 0)
    (ops : List RoundOp) :
    EveryRoundReported passive .empty (sessionStart passive main) ops
      ↔ EveryRoundFresh passive .empty ops :=
  everyRoundReported_of_keeps ops (sessionStart_keeps passive hmain)

/-- Two rounds in which the same thread runs main under different ids. -/
theorem everyRoundReported_iff_two :
    EveryRoundReported false .empty (sessionStart false 7)
        [.setCurrentThreadId 1 0, .enterMain 1 0 0, .leaveMain 1 4 0, .getHistory,
          .setCurrentThreadId 1 1, .getHistory]
      ↔ EveryRoundFresh false .empty
        [.setCurrentThreadId 1 0, .enterMain 1 0 0, .leaveMain 1 4 0, .getHistory,
          .setCurrentThreadId 1 1, .getHistory] :=
  everyRoundReported_iff false 7 (by decide) _

/-- A thread that is mapped to the same id in two rounds, and never enters main: the second
collection holds no report of it. -/
theorem second_round_is_not_reported :
    ¬EveryRoundReported false .empty (sessionStart false 7)
      [.setCurrentThreadId 1 0, .getHistory, .setCurrentThreadId 1 0, .getHistory] := by
  intro h
  have hfresh := (everyRoundReported_of_keeps _ (sessionStart_keeps false (by decide))).mp h
  have hkept := hfresh.2.2.2.1 rfl 0 (List.mem_singleton.mpr rfl) (fun _ => List.not_mem_nil)
  exact hkept.2 (Or.inr (Or.inr ⟨1, rfl⟩))

end TestExecutor
