import TestExecutor.Profiler.FrameBalance

/-!
# Probe calls of several threads

Main-only mode, without tail calls: any interleaving of the probe calls of any number of threads.
The state is spread over maps that all threads share, and each call touches the entries of its own
thread only.

* `ownCalls`, `framesBehind`, `Inside` — the calls of a thread, and where they leave it;
* `invocationRecords`, `mappedBehind` — what its report holds, and under which id;
* `Shows` — the state is the one for the own calls of a thread; `ProbeEvent.run_shows` — one call
  keeps that for every thread;
* `threads_do_not_mix` — the reports of every interleaving.
-/

namespace TestExecutor

open TestExecutor.Library ProfilerState

/-! ### Own calls -/

def runCalls (s : ProfilerState) (calls : List (ThreadID × ProbeEvent)) :
    Except Fault ProfilerState := calls.foldlM (fun s call => call.2.run s call.1) s

def ownCalls (thread : ThreadID) (calls : List (ThreadID × ProbeEvent)) : List ProbeEvent :=
  (calls.filter fun call => call.1 = thread).map Prod.snd

/-- The main frames behind a call; the other probes are not called. -/
def mainFrames (live : ℕ) : Probe → Option ℕ
  | .enterMain => some (live + 1)
  | .leaveMain => if live = 0 then none else some (live - 1)
  | .tailcall | .enter | .leave => none
  | .coverage | .branch | .call | .stsfld | .throw => some live

/-- The main frames behind a list of calls; `none` if they are not well bracketed. -/
def framesBehind (live : ℕ) (calls : List ProbeEvent) : Option ℕ :=
  calls.foldlM (fun live e => mainFrames live e.probe) live

/-- The calls never leave the outermost frame. -/
def framesInside (live : ℕ) (calls : List ProbeEvent) : Option ℕ :=
  calls.foldlM (fun live e => (mainFrames live e.probe).filter (· ≠ 0)) live

/-- Behind the calls the thread is inside an invocation: `enter` is its outermost `EnterMain`. -/
structure Inside (own before : List ProbeEvent) (enter : ProbeEvent) (inner : List ProbeEvent)
    (live : ℕ) : Prop where
  split : own = before ++ enter :: inner
  outside : framesBehind 0 before = some 0
  enters : enter.probe = .enterMain
  frames_eq : framesInside 1 inner = some live

/-! ### What is reported -/

/-- What a call inside an invocation records; a recursive `EnterMain` records nothing. -/
def recordedEvent : Probe → Option CoverageEvent
  | .leaveMain => some .leaveMain
  | probe => probe.plainEvent

def recordOf (thread : ThreadID) (e : ProbeEvent) : Option CoverageRecord :=
  (recordedEvent e.probe).map fun event => ⟨e.offset, event, thread, e.methodId⟩

/-- The records of an invocation: its `EnterMain`, then the calls inside it. -/
def invocationRecords (thread : ThreadID) (enter : ProbeEvent) (calls : List ProbeEvent) :
    List CoverageRecord :=
  ⟨enter.offset, .enterMain, thread, enter.methodId⟩ :: calls.filterMap (recordOf thread)

/-- The mapped id of a thread behind finished invocations: the first one takes the mapping with it,
except in a passive run. -/
def mappedBehind (s : ProfilerState) (thread : ThreadID) (own : List ProbeEvent) : Option Int32 :=
  if s.isPassiveRun = true ∨ ∀ e ∈ own, e.probe ≠ .enterMain then s.threadIdMapping.lookup thread
  else none

/-- The report of the invocation that a call ends, as a function of the own calls alone. -/
def invocationReport (s : ProfilerState) (thread : ThreadID) (before : List ProbeEvent)
    (enter : ProbeEvent) (inner : List ProbeEvent) (leave : ProbeEvent) : List UInt8 :=
  reportBuffer ((mappedBehind s thread before).getD 0)
    (some ⟨invocationRecords thread enter (inner ++ [leave]), ∅⟩)

/-! ### Frames -/

variable {own before inner : List ProbeEvent} {enter e : ProbeEvent} {live live' : ℕ}

theorem framesBehind_snoc (live : ℕ) (calls : List ProbeEvent) (e : ProbeEvent) :
    framesBehind live (calls ++ [e])
      = (framesBehind live calls).bind fun live' => mainFrames live' e.probe := by
  rw [framesBehind, List.foldlM_append]
  simp only [List.foldlM_cons, List.foldlM_nil, bind_pure]
  rfl

theorem framesInside_snoc (live : ℕ) (calls : List ProbeEvent) (e : ProbeEvent) :
    framesInside live (calls ++ [e]) = (framesInside live calls).bind fun live' =>
      (mainFrames live' e.probe).filter (· ≠ 0) := by
  rw [framesInside, List.foldlM_append]
  simp only [List.foldlM_cons, List.foldlM_nil, bind_pure]
  rfl

theorem framesInside_spec (inner : List ProbeEvent) : ∀ {start : ℕ}, start ≠ 0 →
    framesInside start inner = some live → framesBehind start inner = some live ∧ live ≠ 0 := by
  induction inner with
  | nil =>
      intro start hstart h
      obtain rfl := Option.some.inj h
      exact ⟨rfl, hstart⟩
  | cons e inner ih =>
      intro start hstart h
      obtain ⟨next, hnext, hrest⟩ := Option.bind_eq_some_iff.mp
        (show ((mainFrames start e.probe).filter (· ≠ 0)).bind _ = some live from h)
      rw [Option.filter_eq_some_iff] at hnext
      obtain ⟨hbehind, hlive⟩ := ih (by simpa using hnext.2) hrest
      refine ⟨?_, hlive⟩
      show (mainFrames start e.probe).bind _ = some live
      rw [hnext.1]
      exact hbehind

theorem Inside.frames_behind (h : Inside own before enter inner live) :
    framesBehind 0 own = some live ∧ live ≠ 0 := by
  obtain ⟨hbehind, hlive⟩ := framesInside_spec inner Nat.one_ne_zero h.frames_eq
  refine ⟨?_, hlive⟩
  rw [h.split, framesBehind, List.foldlM_append]
  change (framesBehind 0 before).bind _ = _
  rw [h.outside]
  show ((mainFrames 0 enter.probe).bind fun live => framesBehind live inner) = _
  rw [h.enters]
  exact hbehind

/-- A thread with live main frames is inside an invocation. -/
theorem exists_inside (own : List ProbeEvent) : ∀ {live : ℕ}, live ≠ 0 →
    framesBehind 0 own = some live → ∃ before enter inner, Inside own before enter inner live := by
  induction own using List.reverseRecOn with
  | nil =>
      intro live hlive h
      exact absurd (Option.some.inj h).symm hlive
  | append_singleton own e ih =>
      intro live hlive h
      rw [framesBehind_snoc] at h
      obtain ⟨prev, hprev, hstep⟩ := Option.bind_eq_some_iff.mp h
      by_cases hzero : prev = 0
      · -- the call that starts the invocation
        subst hzero
        have henter : e.probe = .enterMain := by
          cases hprobe : e.probe <;> rw [hprobe] at hstep <;> simp [mainFrames] at hstep ⊢ <;>
            exact absurd hstep.symm hlive
        rw [henter] at hstep
        exact ⟨own, e, [], rfl, hprev, henter, hstep⟩
      · obtain ⟨before, enter, inner, hinside⟩ := ih hzero hprev
        refine ⟨before, enter, inner ++ [e], ?_, hinside.outside, hinside.enters, ?_⟩
        · rw [hinside.split, List.append_assoc, List.cons_append]
        · rw [framesInside_snoc, hinside.frames_eq]
          show (mainFrames prev e.probe).filter (· ≠ 0) = some live
          rw [hstep, Option.filter_some, if_pos (by simpa using hlive)]

/-- The last call inside an invocation is its `EnterMain`, or a call behind it. -/
theorem Inside.snoc_cases (h : Inside (own ++ [e]) before enter inner live) :
    (before = own ∧ enter = e ∧ inner = [] ∧ live = 1)
      ∨ ∃ inner' prev, inner = inner' ++ [e] ∧ Inside own before enter inner' prev
        ∧ mainFrames prev e.probe = some live := by
  rcases List.eq_nil_or_concat inner with rfl | ⟨inner', last, rfl⟩
  · obtain ⟨rfl, heq⟩ := List.append_inj' h.split rfl
    exact Or.inl ⟨rfl, (List.cons.inj heq).1.symm, rfl, (Option.some.inj h.frames_eq).symm⟩
  · rw [List.concat_eq_append] at h ⊢
    have hsplit := h.split
    rw [← List.cons_append, ← List.append_assoc] at hsplit
    obtain ⟨rfl, heq⟩ := List.append_inj' hsplit rfl
    obtain rfl := (List.cons.inj heq).1
    have hframes := h.frames_eq
    rw [framesInside_snoc] at hframes
    obtain ⟨prev, hprev, hstep⟩ := Option.bind_eq_some_iff.mp hframes
    rw [Option.filter_eq_some_iff] at hstep
    exact Or.inr ⟨inner', prev, rfl, ⟨rfl, h.outside, h.enters, hprev⟩, hstep.1⟩

/-- A thread that is behind its invocation is inside none. -/
theorem not_inside (h : framesBehind 0 own = some 0) : ¬Inside own before enter inner live := by
  intro hinside
  obtain ⟨hbehind, hlive⟩ := hinside.frames_behind
  exact hlive (Option.some.inj (hbehind.symm.trans h))

theorem ownCalls_snoc (thread t : ThreadID) (calls : List (ThreadID × ProbeEvent))
    (e : ProbeEvent) : ownCalls t (calls ++ [(thread, e)])
      = if thread = t then ownCalls t calls ++ [e] else ownCalls t calls := by
  unfold ownCalls
  rw [List.filter_append]
  by_cases h : thread = t
  · simp [h]
  · simp [h]

/-! ### One call -/

namespace ProfilerState

variable {s₀ s s' : ProfilerState} {thread : ThreadID} {visited : Finset Int32}

/-- The state is the one behind the own calls of a thread. -/
structure Shows (s₀ s : ProfilerState) (thread : ThreadID) (own : List ProbeEvent) : Prop where
  passive_eq : s.isPassiveRun = s₀.isPassiveRun
  outside : framesBehind 0 own = some 0 → Untracked s thread
    ∧ s.threadIdMapping.lookup thread = mappedBehind s₀ thread own
  inside : ∀ {before enter inner live}, Inside own before enter inner live →
    (∃ visited, Tracked s thread live 0 ⟨invocationRecords thread enter inner, visited⟩)
      ∧ s.threadIdMapping.lookup thread = mappedBehind s₀ thread before

/-- The state is the one before all calls. -/
theorem Shows.init (h : Untracked s thread) : Shows s s thread [] where
  passive_eq := rfl
  outside := fun _ => ⟨h, by simp [mappedBehind]⟩
  inside := fun hinside => absurd hinside (not_inside rfl)

/-- A call of another thread keeps what a thread shows. -/
theorem Shows.of_sameOthers (h : Shows s₀ s thread own) {t : ThreadID} (ht : thread ≠ t)
    (hsame : SameOthers s s' t) (hpassive : s'.isPassiveRun = s.isPassiveRun) :
    Shows s₀ s' thread own where
  passive_eq := hpassive.trans h.passive_eq
  outside := by
    intro hout
    obtain ⟨huntracked, hmap⟩ := h.outside hout
    exact ⟨hsame.untracked ht huntracked, (hsame.mapping thread ht).trans hmap⟩
  inside := by
    intro before enter inner live hinside
    obtain ⟨⟨visited, htracked⟩, hmap⟩ := h.inside hinside
    exact ⟨⟨visited, hsame.tracked ht htracked⟩, (hsame.mapping thread ht).trans hmap⟩

/-- What one call of a thread appends to the reports, behind its earlier calls. -/
structure Reports (s₀ s s' : ProfilerState) (thread : ThreadID) (own : List ProbeEvent)
    (e : ProbeEvent) : Prop where
  closing : ∀ {before enter inner}, Inside own before enter inner 1 → e.probe = .leaveMain →
    s'.serializedCoverage
      = s.serializedCoverage ++ [invocationReport s₀ thread before enter inner e]
  staying : ¬(framesBehind 0 own = some 1 ∧ e.probe = .leaveMain) →
    s'.serializedCoverage = s.serializedCoverage

/-- What one call does: to its own thread, to the others and to the reports. -/
structure CallEffect (s₀ s s' : ProfilerState) (thread : ThreadID) (own : List ProbeEvent)
    (e : ProbeEvent) : Prop where
  shows_own : Shows s₀ s' thread (own ++ [e])
  others : SameOthers s s' thread
  passive_eq : s'.isPassiveRun = s.isPassiveRun
  reports : Reports s₀ s s' thread own e

theorem invocationRecords_snoc (thread : ThreadID) (enter e : ProbeEvent)
    (inner : List ProbeEvent) : invocationRecords thread enter (inner ++ [e])
      = invocationRecords thread enter inner ++ (recordOf thread e).toList := by
  unfold invocationRecords
  rw [List.filterMap_append, List.cons_append]
  cases h : recordOf thread e with
  | none => simp [h]
  | some record => simp [h]

theorem mappedBehind_snoc (s : ProfilerState) (thread : ThreadID) (own : List ProbeEvent)
    (he : e.probe ≠ .enterMain) :
    mappedBehind s thread (own ++ [e]) = mappedBehind s thread own := by
  unfold mappedBehind
  simp [or_imp, forall_and, he]

/-- A call outside every invocation leaves the state as it is, or starts an invocation. -/
theorem Shows.call_outside (h : Shows s₀ s thread own) (hout : framesBehind 0 own = some 0)
    (hnext : framesBehind 0 (own ++ [e]) = some live) :
    ∃ s', e.run s thread = .ok s' ∧ CallEffect s₀ s s' thread own e
      ∧ (e.probe ≠ .enterMain → s' = s) := by
  obtain ⟨huntracked, hmap⟩ := h.outside hout
  have hstep : mainFrames 0 e.probe = some live := by
    rw [framesBehind_snoc, hout] at hnext
    exact hnext
  by_cases henter : e.probe = .enterMain
  · rw [henter] at hstep
    obtain rfl : 1 = live := Option.some.inj hstep
    have hrun : e.run s thread = s.trackEnterMain thread e.offset e.methodId := by
      rw [ProbeEvent.run, henter]
      rfl
    rw [trackEnterMain_untracked huntracked] at hrun
    refine ⟨_, hrun, ⟨⟨h.passive_eq, ?_, ?_⟩, ?_, rfl, ?_, ?_⟩,
      fun hne => absurd henter hne⟩
    · intro hzero
      cases hnext.symm.trans hzero
    · intro before enter inner live hinside
      rcases hinside.snoc_cases with ⟨rfl, rfl, rfl, rfl⟩ | ⟨inner', prev, -, hinside', -⟩
      · exact ⟨⟨_, OrderedMap.lookup_insert_self _ _ _, OrderedMap.lookup_insert_self _ _ _,
          OrderedMap.lookup_insert_self _ _ _⟩, hmap⟩
      · exact absurd hinside' (not_inside hout)
    · constructor <;> intro t ht
      · rfl
      · simp [ht]
      · rfl
      · simp [ht]
      · simp [ht]
    · intro before enter inner hinside
      exact absurd hinside (not_inside hout)
    · intro _
      rfl
  · have hrun : e.run s thread = .ok s := Probe.run_untracked huntracked henter
    have hzero : live = 0 := by
      cases hprobe : e.probe <;> rw [hprobe] at hstep henter <;> simp [mainFrames] at hstep henter <;>
        exact hstep.symm
    subst hzero
    refine ⟨s, hrun, ⟨⟨h.passive_eq, fun _ => ⟨huntracked, ?_⟩,
      fun hinside => absurd hinside (not_inside hnext)⟩,
      ⟨fun _ _ => rfl, fun _ _ => rfl, fun _ _ => rfl, fun _ _ => rfl, fun _ _ => rfl⟩, rfl,
      ⟨fun hinside => absurd hinside (not_inside hout), fun _ => rfl⟩⟩, fun _ => rfl⟩
    rw [mappedBehind_snoc _ _ _ henter]
    exact hmap

/-- The thread stays inside its invocation. -/
theorem Shows.stay_inside (h : Shows s₀ s thread own) {prev : ℕ}
    (hprev : framesBehind 0 own = some prev) (hne : prev ≠ 0)
    (hstep : mainFrames prev e.probe = some live) (hlive : live ≠ 0)
    (hpassive : s'.isPassiveRun = s.isPassiveRun)
    (hmap : s'.threadIdMapping.lookup thread = s.threadIdMapping.lookup thread)
    {records : List CoverageRecord} {visited visited' : Finset Int32}
    (htr : Tracked s thread prev 0 ⟨records, visited⟩)
    (htr' : Tracked s' thread live 0 ⟨records ++ (recordOf thread e).toList, visited'⟩) :
    Shows s₀ s' thread (own ++ [e]) where
  passive_eq := hpassive.trans h.passive_eq
  outside := by
    intro hzero
    rw [framesBehind_snoc, hprev] at hzero
    exact absurd (Option.some.inj (hstep.symm.trans hzero)) hlive
  inside := by
    intro before enter inner live' hinside
    rcases hinside.snoc_cases with ⟨rfl, -⟩ | ⟨inner', prev', rfl, hinside', hstep'⟩
    · exact absurd (Option.some.inj (hprev.symm.trans hinside.outside)) hne
    · obtain rfl : prev = prev' := Option.some.inj (hprev.symm.trans hinside'.frames_behind.1)
      obtain rfl : live = live' := Option.some.inj (hstep.symm.trans hstep')
      obtain ⟨⟨visited'', hshown⟩, hmapped⟩ := h.inside hinside'
      have hhistory := Option.some.inj (Option.some.inj
        (htr.history_eq.symm.trans hshown.history_eq))
      obtain rfl : records = invocationRecords thread enter inner' :=
        congrArg CoverageHistory.records hhistory
      rw [invocationRecords_snoc]
      exact ⟨⟨visited', htr'⟩, hmap.trans hmapped⟩

/-- A call that leaves its thread inside the invocation reports nothing. -/
theorem Reports.of_staying {prev : ℕ} (hprev : framesBehind 0 own = some prev)
    (hstep : mainFrames prev e.probe = some live) (hlive : live ≠ 0)
    (hreports : s'.serializedCoverage = s.serializedCoverage) : Reports s₀ s s' thread own e where
  staying := fun _ => hreports
  closing := by
    intro before enter inner hinside hprobe
    obtain rfl : prev = 1 := Option.some.inj (hprev.symm.trans hinside.frames_behind.1)
    rw [hprobe] at hstep
    exact absurd (Option.some.inj hstep).symm hlive

/-- The last `LeaveMain` of an invocation ends it and reports it. -/
theorem Shows.call_closing (h : Shows s₀ s thread own) (hprev : framesBehind 0 own = some 1)
    (hprobe : e.probe = .leaveMain) :
    ∃ s', e.run s thread = .ok s' ∧ CallEffect s₀ s s' thread own e := by
  obtain ⟨before, enter, inner, hinside⟩ := exists_inside own Nat.one_ne_zero hprev
  obtain ⟨⟨visited, htr⟩, hmap⟩ := h.inside hinside
  have hrun : e.run s thread = s.trackLeaveMain thread e.offset e.methodId := by
    rw [ProbeEvent.run, hprobe]
    rfl
  rw [trackLeaveMain_tracked htr (le_refl 1) (fun _ => rfl), if_pos Nat.cast_one] at hrun
  have hbehind : framesBehind 0 (own ++ [e]) = some 0 := by
    rw [framesBehind_snoc, hprev, hprobe]
    rfl
  refine ⟨_, hrun, ⟨⟨h.passive_eq, fun _ => ⟨finished_untracked _ _ _, ?_⟩,
    fun hinside => absurd hinside (not_inside hbehind)⟩, ?_, rfl, ⟨?_, ?_⟩⟩⟩
  · -- the mapping of the thread goes with its invocation
    have hentered : ¬∀ e' ∈ own ++ [e], e'.probe ≠ .enterMain := by
      intro hnone
      refine hnone enter ?_ hinside.enters
      rw [hinside.split]
      simp
    have hmem : mappedBehind s₀ thread (own ++ [e])
        = if s₀.isPassiveRun = true then s₀.threadIdMapping.lookup thread else none := by
      simp only [mappedBehind, hentered, or_false]
    rw [hmem, ← h.passive_eq]
    show OrderedMap.lookup (if s.isPassiveRun then s.threadIdMapping
      else s.threadIdMapping.erase thread) thread = _
    by_cases hpassive : s.isPassiveRun = true
    · rw [if_pos hpassive, if_pos hpassive, hmap, mappedBehind, ← h.passive_eq,
        if_pos (Or.inl hpassive)]
    · rw [if_neg hpassive, if_neg hpassive, OrderedMap.lookup_erase_self]
  · constructor <;> intro t ht
    · show OrderedMap.lookup (if s.isPassiveRun then s.threadIdMapping
        else s.threadIdMapping.erase thread) t = _
      split
      · rfl
      · exact OrderedMap.lookup_erase_of_ne _ ht
    · simp [finished, leftMain, ht]
    · rfl
    · simp [finished, leftMain, ht]
    · simp [finished, leftMain, ht]
  · intro before' enter' inner' hinside' _
    obtain ⟨⟨visited', htr'⟩, hmap'⟩ := h.inside hinside'
    have hhistory := Option.some.inj (Option.some.inj
      (htr.history_eq.symm.trans htr'.history_eq))
    have hrecords : invocationRecords thread enter inner = invocationRecords thread enter' inner' :=
      congrArg CoverageHistory.records hhistory
    have hid : s.mappedId thread = (mappedBehind s₀ thread before').getD 0 := by
      rw [← hmap', mappedId, hasMapping, ThreadStorage.exist, ThreadStorage.load]
      cases s.threadIdMapping.lookup thread <;> rfl
    have hrecord : recordOf thread e = some ⟨e.offset, .leaveMain, thread, e.methodId⟩ := by
      rw [recordOf, hprobe]
      rfl
    rw [invocationReport, invocationRecords_snoc, hrecord, ← hid, ← hrecords]
    rfl
  · intro hstays
    exact absurd ⟨hprev, hprobe⟩ hstays

/-- A call inside an invocation that does not end it. -/
theorem Shows.call_staying (h : Shows s₀ s thread own) {prev : ℕ}
    (hprev : framesBehind 0 own = some prev) (hne : prev ≠ 0)
    (hstep : mainFrames prev e.probe = some live) (hlive : live ≠ 0) :
    ∃ s', e.run s thread = .ok s' ∧ CallEffect s₀ s s' thread own e := by
  obtain ⟨before, enter, inner, hinside⟩ := exists_inside own hne hprev
  obtain ⟨⟨visited, htr⟩, -⟩ := h.inside hinside
  have stays : ∀ s' visited', e.run s thread = .ok s' → SameOthers s s' thread →
      s'.isPassiveRun = s.isPassiveRun →
      s'.threadIdMapping.lookup thread = s.threadIdMapping.lookup thread →
      s'.serializedCoverage = s.serializedCoverage →
      Tracked s' thread live 0 ⟨invocationRecords thread enter inner
        ++ (recordOf thread e).toList, visited'⟩ →
      ∃ s', e.run s thread = .ok s' ∧ CallEffect s₀ s s' thread own e := by
    intro s' visited' hrun hsame hpassive hmap hreports htr'
    exact ⟨s', hrun, h.stay_inside hprev hne hstep hlive hpassive hmap htr htr', hsame, hpassive,
      .of_staying hprev hstep hlive hreports⟩
  have plain : ∀ event, e.probe.plainEvent = some event → live = prev →
      ∃ s', e.run s thread = .ok s' ∧ CallEffect s₀ s s' thread own e := by
    rintro event hevent rfl
    have hrun : e.run s thread = _ := Probe.run_plain hevent s thread e.offset e.methodId
    rw [trackPlain_tracked htr event] at hrun
    have hrecord : recordOf thread e = some ⟨e.offset, event, thread, e.methodId⟩ := by
      have hrecorded : recordedEvent e.probe = e.probe.plainEvent := by
        cases hprobe : e.probe <;> first | rfl | (rw [hprobe] at hevent; cases hevent)
      rw [recordOf, hrecorded, hevent]
      rfl
    refine stays _ (insert e.methodId visited) hrun ?_ rfl rfl rfl ?_
    · constructor <;> intro t ht <;> simp [ht]
    · rw [hrecord]
      exact htr.addCoverage e.offset e.methodId event
  cases hprobe : e.probe with
  | enterMain =>
      rw [hprobe] at hstep
      obtain rfl : prev + 1 = live := Option.some.inj hstep
      have hrun : e.run s thread = s.trackEnterMain thread e.offset e.methodId := by
        rw [ProbeEvent.run, hprobe]
        rfl
      rw [trackEnterMain_tracked htr] at hrun
      have hrecord : recordOf thread e = none := by
        rw [recordOf, hprobe]
        rfl
      refine stays _ visited hrun ?_ rfl rfl rfl ?_
      · constructor <;> intro t ht <;> simp [ht]
      · rw [hrecord, Option.toList_none, List.append_nil]
        exact htr.setBalance _
  | leaveMain =>
      rw [hprobe, mainFrames, if_neg hne] at hstep
      obtain rfl : prev - 1 = live := Option.some.inj hstep
      have hrun : e.run s thread = s.trackLeaveMain thread e.offset e.methodId := by
        rw [ProbeEvent.run, hprobe]
        rfl
      rw [trackLeaveMain_tracked htr (by omega) (fun _ => rfl), if_neg (by omega)] at hrun
      have hrecord : recordOf thread e = some ⟨e.offset, .leaveMain, thread, e.methodId⟩ := by
        rw [recordOf, hprobe]
        rfl
      refine stays _ (insert e.methodId visited) hrun ?_ rfl rfl rfl ?_
      · constructor <;> intro t ht <;> simp [leftMain, ht]
      · rw [hrecord, show ((prev - 1 : ℕ) : ℤ) = (prev : ℤ) - 1 by omega]
        exact htr.leftMain _ _
  | coverage => exact plain _ (by rw [hprobe]; rfl) (by simpa [hprobe, mainFrames] using hstep.symm)
  | branch => exact plain _ (by rw [hprobe]; rfl) (by simpa [hprobe, mainFrames] using hstep.symm)
  | call => exact plain _ (by rw [hprobe]; rfl) (by simpa [hprobe, mainFrames] using hstep.symm)
  | stsfld => exact plain _ (by rw [hprobe]; rfl) (by simpa [hprobe, mainFrames] using hstep.symm)
  | throw => exact plain _ (by rw [hprobe]; rfl) (by simpa [hprobe, mainFrames] using hstep.symm)
  | enter => simp [hprobe, mainFrames] at hstep
  | leave => simp [hprobe, mainFrames] at hstep
  | tailcall => simp [hprobe, mainFrames] at hstep

/-- One call of a well bracketed thread runs, and keeps what the thread shows. -/
theorem Shows.call (h : Shows s₀ s thread own) (hnext : (framesBehind 0 (own ++ [e])).isSome) :
    ∃ s', e.run s thread = .ok s' ∧ CallEffect s₀ s s' thread own e := by
  obtain ⟨live, hlive⟩ := Option.isSome_iff_exists.mp hnext
  have hsplit := hlive
  rw [framesBehind_snoc] at hsplit
  obtain ⟨prev, hprev, hstep⟩ := Option.bind_eq_some_iff.mp hsplit
  by_cases hout : prev = 0
  · subst hout
    obtain ⟨s', hrun, heffect, -⟩ := h.call_outside hprev hlive
    exact ⟨s', hrun, heffect⟩
  · by_cases hzero : live = 0
    · -- only a `LeaveMain` from the last frame ends the invocation
      subst hzero
      have hprobe : e.probe = .leaveMain := by
        cases hprobe : e.probe <;> rw [hprobe] at hstep <;> simp [mainFrames] at hstep ⊢ <;>
          exact absurd hstep hout
      rw [hprobe, mainFrames, if_neg hout] at hstep
      obtain rfl : prev = 1 := by
        have := Option.some.inj hstep
        omega
      exact h.call_closing hprev hprobe
    · exact h.call_staying hprev hout hstep hzero

/-! ### Whole runs -/

/-- The calls of every thread are well bracketed. -/
def WellBracketed (calls : List (ThreadID × ProbeEvent)) : Prop :=
  ∀ t, (framesBehind 0 (ownCalls t calls)).isSome

theorem WellBracketed.of_snoc {calls : List (ThreadID × ProbeEvent)} {call : ThreadID × ProbeEvent}
    (h : WellBracketed (calls ++ [call])) : WellBracketed calls
      ∧ (framesBehind 0 (ownCalls call.1 calls ++ [call.2])).isSome := by
  obtain ⟨thread, e⟩ := call
  constructor
  · intro t
    have ht := h t
    rw [ownCalls_snoc] at ht
    by_cases heq : thread = t
    · rw [if_pos heq, framesBehind_snoc] at ht
      exact Option.isSome_of_isSome_bind ht
    · rwa [if_neg heq] at ht
  · have ht := h thread
    rwa [ownCalls_snoc, if_pos rfl] at ht

/-- Every interleaving runs, and the state behind it shows the own calls of every thread. -/
theorem runCalls_shows (hs : ∀ t, Untracked s₀ t) (calls : List (ThreadID × ProbeEvent))
    (hbracketed : WellBracketed calls) :
    ∃ s, runCalls s₀ calls = .ok s ∧ ∀ t, Shows s₀ s t (ownCalls t calls) := by
  induction calls using List.reverseRecOn with
  | nil => exact ⟨s₀, rfl, fun t => Shows.init (hs t)⟩
  | append_singleton calls call ih =>
      obtain ⟨thread, e⟩ := call
      obtain ⟨hcalls, hnext⟩ := hbracketed.of_snoc
      obtain ⟨s, hrun, hshows⟩ := ih hcalls
      obtain ⟨s', hcall, heffect⟩ := (hshows thread).call hnext
      refine ⟨s', ?_, fun t => ?_⟩
      · rw [runCalls] at hrun ⊢
        rw [List.foldlM_append, hrun]
        show (e.run s thread).bind (fun s => .ok s) = .ok s'
        rw [hcall]
        rfl
      · rw [ownCalls_snoc]
        by_cases heq : thread = t
        · subst heq
          rw [if_pos rfl]
          exact heffect.shows_own
        · rw [if_neg heq]
          exact (hshows t).of_sameOthers (Ne.symm heq) heffect.others heffect.passive_eq

theorem ownCalls_filter (thread t : ThreadID) (calls : List (ThreadID × ProbeEvent)) :
    ownCalls t (calls.filter fun call => call.1 = thread)
      = if thread = t then ownCalls thread calls else [] := by
  unfold ownCalls
  rw [List.filter_filter]
  by_cases h : thread = t
  · subst h
    simp
  · rw [if_neg h, List.map_eq_nil_iff, List.filter_eq_nil_iff]
    intro call _
    simp only [Bool.and_eq_true, decide_eq_true_eq, not_and]
    intro ht hthread
    exact h (hthread.symm.trans ht)

/-- The reports that a call appends. -/
def newReports (s s' : ProfilerState) : List (List UInt8) :=
  s'.serializedCoverage.drop s.serializedCoverage.length

theorem newReports_of_append {reports : List (List UInt8)}
    (h : s'.serializedCoverage = s.serializedCoverage ++ reports) : newReports s s' = reports := by
  rw [newReports, h, List.drop_left]

/-- What a call appends is determined by the own calls of its thread. -/
theorem Reports.newReports_eq {s₁ s₁' : ProfilerState} (h : Reports s₀ s s' thread own e)
    (h₁ : Reports s₀ s₁ s₁' thread own e) : newReports s s' = newReports s₁ s₁' := by
  by_cases hcloses : framesBehind 0 own = some 1 ∧ e.probe = .leaveMain
  · obtain ⟨before, enter, inner, hinside⟩ := exists_inside own Nat.one_ne_zero hcloses.1
    rw [newReports_of_append (h.closing hinside hcloses.2),
      newReports_of_append (h₁.closing hinside hcloses.2)]
  · rw [newReports_of_append (by rw [h.staying hcloses, List.append_nil]),
      newReports_of_append (by rw [h₁.staying hcloses, List.append_nil])]

end ProfilerState

open ProfilerState

/-- **Threads do not mix.**  In every interleaving of well bracketed threads a report is appended
exactly when a thread leaves its outermost main frame; it holds the own calls of that thread since
the matching `EnterMain`, whatever the other threads did, and calls outside the invocations leave
no trace. -/
theorem threads_do_not_mix (s₀ : ProfilerState) (calls : List (ThreadID × ProbeEvent))
    (thread : ThreadID) (e : ProbeEvent) (hs : ∀ t, Untracked s₀ t)
    (hbracketed : WellBracketed (calls ++ [(thread, e)])) :
    ∃ s s', runCalls s₀ calls = .ok s ∧ e.run s thread = .ok s'
      ∧ (∀ t (e' : ProbeEvent), framesBehind 0 (ownCalls t calls) = some 0 →
        e'.probe ≠ .enterMain → e'.run s t = .ok s)
      ∧ (¬(framesBehind 0 (ownCalls thread calls) = some 1 ∧ e.probe = .leaveMain) →
        s'.serializedCoverage = s.serializedCoverage)
      ∧ (framesBehind 0 (ownCalls thread calls) = some 1 → e.probe = .leaveMain →
        ∃ before enter inner, Inside (ownCalls thread calls) before enter inner 1
          ∧ s'.serializedCoverage
            = s.serializedCoverage ++ [invocationReport s₀ thread before enter inner e])
      ∧ ∃ s₁ s₁', runCalls s₀ (calls.filter fun call => call.1 = thread) = .ok s₁
        ∧ e.run s₁ thread = .ok s₁' ∧ newReports s₁ s₁' = newReports s s' := by
  obtain ⟨hcalls, hnext⟩ := hbracketed.of_snoc
  obtain ⟨s, hrun, hshows⟩ := runCalls_shows hs calls hcalls
  obtain ⟨s', hcall, heffect⟩ := (hshows thread).call hnext
  have halone : WellBracketed (calls.filter fun call => call.1 = thread) := by
    intro t
    rw [ownCalls_filter]
    by_cases heq : thread = t
    · rw [if_pos heq]
      exact hcalls thread
    · rw [if_neg heq]
      rfl
  obtain ⟨s₁, hrun₁, hshows₁⟩ := runCalls_shows hs _ halone
  have hown : Shows s₀ s₁ thread (ownCalls thread calls) := by
    have h := hshows₁ thread
    rwa [ownCalls_filter, if_pos rfl] at h
  obtain ⟨s₁', hcall₁, heffect₁⟩ := hown.call hnext
  refine ⟨s, s', hrun, hcall, ?_, heffect.reports.staying, ?_, s₁, s₁', hrun₁, hcall₁,
    heffect₁.reports.newReports_eq heffect.reports⟩
  · intro t e' hout hprobe
    exact Probe.run_untracked ((hshows t).outside hout).1 hprobe
  · intro hframes hprobe
    obtain ⟨before, enter, inner, hinside⟩ := exists_inside _ Nat.one_ne_zero hframes
    exact ⟨before, enter, inner, hinside, heffect.reports.closing hinside hprobe⟩

/-- Two threads inside their main methods at once; the first one leaves. -/
theorem threads_do_not_mix_two : ∃ s s',
    runCalls (.init false true) [(1, ⟨.enterMain, 0, 0⟩), (2, ⟨.enterMain, 0, 1⟩),
        (1, ⟨.branch, 4, 0⟩), (2, ⟨.coverage, 6, 1⟩)] = .ok s
      ∧ ProbeEvent.run s 1 ⟨.leaveMain, 9, 0⟩ = .ok s' := by
  obtain ⟨s, s', hrun, hcall, -⟩ := threads_do_not_mix (.init false true)
    [(1, ⟨.enterMain, 0, 0⟩), (2, ⟨.enterMain, 0, 1⟩), (1, ⟨.branch, 4, 0⟩), (2, ⟨.coverage, 6, 1⟩)]
    1 ⟨.leaveMain, 9, 0⟩ (fun t => untracked_init false true t) (by
      intro t
      by_cases h1 : (1 : ThreadID) = t
      · subst h1
        decide
      · by_cases h2 : (2 : ThreadID) = t
        · subst h2
          decide
        · simp [ownCalls, h1, h2, framesBehind])
  exact ⟨s, s', hrun, hcall⟩

end TestExecutor
