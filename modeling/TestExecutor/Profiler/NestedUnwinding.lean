import TestExecutor.Profiler.ExceptionBalance

/-!
# Nested unwinding

An exception that is raised inside a finally block is unwound while another unwinding is under
way.  `ThreadTracker` remembers one function for each thread, which `unwindFunctionEnter`
overwrites and `unwindFunctionLeave` removes.

* `NestedFrames`, `NestedFrames.step` — the frames of a thread and the unwindings under way;
* `Attributed` — a leave acts on the function of its enter; `AttributesUnwinds` — all of a run do,
  and the frames are followed;
* `FrameEvent.remembers` — the function that is remembered behind an event: that of the latest
  enter, also of a function that catches; none behind a leave;
* `LeavesFollowEnters` — at every leave the function of its enter is the remembered one;
* `NestedBalanced` — the invariant; `attributesUnwinds_iff` — when the run is right.
-/

namespace TestExecutor

open TestExecutor.Library ProfilerState

/-! ### Frames and unwindings -/

/-- The stack of a thread, and the unwindings under way: the innermost one first, each with its
function and the stack at its start. -/
structure NestedFrames where
  stack : List Frame
  pending : List (FunctionID × List Frame)
  deriving DecidableEq

def NestedFrames.empty : NestedFrames := ⟨[], []⟩

/-- The top of the stack is above everything that the innermost unwinding began with. -/
def NestedFrames.CanPop (fs : NestedFrames) : Prop := ∀ p ∈ fs.pending.head?, p.2 ≠ fs.stack

instance (fs : NestedFrames) : Decidable fs.CanPop := by
  unfold NestedFrames.CanPop; infer_instance

/-- What an event does; `none` where it cannot happen.  A function that catches stays, and no leave
follows its enter. -/
def NestedFrames.step (main : FunctionID) (fs : NestedFrames) : FrameEvent → Option NestedFrames
  | .enterMain _ _ => some { fs with stack := .main :: fs.stack }
  | .leaveMain _ _ =>
      match fs.stack with
      | .main :: below => if fs.CanPop then some { fs with stack := below } else none
      | _ => none
  | .unwindEnter functionId _ =>
      if functionId = main → fs.stack.head? = some .main ∧ fs.CanPop
        then some { fs with pending := (functionId, fs.stack) :: fs.pending } else none
  | .unwindLeave =>
      match fs.pending with
      | (functionId, base) :: rest =>
          if fs.stack = base then some ⟨if functionId = main then base.tail else base, rest⟩
          else none
      | [] => none
  | .catchEnter _ _ => some fs
  | .filterEnter => some { fs with stack := .filter :: fs.stack }
  | .filterLeave =>
      match fs.stack with
      | .filter :: below => if fs.CanPop then some { fs with stack := below } else none
      | _ => none

/-- The events can happen one after the other. -/
def IsNestedRun (main : FunctionID) : NestedFrames → List FrameEvent → Prop
  | _, [] => True
  | fs, e :: es => ∃ fs', fs.step main e = some fs' ∧ IsNestedRun main fs' es

/-- The function that a leave on a tracked thread acts on is that of its enter. -/
def Attributed (s : ProfilerState) (thread : ThreadID) (fs : NestedFrames) (e : FrameEvent) :
    Prop :=
  e = .unwindLeave → s.isCurrentThreadTracked thread = true → ∀ p ∈ fs.pending.head?,
    ThreadStorage.load s.unwindFunctionIds thread = p.1

/-- Every leave of the run acts on the function of its enter, and every event follows the main
frames: in particular the removal of the last one ends the tracking, with one report. -/
def AttributesUnwinds (main : FunctionID) (thread : ThreadID) :
    ProfilerState → NestedFrames → List FrameEvent → Prop
  | _, _, [] => True
  | s, fs, e :: es => ∃ s' fs', e.run s thread = .ok s' ∧ fs.step main e = some fs'
      ∧ Attributed s thread fs e ∧ FollowsFrames s s' thread (frames fs.stack) (frames fs'.stack)
      ∧ AttributesUnwinds main thread s' fs' es

/-- The function that is remembered behind an event. -/
def FrameEvent.remembers (last : Option FunctionID) : FrameEvent → Option FunctionID
  | .unwindEnter functionId _ => some functionId
  | .catchEnter functionId _ => some functionId
  | .unwindLeave => none
  | _ => last

/-- At every leave of a tracked thread the latest one of the enters and leaves is an enter of the
same function, of the unwinding that ends or of an exception that it catches meanwhile. -/
def LeavesFollowEnters (main : FunctionID) : NestedFrames → Option FunctionID →
    List FrameEvent → Prop
  | _, _, [] => True
  | fs, last, e :: es => (e = .unwindLeave → frames fs.stack ≠ 0 →
      ∀ p ∈ fs.pending.head?, last = some p.1)
      ∧ ∀ fs', fs.step main e = some fs' → LeavesFollowEnters main fs' (e.remembers last) es

/-! ### Reports -/

variable {main : FunctionID} {s s' : ProfilerState} {thread : ThreadID} {fs fs' : FrameStack}

theorem callbacks_serializedCoverage (s : ProfilerState) (thread : ThreadID)
    (functionId : FunctionID) :
    (s.exceptionUnwindFunctionEnter thread functionId).serializedCoverage = s.serializedCoverage
      ∧ (s.exceptionSearchFilterEnter thread).serializedCoverage = s.serializedCoverage
      ∧ (s.exceptionSearchFilterLeave thread).serializedCoverage = s.serializedCoverage := by
  have hassert : ∀ (s : ProfilerState) site e,
      (s.profilerAssert site e).serializedCoverage = s.serializedCoverage := by
    intro s site e
    unfold profilerAssert
    split <;> rfl
  refine ⟨?_, ?_, ?_⟩
  · rw [exceptionUnwindFunctionEnter]
    split
    · rw [unwindFunctionEnter]
      dsimp only
      rw [hassert, hassert]
    · rfl
  · rw [exceptionSearchFilterEnter]
    split
    · rfl
    · rw [filterEnter]
      dsimp only
      rw [hassert, hassert]
  · rw [exceptionSearchFilterLeave]
    split
    · rfl
    · rw [filterLeave]
      dsimp only
      rw [hassert, hassert]

/-- What the end of an unwinding that is remembered does. -/
theorem unwindLeave_effect (h : Balanced main s thread fs) {functionId : FunctionID}
    (hmain : functionId = main → fs.stack.head? = some .main)
    (hunwinding : fs.unwinding = some (functionId, fs.stack)) (hlive : frames fs.stack ≠ 0)
    (hrun : s.exceptionUnwindFunctionLeave thread = .ok s') :
    s'.unwindFunctionIds.lookup thread = none
      ∧ (if functionId = main ∧ frames fs.stack = 1
        then ∃ history, s'.serializedCoverage
          = s.serializedCoverage ++ [reportBuffer (s.mappedId thread) (some history)]
        else s'.serializedCoverage = s.serializedCoverage) := by
  have hid := h.remembered _ _ hunwinding hlive
  obtain ⟨history, htracked⟩ := h.frames_eq.tracked hlive
  rw [exceptionUnwindFunctionLeave, h.running, htracked.isCurrentThreadTracked,
    if_neg (by simp)] at hrun
  by_cases hfunction : functionId = main
  · subst hfunction
    obtain ⟨below, hstack⟩ : ∃ below, fs.stack = .main :: below :=
      List.head?_eq_some_iff.mp (hmain rfl)
    rw [← h.main_eq] at hid
    rw [unwindFunctionLeave_main htracked hid (by omega) (by omega) (by
      intro hone
      rw [hstack, frames_main] at hone
      rw [hstack, filtersAboveMain, filtersAboveMain_eq_zero (by omega)]
      rfl)] at hrun
    obtain rfl := Except.ok.inj hrun
    by_cases hone : frames fs.stack = 1
    · rw [if_pos (by exact_mod_cast hone), if_pos ⟨rfl, hone⟩]
      exact ⟨OrderedMap.lookup_erase_self _ _, history, rfl⟩
    · rw [if_neg (by exact_mod_cast hone), if_neg (fun hand => hone hand.2)]
      exact ⟨OrderedMap.lookup_erase_self _ _, rfl⟩
  · rw [unwindFunctionLeave_other htracked h.mainOnly hid
      (by rw [h.main_eq]; exact Ne.symm hfunction)] at hrun
    obtain rfl := Except.ok.inj hrun
    rw [if_neg (fun hand => hfunction hand.1)]
    exact ⟨OrderedMap.lookup_erase_self _ _, rfl⟩

/-- A report is appended exactly when the last main frame is removed. -/
theorem FrameEvent.run_reports {e : FrameEvent} (h : Balanced main s thread fs)
    (hstep : fs.step main e = some fs') (hrun : e.run s thread = .ok s') :
    if 0 < frames fs.stack ∧ frames fs'.stack = 0
      then ∃ history, s'.serializedCoverage
        = s.serializedCoverage ++ [reportBuffer (s.mappedId thread) (some history)]
      else s'.serializedCoverage = s.serializedCoverage := by
  have hcallbacks := callbacks_serializedCoverage s thread
  cases e with
  | enterMain offset methodId =>
      obtain rfl := Option.some.inj hstep
      obtain ⟨s'', hrun', -, hreports, -⟩ :=
        trackEnterMain_hasFrames h.frames_eq filtersAboveMain_eq_zero offset methodId
      obtain rfl := Except.ok.inj (hrun.symm.trans hrun')
      rw [if_neg (by rw [frames_main]; omega)]
      exact hreports
  | leaveMain offset methodId =>
      simp only [FrameStack.step] at hstep
      split at hstep
      · rename_i below hstack
        split at hstep
        · obtain rfl := Option.some.inj hstep
          have hbefore := h.frames_eq
          rw [hstack, frames_main, filtersAboveMain] at hbefore
          obtain ⟨s'', hrun', -, hreports, -⟩ :=
            trackLeaveMain_hasFrames hbefore filtersAboveMain_eq_zero offset methodId
          obtain rfl := Except.ok.inj (hrun.symm.trans hrun')
          rw [hstack, frames_main]
          simpa using hreports
        · cases hstep
      · cases hstep
  | unwindEnter functionId hid =>
      simp only [FrameStack.step] at hstep
      split at hstep
      · obtain rfl := Option.some.inj hstep
        obtain rfl := Except.ok.inj hrun
        rw [if_neg (by dsimp only; omega)]
        exact (hcallbacks functionId).1
      · cases hstep
  | unwindLeave =>
      simp only [FrameStack.step] at hstep
      split at hstep
      · rename_i functionId base hunwinding
        split at hstep
        · rename_i hbase
          subst hbase
          obtain rfl := Option.some.inj hstep
          have htop : functionId = main → fs.stack.head? = some .main :=
            fun heq => h.main_on_top _ (heq ▸ hunwinding)
          by_cases hlive : frames fs.stack = 0
          · have hframes := h.frames_eq
            rw [hlive] at hframes
            rw [if_neg (by omega)]
            obtain rfl : s = s' := Except.ok.inj
              ((callbacks_untracked (hasFrames_zero.mp hframes) 0).2.1.symm.trans hrun)
            rfl
          · have hreports := (unwindLeave_effect h htop hunwinding hlive hrun).2
            by_cases hmain : functionId = main
            · obtain ⟨below, hstack⟩ : ∃ below, fs.stack = .main :: below :=
                List.head?_eq_some_iff.mp (htop hmain)
              rw [hstack, frames_main] at hreports ⊢
              simpa [hmain] using hreports
            · rw [if_neg (fun hand => hmain hand.1)] at hreports
              rw [if_neg (by dsimp only; rw [if_neg hmain]; omega)]
              exact hreports
        · cases hstep
      · cases hstep
  | catchEnter functionId hid =>
      simp only [FrameStack.step] at hstep
      split at hstep
      · obtain rfl := Option.some.inj hstep
        obtain rfl := Except.ok.inj hrun
        rw [if_neg (by omega)]
        exact (hcallbacks functionId).1
      · cases hstep
  | filterEnter =>
      obtain rfl := Option.some.inj hstep
      obtain rfl := Except.ok.inj hrun
      rw [if_neg (by rw [frames_filter]; omega)]
      exact (hcallbacks 0).2.1
  | filterLeave =>
      simp only [FrameStack.step] at hstep
      split at hstep
      · rename_i below hstack
        split at hstep
        · obtain rfl := Option.some.inj hstep
          obtain rfl := Except.ok.inj hrun
          rw [hstack, frames_filter, if_neg (by dsimp only; omega)]
          exact (hcallbacks 0).2.2
        · cases hstep
      · cases hstep

/-! ### The invariant -/

/-- The profiler's state is the one for these frames, and `last` is what it remembers of the
unwindings that began on the tracked thread. -/
structure NestedBalanced (main : FunctionID) (s : ProfilerState) (thread : ThreadID)
    (fs : NestedFrames) (last : Option FunctionID) : Prop where
  balanced : Balanced main s thread ⟨fs.stack, none⟩
  suffixes : ∀ p ∈ fs.pending, p.2 <:+ fs.stack
  nested : fs.pending.Pairwise fun p q => q.2 <:+ p.2 ∧ (p.1 = main → q.2 ≠ p.2)
  main_on_top : ∀ p ∈ fs.pending, p.1 = main → p.2.head? = some .main
  remembered : ∀ p ∈ fs.pending.head?, frames p.2 ≠ 0 →
    s.unwindFunctionIds.lookup thread = last
  correct : ∀ p ∈ fs.pending, p.1 ≠ 0

variable {ns ns' : NestedFrames} {last : Option FunctionID}

/-- Popping the top keeps the stacks of the unwindings below it. -/
theorem NestedBalanced.suffixes_pop {frame : Frame} {below : List Frame}
    (h : NestedBalanced main s thread ns last) (hpop : ns.CanPop)
    (hstack : ns.stack = frame :: below) : ∀ p ∈ ns.pending, p.2 <:+ below := by
  intro p hp
  cases hpending : ns.pending with
  | nil =>
      rw [hpending] at hp
      cases hp
  | cons q rest =>
      have hq : q.2 <:+ below := by
        have hsuffix := h.suffixes q (by rw [hpending]; exact List.mem_cons_self)
        rw [hstack] at hsuffix
        rcases List.suffix_cons_iff.mp hsuffix with hbase | hbelow
        · exact absurd (hbase.trans hstack.symm) (hpop q (by rw [hpending]; rfl))
        · exact hbelow
      rw [hpending] at hp
      rcases List.mem_cons.mp hp with rfl | hp
      · exact hq
      · have hnested := h.nested
        rw [hpending] at hnested
        exact ((List.pairwise_cons.mp hnested).1 p hp).1.trans hq

/-- An event that touches neither the unwindings nor what is remembered of them. -/
theorem NestedBalanced.of_balanced {stack : List Frame}
    (h : NestedBalanced main s thread ns last)
    (hbalanced : Balanced main s' thread ⟨stack, none⟩)
    (hsuffixes : ∀ p ∈ ns.pending, p.2 <:+ stack)
    (hids : s'.unwindFunctionIds = s.unwindFunctionIds) :
    NestedBalanced main s' thread ⟨stack, ns.pending⟩ last where
  balanced := hbalanced
  suffixes := hsuffixes
  nested := h.nested
  main_on_top := h.main_on_top
  remembered := by
    rw [hids]
    exact h.remembered
  correct := h.correct

/-- What a step does, and the profiler with it. -/
structure NestedStep (main : FunctionID) (s s' : ProfilerState) (thread : ThreadID)
    (ns ns' : NestedFrames) (last : Option FunctionID) (e : FrameEvent) : Prop where
  attributed : Attributed s thread ns e
  follows : FollowsFrames s s' thread (frames ns.stack) (frames ns'.stack)
  balanced : NestedBalanced main s' thread ns' (e.remembers last)

theorem Balanced.follows {e : FrameEvent} (h : Balanced main s thread fs)
    (hstep : fs.step main e = some fs') (hrun : e.run s thread = .ok s')
    (h' : Balanced main s' thread fs') :
    FollowsFrames s s' thread (frames fs.stack) (frames fs'.stack) :=
  ⟨h'.frames_eq.balance_eq, h'.frames_eq.tracked_iff, FrameEvent.run_reports h hstep hrun⟩

/-- Main frames and filters come and go above the innermost unwinding. -/
theorem FrameEvent.run_nested_plain {e : FrameEvent} {stack : List Frame}
    (h : NestedBalanced main s thread ns last)
    (hstep : FrameStack.step main ⟨ns.stack, none⟩ e = some ⟨stack, none⟩)
    (hsuffixes : ∀ p ∈ ns.pending, p.2 <:+ stack) (hleave : e ≠ .unwindLeave)
    (hlast : e.remembers last = last)
    (hids : ∀ s', e.run s thread = .ok s' → s'.unwindFunctionIds = s.unwindFunctionIds) :
    ∃ s', e.run s thread = .ok s'
      ∧ NestedStep main s s' thread ns ⟨stack, ns.pending⟩ last e := by
  obtain ⟨s', hrun, hbalanced⟩ := FrameEvent.run_balanced h.balanced hstep
  refine ⟨s', hrun, fun heq => absurd heq hleave, h.balanced.follows hstep hrun hbalanced, ?_⟩
  rw [hlast]
  exact h.of_balanced hbalanced hsuffixes (hids s' hrun)

theorem filters_unwindFunctionIds (s : ProfilerState) (thread : ThreadID) :
    (s.exceptionSearchFilterEnter thread).unwindFunctionIds = s.unwindFunctionIds
      ∧ (s.exceptionSearchFilterLeave thread).unwindFunctionIds = s.unwindFunctionIds := by
  have hassert : ∀ (s : ProfilerState) site e,
      (s.profilerAssert site e).unwindFunctionIds = s.unwindFunctionIds := by
    intro s site e
    unfold profilerAssert
    split <;> rfl
  constructor
  · rw [exceptionSearchFilterEnter]
    split
    · rfl
    · rw [filterEnter]
      dsimp only
      rw [hassert, hassert]
  · rw [exceptionSearchFilterLeave]
    split
    · rfl
    · rw [filterLeave]
      dsimp only
      rw [hassert, hassert]

/-- A leave: its unwinding is the innermost one. -/
theorem unwindLeave_nested {functionId : FunctionID} {rest : List (FunctionID × List Frame)}
    (h : NestedBalanced main s thread ns last)
    (hpending : ns.pending = (functionId, ns.stack) :: rest)
    (hlast : frames ns.stack ≠ 0 → last = some functionId) :
    ∃ s', s.exceptionUnwindFunctionLeave thread = .ok s'
      ∧ NestedStep main s s' thread ns
        ⟨if functionId = main then ns.stack.tail else ns.stack, rest⟩ last .unwindLeave := by
  have hmem : (functionId, ns.stack) ∈ ns.pending := by
    rw [hpending]
    exact List.mem_cons_self
  have htop : functionId = main → ns.stack.head? = some .main := h.main_on_top _ hmem
  have hnested := h.nested
  rw [hpending] at hnested
  obtain ⟨hhead, hrest⟩ := List.pairwise_cons.mp hnested
  have hsub : ∀ q ∈ rest, q ∈ ns.pending := fun q hq => by
    rw [hpending]
    exact List.mem_cons_of_mem _ hq
  -- the unwindings around this one began below what is left
  have hsuffixes : ∀ q ∈ rest, q.2 <:+ if functionId = main then ns.stack.tail else ns.stack := by
    intro q hq
    obtain ⟨hsuffix, hne⟩ := hhead q hq
    split
    · rename_i hmain
      obtain ⟨below, hstack⟩ : ∃ below, ns.stack = .main :: below :=
        List.head?_eq_some_iff.mp (htop hmain)
      have hne := hne hmain
      dsimp only at hsuffix hne
      rw [hstack] at hsuffix hne ⊢
      rcases List.suffix_cons_iff.mp hsuffix with heq | hbelow
      · exact absurd heq hne
      · exact hbelow
    · exact hsuffix
  by_cases hlive : frames ns.stack = 0
  · have hframes := h.balanced.frames_eq
    rw [hlive] at hframes
    have huntracked := hasFrames_zero.mp hframes
    have hmain : functionId ≠ main := by
      intro heq
      obtain ⟨below, hstack⟩ := List.head?_eq_some_iff.mp (htop heq)
      rw [hstack, frames_main] at hlive
      omega
    refine ⟨s, (callbacks_untracked huntracked 0).2.1, ?_, ?_, ?_⟩
    · intro _ htracked
      rw [huntracked.isCurrentThreadTracked] at htracked
      cases htracked
    · rw [if_neg hmain]
      refine ⟨h.balanced.frames_eq.balance_eq, h.balanced.frames_eq.tracked_iff, ?_⟩
      rw [if_neg (by omega)]
    · rw [if_neg hmain] at hsuffixes ⊢
      refine ⟨h.balanced, hsuffixes, hrest, fun q hq => h.main_on_top q (hsub q hq),
        fun q hq hne => ?_, fun q hq => h.correct q (hsub q hq)⟩
      have hq : q ∈ rest := List.mem_of_mem_head? hq
      have hle : frames q.2 ≤ frames ns.stack := (hsuffixes q hq).sublist.count_le _
      omega
  · have hid : s.unwindFunctionIds.lookup thread = some functionId :=
      (h.remembered _ (by rw [hpending]; rfl) hlive).trans (hlast hlive)
    have hbalanced := h.balanced.unwinding (fun _ => hid) htop
    have hstep : FrameStack.step main ⟨ns.stack, some (functionId, ns.stack)⟩ .unwindLeave
        = some ⟨if functionId = main then ns.stack.tail else ns.stack, none⟩ := if_pos rfl
    obtain ⟨s', hrun, hafter⟩ := FrameEvent.run_balanced hbalanced hstep
    refine ⟨s', hrun, ?_, hbalanced.follows hstep hrun hafter, ?_⟩
    · intro _ _ p hp
      rw [hpending] at hp
      obtain rfl := Option.some.inj hp
      exact ThreadStorage.load_of_lookup hid
    · exact ⟨hafter, hsuffixes, hrest, fun q hq => h.main_on_top q (hsub q hq),
        fun _ _ _ => (unwindLeave_effect hbalanced htop rfl hlive hrun).1,
        fun q hq => h.correct q (hsub q hq)⟩

/-- An enter, of a function that is unwound or of one that catches, is what is remembered. -/
theorem unwindEnter_nested {functionId : FunctionID} (h : NestedBalanced main s thread ns last)
    (hid : functionId ≠ 0) :
    NestedBalanced main (s.exceptionUnwindFunctionEnter thread functionId) thread ns
        (some functionId)
      ∧ (frames ns.stack ≠ 0 →
        (s.exceptionUnwindFunctionEnter thread functionId).unwindFunctionIds.lookup thread
          = some functionId) := by
  obtain ⟨hentered, hlookup⟩ := unwindEnter_remembered h.balanced hid
  refine ⟨⟨hentered, h.suffixes, h.nested, h.main_on_top, fun p hp hlive => ?_, h.correct⟩, hlookup⟩
  have hle : frames p.2 ≤ frames ns.stack :=
    (h.suffixes p (List.mem_of_mem_head? hp)).sublist.count_le _
  exact hlookup (by dsimp only; omega)

/-- One event, provided that a leave finds the function of its enter. -/
theorem FrameEvent.run_nested {e : FrameEvent} (h : NestedBalanced main s thread ns last)
    (hstep : ns.step main e = some ns')
    (hleave : e = .unwindLeave → frames ns.stack ≠ 0 → ∀ p ∈ ns.pending.head?, last = some p.1) :
    ∃ s', e.run s thread = .ok s' ∧ NestedStep main s s' thread ns ns' last e := by
  cases e with
  | enterMain offset methodId =>
      obtain rfl := Option.some.inj hstep
      refine FrameEvent.run_nested_plain h rfl
        (fun p hp => (h.suffixes p hp).trans (List.suffix_cons _ _)) (by simp) rfl fun s' hrun => ?_
      obtain ⟨s'', hrun', -, -, -, hcontext⟩ :=
        trackEnterMain_hasFrames h.balanced.frames_eq filtersAboveMain_eq_zero offset methodId
      obtain rfl := Except.ok.inj (hrun.symm.trans hrun')
      exact hcontext.unwindFunctionIds_eq
  | leaveMain offset methodId =>
      simp only [NestedFrames.step] at hstep
      split at hstep
      · rename_i below hstack
        split at hstep
        · rename_i hpop
          obtain rfl := Option.some.inj hstep
          refine FrameEvent.run_nested_plain h ?_ (h.suffixes_pop hpop hstack) (by simp) rfl
            fun s' hrun => ?_
          · simp only [FrameStack.step, hstack]
            exact if_pos fun _ _ hnone => absurd hnone (by simp)
          · have hbefore := h.balanced.frames_eq
            rw [hstack, frames_main, filtersAboveMain] at hbefore
            obtain ⟨s'', hrun', -, -, -, hcontext⟩ :=
              trackLeaveMain_hasFrames hbefore filtersAboveMain_eq_zero offset methodId
            obtain rfl := Except.ok.inj (hrun.symm.trans hrun')
            exact hcontext.unwindFunctionIds_eq
        · cases hstep
      · cases hstep
  | unwindEnter functionId hid =>
      simp only [NestedFrames.step] at hstep
      split at hstep
      · rename_i hcan
        obtain rfl := Option.some.inj hstep
        obtain ⟨hnested, hlookup⟩ := unwindEnter_nested h hid
        have hsingle : FrameStack.step main ⟨ns.stack, none⟩ (.unwindEnter functionId hid)
            = some ⟨ns.stack, some (functionId, ns.stack)⟩ :=
          if_pos ⟨rfl, fun heq => (hcan heq).1⟩
        have hentered := unwindEnter_balanced h.balanced hid fun heq => (hcan heq).1
        refine ⟨_, rfl, (fun heq => by cases heq), h.balanced.follows hsingle rfl hentered,
          hnested.balanced, ?_, ?_, ?_, ?_, ?_⟩
        · intro p hp
          rcases List.mem_cons.mp hp with rfl | hp
          · exact List.suffix_rfl
          · exact h.suffixes p hp
        · refine List.pairwise_cons.mpr ⟨fun q hq => ⟨h.suffixes q hq, fun heq hbase => ?_⟩,
            h.nested⟩
          -- the stack of an unwinding around this one is below the frame of main
          obtain ⟨below, hstack⟩ := List.head?_eq_some_iff.mp (hcan heq).1
          have hle := (h.suffixes_pop (hcan heq).2 hstack q hq).length_le
          rw [hbase] at hle
          dsimp only at hle
          rw [hstack, List.length_cons] at hle
          omega
        · intro p hp heq
          rcases List.mem_cons.mp hp with rfl | hp
          · exact (hcan heq).1
          · exact h.main_on_top p hp heq
        · intro p hp hlive
          obtain rfl := Option.some.inj hp
          exact hlookup hlive
        · intro p hp
          rcases List.mem_cons.mp hp with rfl | hp
          · exact hid
          · exact h.correct p hp
      · cases hstep
  | unwindLeave =>
      simp only [NestedFrames.step] at hstep
      split at hstep
      · rename_i functionId base rest hpending
        split at hstep
        · rename_i hbase
          subst hbase
          obtain rfl := Option.some.inj hstep
          exact unwindLeave_nested h hpending fun hlive => hleave rfl hlive _ (by rw [hpending]; rfl)
        · cases hstep
      · cases hstep
  | catchEnter functionId hid =>
      obtain rfl := Option.some.inj hstep
      have hcaught : FrameStack.step main ⟨ns.stack, none⟩ (.catchEnter functionId hid)
          = some ⟨ns.stack, none⟩ := by simp [FrameStack.step]
      have hnested := (unwindEnter_nested h hid).1
      exact ⟨_, rfl, (fun heq => by cases heq),
        h.balanced.follows hcaught rfl hnested.balanced, hnested⟩
  | filterEnter =>
      obtain rfl := Option.some.inj hstep
      refine FrameEvent.run_nested_plain h rfl
        (fun p hp => (h.suffixes p hp).trans (List.suffix_cons _ _)) (by simp) rfl fun s' hrun => ?_
      obtain rfl := Except.ok.inj hrun
      exact (filters_unwindFunctionIds s thread).1
  | filterLeave =>
      simp only [NestedFrames.step] at hstep
      split at hstep
      · rename_i below hstack
        split at hstep
        · rename_i hpop
          obtain rfl := Option.some.inj hstep
          refine FrameEvent.run_nested_plain h ?_ (h.suffixes_pop hpop hstack) (by simp) rfl
            fun s' hrun => ?_
          · simp only [FrameStack.step, hstack]
            exact if_pos fun _ _ hnone => absurd hnone (by simp)
          · obtain rfl := Except.ok.inj hrun
            exact (filters_unwindFunctionIds s thread).2
        · cases hstep
      · cases hstep

/-! ### Whole runs -/

/-- A leave that does not find the function of its enter acts on another one, or on none. -/
theorem not_attributed (h : NestedBalanced main s thread ns last) {p : FunctionID × List Frame}
    (hp : p ∈ ns.pending.head?) (hstack : ns.stack = p.2) (hlive : frames ns.stack ≠ 0)
    (hlast : last ≠ some p.1) : ¬Attributed s thread ns .unwindLeave := by
  intro hattributed
  have htracked := h.balanced.frames_eq.tracked_iff.mpr (Nat.pos_of_ne_zero hlive)
  have hload := hattributed rfl htracked p hp
  rw [ThreadStorage.load, h.remembered p hp (hstack ▸ hlive)] at hload
  cases last with
  | none => exact h.correct p (List.mem_of_mem_head? hp) hload.symm
  | some functionId => exact hlast (congrArg some hload)

theorem attributesUnwinds_of_balanced (events : List FrameEvent) :
    ∀ (s : ProfilerState) (ns : NestedFrames) (last : Option FunctionID),
      NestedBalanced main s thread ns last → IsNestedRun main ns events →
      (AttributesUnwinds main thread s ns events ↔ LeavesFollowEnters main ns last events) := by
  induction events with
  | nil => intro s ns last _ _; exact Iff.rfl
  | cons e es ih =>
      intro s ns last h hrun
      obtain ⟨ns', hstep, hes⟩ := hrun
      constructor
      · rintro ⟨s', ns'', hrun, hstep', hattributed, -, hrest⟩
        obtain rfl : ns' = ns'' := Option.some.inj (hstep.symm.trans hstep')
        have hleave : e = .unwindLeave → frames ns.stack ≠ 0 →
            ∀ p ∈ ns.pending.head?, last = some p.1 := by
          rintro rfl hlive p hp
          by_contra hlast
          refine not_attributed h hp ?_ hlive hlast hattributed
          simp only [NestedFrames.step] at hstep
          split at hstep
          · rename_i functionId base rest hpending
            rw [hpending] at hp
            obtain rfl := Option.some.inj hp
            split at hstep
            · rename_i hbase
              exact hbase
            · cases hstep
          · cases hstep
        refine ⟨hleave, fun next hnext => ?_⟩
        obtain rfl : ns' = next := Option.some.inj (hstep.symm.trans hnext)
        obtain ⟨s'', hrun', hnested⟩ := FrameEvent.run_nested h hstep hleave
        obtain rfl : s' = s'' := Except.ok.inj (hrun.symm.trans hrun')
        exact (ih s' ns' _ hnested.balanced hes).mp hrest
      · rintro ⟨hleave, hrest⟩
        obtain ⟨s', hrun, hnested⟩ := FrameEvent.run_nested h hstep hleave
        exact ⟨s', ns', hrun, hstep, hnested.attributed, hnested.follows,
          (ih s' ns' _ hnested.balanced hes).mpr (hrest ns' hstep)⟩

/-- **When unwindings are attributed to their functions.**  From a thread outside every
invocation, every leave of a run acts on the function of its enter, and every event follows the
main frames, exactly when at each leave of the tracked thread the latest enter or leave is an enter
of its function: a later enter overwrites what the thread's enter has stored, and a later leave
removes it. -/
theorem attributesUnwinds_iff (s : ProfilerState) (thread : ThreadID) (hs : Untracked s thread)
    (hrunning : s.isFinished = false) (hmode : s.collectMainOnly = true)
    (hasserts : AssertSite.threadTracker ∉ s.failedAsserts) (events : List FrameEvent)
    (hrun : IsNestedRun s.mainFunctionId .empty events) :
    AttributesUnwinds s.mainFunctionId thread s .empty events
      ↔ LeavesFollowEnters s.mainFunctionId .empty none events := by
  refine attributesUnwinds_of_balanced events s .empty none ?_ hrun
  refine ⟨⟨hasFrames_zero.mpr hs, hrunning, hmode, rfl, hasserts, by simp, by simp, by simp⟩,
    ?_, ?_, ?_, ?_, ?_⟩ <;> simp [NestedFrames.empty]

/-- Main is entered, another function is unwound and a third one catches, then main is unwound. -/
theorem attributesUnwinds_iff_sequence :
    AttributesUnwinds 7 0 { ProfilerState.init false true with mainFunctionId := 7 } .empty
        [.enterMain 0 0, .unwindEnter 5 (by decide), .unwindLeave, .catchEnter 6 (by decide),
          .unwindEnter 7 (by decide), .unwindLeave]
      ↔ LeavesFollowEnters 7 .empty none
        [.enterMain 0 0, .unwindEnter 5 (by decide), .unwindLeave, .catchEnter 6 (by decide),
          .unwindEnter 7 (by decide), .unwindLeave] :=
  attributesUnwinds_iff { ProfilerState.init false true with mainFunctionId := 7 } 0
    ⟨rfl, rfl, rfl⟩ rfl rfl (by decide) _
    ⟨_, rfl, _, rfl, _, rfl, _, rfl, _, rfl, _, rfl, trivial⟩

/-- Main is unwound; meanwhile, in its finally block, another function is.  At the end the frames
of main are gone, and the thread is still tracked. -/
theorem nested_unwinding_keeps_thread_tracked :
    IsNestedRun 7 .empty [.enterMain 0 0, .unwindEnter 7 (by decide), .unwindEnter 5 (by decide),
        .unwindLeave, .unwindLeave]
      ∧ (∃ s, runFrameEvents 0 { ProfilerState.init false true with mainFunctionId := 7 }
          [.enterMain 0 0, .unwindEnter 7 (by decide), .unwindEnter 5 (by decide),
            .unwindLeave, .unwindLeave] = .ok s
        ∧ s.isCurrentThreadTracked 0 = true ∧ s.serializedCoverage = [])
      ∧ ¬AttributesUnwinds 7 0 { ProfilerState.init false true with mainFunctionId := 7 } .empty
        [.enterMain 0 0, .unwindEnter 7 (by decide), .unwindEnter 5 (by decide),
          .unwindLeave, .unwindLeave] := by
  have hrun : IsNestedRun 7 .empty [.enterMain 0 0, .unwindEnter 7 (by decide),
      .unwindEnter 5 (by decide), .unwindLeave, .unwindLeave] :=
    ⟨_, rfl, _, rfl, _, rfl, _, rfl, _, rfl, trivial⟩
  refine ⟨hrun, ⟨_, rfl, by decide, rfl⟩, fun hattributes => ?_⟩
  have hstart : NestedBalanced 7 { ProfilerState.init false true with mainFunctionId := 7 } 0
      .empty none := by
    refine ⟨⟨hasFrames_zero.mpr ⟨rfl, rfl, rfl⟩, rfl, rfl, rfl, by decide, by simp, by simp,
      by simp⟩, ?_, ?_, ?_, ?_, ?_⟩ <;> simp [NestedFrames.empty]
  have hleaves := (attributesUnwinds_of_balanced _ _ _ _ hstart hrun).mp hattributes
  have hlast := ((((hleaves.2 _ rfl).2 _ rfl).2 _ rfl).2 _ rfl).1 rfl
  exact absurd (hlast (by decide)) (by decide)

end TestExecutor
