import Mathlib.Logic.Function.Basic
import TestExecutor.Library.Dictionary
import TestExecutor.Library.Runs

/-!
# The table of methods under concurrent calls

`Application.getMethod` finds the `Method` of a descriptor in a `ConcurrentDictionary`, and makes it
otherwise, by way of `Dict.getValueOrUpdate`.  The dictionary makes each of its operations atomic, but
not the sequence of them: a call tests for the key, makes the object, tests again and adds.

* `GetPc`, `Methods`, `Methods.getStep` — the calls and their steps;
* `GetStep`, `getStep_cases` — what a step can do;
* `Stored`, `getMethod_shared` — all calls with one descriptor return one object;
* `TestsAlone`, `threw_iff` — when a call throws.
-/

namespace TestExecutor

open TestExecutor.Library

/-- `dict[key]` throws for a key that is not there, `dict.Add` for one that is. -/
inductive DictException
  | keyNotFound
  | argument
  deriving DecidableEq, Repr

/-- Where a call of `getValueOrUpdate` stands. -/
inductive GetPc
  | called
  -- a test has found the key; in front of `dict[key]`
  | found
  -- in front of `fallback()`
  | missed
  -- in front of the second test
  | created (newVal : ℕ)
  -- in front of `dict.Add`
  | missedAgain (newVal : ℕ)
  | returned (value : ℕ)
  | threw (e : DictException)
  deriving DecidableEq, Repr

/-- The object that a call has made and not yet let go. -/
def GetPc.held : GetPc → Option ℕ
  | .created v | .missedAgain v => some v
  | _ => none

def GetPc.Ended : GetPc → Prop
  | .called | .returned _ | .threw _ => True
  | .found | .missed | .created _ | .missedAgain _ => False

/-- The dictionary, the calls that have made an object, and where the calls stand.  An object stands for
the place of its maker in the list. -/
structure Methods (ι K : Type) where
  methods : Dictionary K ℕ
  made : List ι
  pc : ι → GetPc

namespace Methods

variable {ι K : Type} [DecidableEq ι] [DecidableEq K] (desc : ι → K)

def init : Methods ι K := ⟨Dictionary.empty, [], fun _ => .called⟩

def setPc (w : Methods ι K) (i : ι) (pc : GetPc) : Methods ι K :=
  { w with pc := Function.update w.pc i pc }

/-- The next step of a call of `getMethod` for a method with the descriptor `desc i`. -/
def getStep (w : Methods ι K) (i : ι) : Option (Methods ι K) :=
  match w.pc i with
  | .called => some (w.setPc i (if desc i ∈ w.methods.keys then .found else .missed))
  | .found =>
      match w.methods.lookup (desc i) with
      | some v => some (w.setPc i (.returned v))
      | none => some (w.setPc i (.threw .keyNotFound))
  | .missed => some ({ w with made := w.made ++ [i] }.setPc i (.created w.made.length))
  | .created v => some (w.setPc i (if desc i ∈ w.methods.keys then .found else .missedAgain v))
  | .missedAgain v =>
      match w.methods.add (desc i) v with
      | some methods => some ({ w with methods }.setPc i (.returned v))
      | none => some (w.setPc i (.threw .argument))
  | .returned _ | .threw _ => none

/-! ### One step -/

/-- What a step of a call can do. -/
inductive GetStep (w : Methods ι K) (i : ι) : Methods ι K → Prop
  | find (hpc : w.pc i = .called ∨ ∃ v, w.pc i = .created v) (hmem : desc i ∈ w.methods.keys) :
      GetStep w i (w.setPc i .found)
  | miss (hpc : w.pc i = .called) : GetStep w i (w.setPc i .missed)
  | get {v : ℕ} (hpc : w.pc i = .found) (hlookup : w.methods.lookup (desc i) = some v) :
      GetStep w i (w.setPc i (.returned v))
  | lose (hpc : w.pc i = .found) (hlookup : w.methods.lookup (desc i) = none) :
      GetStep w i (w.setPc i (.threw .keyNotFound))
  | make (hpc : w.pc i = .missed) :
      GetStep w i ({ w with made := w.made ++ [i] }.setPc i (.created w.made.length))
  | missAgain {v : ℕ} (hpc : w.pc i = .created v) (hnot : desc i ∉ w.methods.keys) :
      GetStep w i (w.setPc i (.missedAgain v))
  | add {v : ℕ} {methods : Dictionary K ℕ} (hpc : w.pc i = .missedAgain v)
      (hnot : desc i ∉ w.methods.keys) (hentries : methods.entries = w.methods.entries ++ [(desc i, v)]) :
      GetStep w i ({ w with methods }.setPc i (.returned v))
  | clash {v : ℕ} (hpc : w.pc i = .missedAgain v) (hmem : desc i ∈ w.methods.keys) :
      GetStep w i (w.setPc i (.threw .argument))

variable {desc} {w w' : Methods ι K} {i : ι}

theorem getStep_cases (h : w.getStep desc i = some w') : GetStep desc w i w' := by
  cases hpc : w.pc i with
  | called =>
      simp only [getStep, hpc] at h
      by_cases hmem : desc i ∈ w.methods.keys
      · rw [if_pos hmem] at h
        obtain rfl := Option.some.inj h
        exact .find (Or.inl hpc) hmem
      · rw [if_neg hmem] at h
        obtain rfl := Option.some.inj h
        exact .miss hpc
  | found =>
      simp only [getStep, hpc] at h
      cases hlookup : w.methods.lookup (desc i) with
      | some v =>
          rw [hlookup] at h
          obtain rfl := Option.some.inj h
          exact .get hpc hlookup
      | none =>
          rw [hlookup] at h
          obtain rfl := Option.some.inj h
          exact .lose hpc hlookup
  | missed =>
      simp only [getStep, hpc] at h
      obtain rfl := Option.some.inj h
      exact .make hpc
  | created v =>
      simp only [getStep, hpc] at h
      by_cases hmem : desc i ∈ w.methods.keys
      · rw [if_pos hmem] at h
        obtain rfl := Option.some.inj h
        exact .find (Or.inr ⟨v, hpc⟩) hmem
      · rw [if_neg hmem] at h
        obtain rfl := Option.some.inj h
        exact .missAgain hpc hmem
  | missedAgain v =>
      simp only [getStep, hpc] at h
      by_cases hmem : desc i ∈ w.methods.keys
      · rw [Dictionary.add_of_mem hmem] at h
        obtain rfl := Option.some.inj h
        exact .clash hpc hmem
      · obtain ⟨methods, hadd, hentries⟩ := Dictionary.add_of_notMem (v := v) hmem
        rw [hadd] at h
        obtain rfl := Option.some.inj h
        exact .add hpc hmem hentries
  | returned v | threw e =>
      simp only [getStep, hpc] at h
      cases h

omit [DecidableEq K] in
@[simp] theorem setPc_methods (w : Methods ι K) (i : ι) (pc : GetPc) :
    (w.setPc i pc).methods = w.methods := rfl

omit [DecidableEq K] in
theorem setPc_pc (w : Methods ι K) (i j : ι) (pc : GetPc) :
    (w.setPc i pc).pc j = if j = i then pc else w.pc j := Function.update_apply _ _ _ _

omit [DecidableEq K] in
theorem setPc_self (w : Methods ι K) (i : ι) (pc : GetPc) : (w.setPc i pc).pc i = pc :=
  Function.update_self _ _ _

omit [DecidableEq K] in
theorem setPc_of_ne (w : Methods ι K) {i j : ι} (hji : j ≠ i) (pc : GetPc) :
    (w.setPc i pc).pc j = w.pc j := Function.update_of_ne hji _ _

/-- A step of a call leaves the others where they are, and what is in the dictionary there. -/
theorem GetStep.others (h : GetStep desc w i w') {j : ι} (hji : j ≠ i) : w'.pc j = w.pc j := by
  cases h <;> exact setPc_of_ne _ hji _

theorem GetStep.entries (h : GetStep desc w i w') :
    ∀ e ∈ w.methods.entries, e ∈ w'.methods.entries := by
  intro e he
  cases h with
  | add _ _ hentries => exact hentries ▸ List.mem_append_left _ he
  | find _ _ | miss _ | get _ _ | lose _ _ | make _ | missAgain _ _ | clash _ _ => exact he

theorem GetStep.keys (h : GetStep desc w i w') {k : K} (hmem : k ∈ w.methods.keys) :
    k ∈ w'.methods.keys := by
  obtain ⟨e, he, rfl⟩ := List.mem_map.mp hmem
  exact List.mem_map_of_mem (h.entries e he)

/-! ### What is returned -/

/-- What a call relies on, or has returned. -/
def Knows (methods : Dictionary K ℕ) (key : K) : GetPc → Prop
  | .found => key ∈ methods.keys
  | .returned v => methods.lookup key = some v
  | .threw e => e = .argument ∧ key ∈ methods.keys
  | .called | .missed | .created _ | .missedAgain _ => True

/-- No object is stored twice, the stored ones were made for their keys, and those that calls hold are
their own and not stored yet. -/
structure Stored (desc : ι → K) (w : Methods ι K) : Prop where
  knows : ∀ i, Knows w.methods (desc i) (w.pc i)
  values_nodup : (w.methods.entries.map Prod.snd).Nodup
  stored_made : ∀ e ∈ w.methods.entries, ∃ i, w.made[e.2]? = some i ∧ desc i = e.1
  held_made : ∀ i v, (w.pc i).held = some v → w.made[v]? = some i
  held_new : ∀ i v, (w.pc i).held = some v → v ∉ w.methods.entries.map Prod.snd

omit [DecidableEq ι] in
theorem Stored.lt (h : Stored desc w) {v : ℕ} (hv : v ∈ w.methods.entries.map Prod.snd) :
    v < w.made.length := by
  obtain ⟨e, he, rfl⟩ := List.mem_map.mp hv
  obtain ⟨j, hj, -⟩ := h.stored_made e he
  exact (List.getElem?_eq_some_iff.mp hj).1

theorem Knows.mono {methods methods' : Dictionary K ℕ} {key : K} {pc : GetPc}
    (h : Knows methods key pc) (hentries : ∀ e ∈ methods.entries, e ∈ methods'.entries) :
    Knows methods' key pc := by
  have hkeys : key ∈ methods.keys → key ∈ methods'.keys := by
    intro hmem
    obtain ⟨e, he, hkey⟩ := List.mem_map.mp hmem
    exact List.mem_map.mpr ⟨e, hentries e he, hkey⟩
  cases pc with
  | found => exact hkeys h
  | returned v =>
      exact Dictionary.lookup_eq_some_iff.mpr (hentries _ (Dictionary.lookup_eq_some_iff.mp h))
  | threw e => exact ⟨h.1, hkeys h.2⟩
  | called | missed | created _ | missedAgain _ => trivial

/-- What a call knows behind its own step. -/
theorem Stored.knows_self (h : Stored desc w) (hstep : GetStep desc w i w') :
    Knows w'.methods (desc i) (w'.pc i) := by
  cases hstep with
  | find _ hmem =>
      rw [setPc_self]
      exact hmem
  | get _ hlookup =>
      rw [setPc_self]
      exact hlookup
  | lose hpc hlookup =>
      have hmem := h.knows i
      rw [hpc] at hmem
      obtain ⟨v, hv⟩ := Dictionary.mem_keys_iff.mp hmem
      cases hlookup.symm.trans hv
  | add _ _ hentries =>
      rw [setPc_self]
      refine Dictionary.lookup_eq_some_iff.mpr ?_
      rw [setPc_methods, hentries]
      exact List.mem_append_right _ (List.mem_singleton_self _)
  | clash _ hmem =>
      rw [setPc_self]
      exact ⟨rfl, hmem⟩
  | miss _ | make _ | missAgain _ _ =>
      rw [setPc_self]
      trivial

/-- A step that makes no object and stores none. -/
theorem Stored.move (h : Stored desc w) {pc : GetPc} (hstep : GetStep desc w i (w.setPc i pc))
    (hheld : pc.held = none ∨ pc.held = (w.pc i).held) : Stored desc (w.setPc i pc) := by
  have hback : ∀ j v, ((w.setPc i pc).pc j).held = some v → (w.pc j).held = some v := by
    intro j v hv
    rw [setPc_pc] at hv
    split at hv
    · rename_i hji
      subst hji
      rcases hheld with hnone | heq
      · rw [hnone] at hv
        cases hv
      · exact heq ▸ hv
    · exact hv
  refine ⟨fun j => ?_, h.values_nodup, h.stored_made, fun j v hv => h.held_made j v (hback j v hv),
    fun j v hv => h.held_new j v (hback j v hv)⟩
  by_cases hji : j = i
  · subst hji
    exact h.knows_self hstep
  · rw [setPc_of_ne w hji]
    exact h.knows j

theorem Stored.make (h : Stored desc w) (hpc : w.pc i = .missed) :
    Stored desc ({ w with made := w.made ++ [i] }.setPc i (.created w.made.length)) := by
  have hback : ∀ j v,
      (({ w with made := w.made ++ [i] }.setPc i (.created w.made.length)).pc j).held = some v →
      (j = i ∧ v = w.made.length) ∨ (w.pc j).held = some v := by
    intro j v hv
    rw [setPc_pc] at hv
    split at hv
    · rename_i hji
      exact Or.inl ⟨hji, (Option.some.inj hv).symm⟩
    · exact Or.inr hv
  have hmade : ∀ {v : ℕ} {j : ι}, w.made[v]? = some j → (w.made ++ [i])[v]? = some j := by
    intro v j hv
    rw [List.getElem?_append_left (List.getElem?_eq_some_iff.mp hv).1]
    exact hv
  refine ⟨fun j => ?_, h.values_nodup, fun e he => ?_, fun j v hv => ?_, fun j v hv => ?_⟩
  · by_cases hji : j = i
    · subst hji
      exact h.knows_self (.make hpc)
    · rw [setPc_of_ne _ hji]
      exact h.knows j
  · obtain ⟨j, hj, hdesc⟩ := h.stored_made e he
    exact ⟨j, hmade hj, hdesc⟩
  · rcases hback j v hv with ⟨rfl, rfl⟩ | hheld
    · exact List.getElem?_concat_length
    · exact hmade (h.held_made j v hheld)
  · rcases hback j v hv with ⟨-, rfl⟩ | hheld
    · exact fun hmem => Nat.lt_irrefl _ (h.lt hmem)
    · exact h.held_new j v hheld

theorem Stored.add (h : Stored desc w) {v : ℕ} {methods : Dictionary K ℕ}
    (hpc : w.pc i = .missedAgain v) (hnot : desc i ∉ w.methods.keys)
    (hentries : methods.entries = w.methods.entries ++ [(desc i, v)]) :
    Stored desc ({ w with methods }.setPc i (.returned v)) := by
  have hheld : (w.pc i).held = some v := by rw [hpc]; rfl
  have hback : ∀ j u, (({ w with methods }.setPc i (.returned v)).pc j).held = some u →
      j ≠ i ∧ (w.pc j).held = some u := by
    intro j u hu
    rw [setPc_pc] at hu
    split at hu
    · cases hu
    · rename_i hji
      exact ⟨hji, hu⟩
  have hvalues : methods.entries.map Prod.snd = w.methods.entries.map Prod.snd ++ [v] := by
    rw [hentries, List.map_append]
    rfl
  refine ⟨fun j => ?_, ?_, fun e he => ?_, fun j u hu => h.held_made j u (hback j u hu).2,
    fun j u hu => ?_⟩
  · by_cases hji : j = i
    · subst hji
      exact h.knows_self (.add hpc hnot hentries)
    · rw [setPc_of_ne _ hji]
      exact (h.knows j).mono fun e he => hentries ▸ List.mem_append_left _ he
  · show (methods.entries.map Prod.snd).Nodup
    rw [hvalues, List.nodup_append]
    refine ⟨h.values_nodup, List.nodup_singleton v, ?_⟩
    rintro u hu u' hu' rfl
    obtain rfl := List.mem_singleton.mp hu'
    exact h.held_new i u hheld hu
  · rw [setPc_methods, hentries, List.mem_append, List.mem_singleton] at he
    rcases he with he | rfl
    · exact h.stored_made e he
    · exact ⟨i, h.held_made i v hheld, rfl⟩
  · obtain ⟨hji, hheld'⟩ := hback j u hu
    rw [setPc_methods, hvalues, List.mem_append, List.mem_singleton, not_or]
    refine ⟨h.held_new j u hheld', ?_⟩
    rintro rfl
    exact hji (Option.some.inj ((h.held_made j u hheld').symm.trans (h.held_made i u hheld)))

theorem Stored.step (h : Stored desc w) (hstep : w.getStep desc i = some w') : Stored desc w' := by
  have hcases := getStep_cases hstep
  cases hcases with
  | make hpc => exact h.make hpc
  | add hpc hnot hentries => exact h.add hpc hnot hentries
  | missAgain hpc hnot => exact h.move (.missAgain hpc hnot) (Or.inr (by rw [hpc]; rfl))
  | find hpc hmem => exact h.move (.find hpc hmem) (Or.inl rfl)
  | miss hpc => exact h.move (.miss hpc) (Or.inl rfl)
  | get hpc hlookup => exact h.move (.get hpc hlookup) (Or.inl rfl)
  | lose hpc hlookup => exact h.move (.lose hpc hlookup) (Or.inl rfl)
  | clash hpc hmem => exact h.move (.clash hpc hmem) (Or.inl rfl)

omit [DecidableEq ι] in
theorem stored_init (desc : ι → K) : Stored desc (init : Methods ι K) where
  knows := fun _ => trivial
  values_nodup := List.nodup_nil
  stored_made := fun _ he => absurd he List.not_mem_nil
  held_made := fun _ _ hv => nomatch hv
  held_new := fun _ _ hv => nomatch hv

theorem stored_run {acts : List ι} (hrun : run (getStep desc) init acts = some w) : Stored desc w :=
  run_invariant (fun _ _ _ h hstep => h.step hstep) (stored_init desc) hrun

/-- **One object for a descriptor.**  Whatever the order in which the calls take their steps: calls that
return have found or stored one object if their descriptors are equal, and two objects otherwise.  It was
made by a call with the descriptor, it is what the dictionary holds from then on, and a key that was
tested for is there when it is looked up. -/
theorem getMethod_shared (desc : ι → K) (before after : List ι) {w w' : Methods ι K}
    (hrun : run (getStep desc) init before = some w) (hrun' : run (getStep desc) w after = some w') :
    (∀ i v, w.pc i = .returned v → w'.methods.lookup (desc i) = some v
      ∧ ∃ j, w'.made[v]? = some j ∧ desc j = desc i)
      ∧ (∀ i j v u, w.pc i = .returned v → w'.pc j = .returned u → (v = u ↔ desc i = desc j))
      ∧ ∀ i, w'.pc i ≠ .threw .keyNotFound := by
  have hstored := stored_run hrun
  have hstored' : Stored desc w' := run_invariant (fun _ _ _ h hstep => h.step hstep) hstored hrun'
  have hentries : ∀ e ∈ w.methods.entries, e ∈ w'.methods.entries := fun e he =>
    run_invariant (I := fun w => e ∈ w.methods.entries)
      (fun _ _ _ he hstep => (getStep_cases hstep).entries e he) he hrun'
  have hkept : ∀ i v, w.pc i = .returned v → (desc i, v) ∈ w'.methods.entries := by
    intro i v hpc
    have hknows := hstored.knows i
    rw [hpc] at hknows
    exact hentries _ (Dictionary.lookup_eq_some_iff.mp hknows)
  refine ⟨fun i v hpc => ⟨Dictionary.lookup_eq_some_iff.mpr (hkept i v hpc),
    hstored'.stored_made _ (hkept i v hpc)⟩, fun i j v u hi hj => ?_, fun i hi => ?_⟩
  · have hv := hkept i v hi
    have hu := hstored'.knows j
    rw [hj] at hu
    constructor
    · rintro rfl
      exact congrArg Prod.fst (List.inj_on_of_nodup_map hstored'.values_nodup hv
        (Dictionary.lookup_eq_some_iff.mp hu) rfl)
    · intro hdesc
      rw [← Dictionary.lookup_eq_some_iff, hdesc] at hv
      exact Option.some.inj (hv.symm.trans hu)
  · have hknows := hstored'.knows i
    rw [hi] at hknows
    cases hknows.1

/-- Two calls with one descriptor and one with another, one step of each after the other. -/
def threeCalls : List ℕ := [0, 2, 0, 2, 0, 2, 0, 2, 1]

theorem getMethod_shared_three : ∃ w w' : Methods ℕ ℕ,
    run (getStep fun i => i / 2) init threeCalls = some w
      ∧ run (getStep fun i => i / 2) w [1] = some w'
      ∧ w.pc 0 = .returned 0 ∧ w'.pc 1 = .returned 0 ∧ w'.pc 2 = .returned 1
      ∧ w'.methods.lookup 0 = some 0 := by
  have hpcs : (run (getStep fun i => i / 2) (init : Methods ℕ ℕ) threeCalls).bind
      (fun w => (run (getStep fun i => i / 2) w [1]).map fun w' => (w.pc 0, w'.pc 1, w'.pc 2))
      = some (.returned 0, .returned 0, .returned 1) := by decide +kernel
  obtain ⟨w, hrun, hpcs⟩ := Option.bind_eq_some_iff.mp hpcs
  obtain ⟨w', hrun', hpcs⟩ := Option.map_eq_some_iff.mp hpcs
  obtain ⟨hzero, hpcs⟩ := Prod.mk.inj hpcs
  obtain ⟨hone, htwo⟩ := Prod.mk.inj hpcs
  exact ⟨w, w', hrun, hrun', hzero, hone, htwo,
    ((getMethod_shared (fun i => i / 2) threeCalls [1] hrun hrun').1 0 0 hzero).1⟩

/-! ### When a call throws -/

/-- No second test misses a key while another call with the key stands in front of `dict.Add`. -/
def TestsAlone (desc : ι → K) (w : Methods ι K) (i : ι) : Prop :=
  (∃ v, w.pc i = .created v) → desc i ∉ w.methods.keys →
    ∀ j v, w.pc j = .missedAgain v → desc j ≠ desc i

/-- What holds as long as every second test misses alone. -/
structure AddsAlone (desc : ι → K) (w : Methods ι K) : Prop where
  stored : Stored desc w
  new : ∀ i v, w.pc i = .missedAgain v → desc i ∉ w.methods.keys
  alone : ∀ i j v u, w.pc i = .missedAgain v → w.pc j = .missedAgain u → desc i = desc j → i = j
  not_threw : ∀ i e, w.pc i ≠ .threw e

/-- Two calls with one descriptor of which one is going to throw, or has thrown. -/
def Collides (desc : ι → K) (w : Methods ι K) (i j : ι) : Prop :=
  i ≠ j ∧ desc i = desc j
    ∧ ((∃ v u, w.pc i = .missedAgain v ∧ w.pc j = .missedAgain u)
      ∨ desc i ∈ w.methods.keys ∧ ((∃ v, w.pc i = .missedAgain v) ∨ ∃ v, w.pc j = .missedAgain v))

theorem AddsAlone.step (h : AddsAlone desc w) (halone : TestsAlone desc w i)
    (hstep : w.getStep desc i = some w') : AddsAlone desc w' := by
  have hcases := getStep_cases hstep
  have hstored := h.stored.step hstep
  -- a step to a place where nothing is about to be added
  have hmove : ∀ {pc : GetPc}, (∀ v, pc ≠ .missedAgain v) → (∀ e, pc ≠ .threw e) →
      w'.pc = Function.update w.pc i pc → w'.methods = w.methods → AddsAlone desc w' := by
    intro pc hadds hthrows hpc hmethods
    have hback : ∀ j v, w'.pc j = .missedAgain v → w.pc j = .missedAgain v := by
      intro j v hj
      rw [hpc, Function.update_apply] at hj
      split at hj
      · exact absurd hj (hadds v)
      · exact hj
    refine ⟨hstored, fun j v hj => hmethods ▸ h.new j v (hback j v hj),
      fun j k v u hj hk => h.alone j k v u (hback j v hj) (hback k u hk), fun j e hj => ?_⟩
    rw [hpc, Function.update_apply] at hj
    split at hj
    · exact hthrows e hj
    · exact h.not_threw j e hj
  cases hcases with
  | find _ _ | miss _ | get _ _ | make _ => exact hmove (by rintro _ ⟨⟩) (by rintro _ ⟨⟩) rfl rfl
  | lose hpc hlookup =>
      have hmem := h.stored.knows i
      rw [hpc] at hmem
      obtain ⟨v, hv⟩ := Dictionary.mem_keys_iff.mp hmem
      cases hlookup.symm.trans hv
  | clash hpc hmem => exact absurd hmem (h.new i _ hpc)
  | missAgain hpc hnot =>
      have hothers := halone ⟨_, hpc⟩ hnot
      refine ⟨hstored, fun j u hj => ?_, fun j k u u' hj hk hdesc => ?_, fun j e hj => ?_⟩
      · rw [setPc_pc] at hj
        split at hj
        · rename_i hji
          exact hji ▸ hnot
        · exact h.new j u hj
      · rw [setPc_pc] at hj hk
        split at hj <;> split at hk
        · rename_i hji hki
          exact hji.trans hki.symm
        · rename_i hji _
          exact absurd (hji ▸ hdesc.symm) (hothers k u' hk)
        · rename_i _ hki
          exact absurd (hki ▸ hdesc) (hothers j u hj)
        · exact h.alone j k u u' hj hk hdesc
      · rw [setPc_pc] at hj
        split at hj
        · cases hj
        · exact h.not_threw j e hj
  | @add v methods hpc hnot hentries =>
      have hback : ∀ j u, ({ w with methods }.setPc i (.returned v)).pc j = .missedAgain u →
          j ≠ i ∧ w.pc j = .missedAgain u := by
        intro j u hj
        rw [setPc_pc] at hj
        split at hj
        · cases hj
        · rename_i hji
          exact ⟨hji, hj⟩
      refine ⟨hstored, fun j u hj hmem => ?_,
        fun j k u u' hj hk => h.alone j k u u' (hback j u hj).2 (hback k u' hk).2, fun j e hj => ?_⟩
      · obtain ⟨hji, hj⟩ := hback j u hj
        rw [setPc_methods, Dictionary.keys, hentries, List.map_append, List.mem_append] at hmem
        rcases hmem with hmem | hmem
        · exact h.new j u hj hmem
        · exact hji (h.alone j i u v hj hpc (List.mem_singleton.mp hmem))
      · rw [setPc_pc] at hj
        split at hj
        · cases hj
        · exact h.not_threw j e hj

omit [DecidableEq ι] [DecidableEq K] in
theorem Collides.symm {j : ι} (h : Collides desc w i j) : Collides desc w j i := by
  obtain ⟨hne, hdesc, ⟨v, u, hi, hj⟩ | ⟨hmem, hor⟩⟩ := h
  · exact ⟨hne.symm, hdesc.symm, Or.inl ⟨u, v, hj, hi⟩⟩
  · exact ⟨hne.symm, hdesc.symm, Or.inr ⟨hdesc ▸ hmem, hor.symm⟩⟩

/-- The first of the two takes a step. -/
theorem Collides.step_left {j : ι} (h : Collides desc w i j) (hstep : GetStep desc w i w') :
    Collides desc w' i j ∨ w'.pc i = .threw .argument := by
  obtain ⟨hne, hdesc, hplaces⟩ := h
  have hother : w'.pc j = w.pc j := hstep.others hne.symm
  have hlast : ∀ v, w.pc i = .missedAgain v → desc i ∈ w'.methods.keys ∨ w'.pc i = .threw .argument := by
    intro v hpc
    cases hstep with
    | @add _ methods _ _ hentries =>
        left
        rw [setPc_methods, Dictionary.keys, hentries, List.map_append]
        exact List.mem_append_right _ (List.mem_singleton_self _)
    | clash _ _ => exact Or.inr (setPc_self _ _ _)
    | find hfound _ =>
        rcases hfound with hfound | ⟨u, hfound⟩
        · cases hpc.symm.trans hfound
        · cases hpc.symm.trans hfound
    | miss hpc' | get hpc' _ | lose hpc' _ | make hpc' | missAgain hpc' _ =>
        cases hpc.symm.trans hpc'
  rcases hplaces with ⟨v, u, hi, hj⟩ | ⟨hmem, ⟨v, hi⟩ | ⟨u, hj⟩⟩
  · rcases hlast v hi with hmem | hthrew
    · exact Or.inl ⟨hne, hdesc, Or.inr ⟨hmem, Or.inr ⟨u, hother.trans hj⟩⟩⟩
    · exact Or.inr hthrew
  · cases hstep with
    | clash _ _ => exact Or.inr (setPc_self _ _ _)
    | add _ hnot _ => exact absurd hmem hnot
    | find hfound _ =>
        rcases hfound with hfound | ⟨u, hfound⟩
        · cases hi.symm.trans hfound
        · cases hi.symm.trans hfound
    | miss hpc | get hpc _ | lose hpc _ | make hpc | missAgain hpc _ => cases hi.symm.trans hpc
  · exact Or.inl ⟨hne, hdesc, Or.inr ⟨hstep.keys hmem, Or.inr ⟨u, hother.trans hj⟩⟩⟩

theorem Collides.step {j k : ι} (h : Collides desc w i j) (hstep : GetStep desc w k w') :
    Collides desc w' i j ∨ ∃ l, w'.pc l = .threw .argument := by
  by_cases hki : k = i
  · subst hki
    exact (h.step_left hstep).imp_right fun hthrew => ⟨_, hthrew⟩
  by_cases hkj : k = j
  · subst hkj
    exact (h.symm.step_left hstep).imp Collides.symm fun hthrew => ⟨_, hthrew⟩
  · have hi : w'.pc i = w.pc i := hstep.others (Ne.symm hki)
    have hj : w'.pc j = w.pc j := hstep.others (Ne.symm hkj)
    obtain ⟨hne, hdesc, hplaces⟩ := h
    refine Or.inl ⟨hne, hdesc, ?_⟩
    rw [hi, hj]
    exact hplaces.imp_right fun hmem => ⟨hstep.keys hmem.1, hmem.2⟩

/-- A collision ends with an exception. -/
theorem threw_of_not_along {acts : List ι}
    (hrun : run (getStep desc) init acts = some w) (hended : ∀ i, (w.pc i).Ended)
    (hnot : ¬Along (getStep desc) (TestsAlone desc) init acts) : ∃ i, w.pc i = .threw .argument := by
  have hmark : (∃ i j, Collides desc w i j) ∨ ∃ i, w.pc i = .threw .argument := by
    refine run_of_not_along
      (B := fun w => (∃ i j, Collides desc w i j) ∨ ∃ i, w.pc i = .threw .argument)
      (fun w i w' hnot hstep => ?_) (fun w k w' hmark hstep => ?_) hnot hrun
    · simp only [TestsAlone, not_forall, not_not, exists_prop] at hnot
      obtain ⟨⟨v, hi⟩, habsent, j, u, hj, hdesc⟩ := hnot
      have hji : j ≠ i := by
        rintro rfl
        cases hi.symm.trans hj
      have hcases := getStep_cases hstep
      have hpc : w'.pc i = .missedAgain v := by
        cases hcases with
        | missAgain hpc _ =>
            obtain rfl := GetPc.created.inj (hi.symm.trans hpc)
            exact setPc_self _ _ _
        | find _ hmem => exact absurd hmem habsent
        | miss hpc | get hpc _ | lose hpc _ | make hpc | add hpc _ _ | clash hpc _ =>
            cases hi.symm.trans hpc
      exact Or.inl ⟨i, j, hji.symm, hdesc.symm, Or.inl ⟨v, u, hpc, (hcases.others hji).trans hj⟩⟩
    · rcases hmark with ⟨i, j, h⟩ | ⟨i, hi⟩
      · exact (h.step (getStep_cases hstep)).imp_left fun h => ⟨i, j, h⟩
      · by_cases hik : i = k
        · subst hik
          rw [getStep, hi] at hstep
          cases hstep
        · exact Or.inr ⟨i, ((getStep_cases hstep).others hik).trans hi⟩
  -- nobody is left in front of `dict.Add`
  have hleft : ∀ i v, w.pc i ≠ .missedAgain v := by
    intro i v hi
    have hend := hended i
    rw [hi] at hend
    exact hend
  rcases hmark with ⟨i, j, -, -, ⟨v, u, hi, -⟩ | ⟨-, ⟨v, hi⟩ | ⟨u, hj⟩⟩⟩ | hthrew
  · exact absurd hi (hleft i v)
  · exact absurd hi (hleft i v)
  · exact absurd hj (hleft j u)
  · exact hthrew

/-- **The second test does not make up for the missing lock.**  When all calls have ended, one has
thrown, from `dict.Add`, exactly if somewhere a second test has missed a key while another call with the
key stood in front of `dict.Add`. -/
theorem threw_iff (desc : ι → K) {acts : List ι} {w : Methods ι K}
    (hrun : run (getStep desc) init acts = some w) (hended : ∀ i, (w.pc i).Ended) :
    (∃ i, w.pc i = .threw .argument) ↔ ¬Along (getStep desc) (TestsAlone desc) init acts := by
  refine ⟨?_, threw_of_not_along hrun hended⟩
  rintro ⟨i, hthrew⟩ halong
  have hinit : AddsAlone desc (init : Methods ι K) :=
    ⟨stored_init desc, by rintro _ _ ⟨⟩, by rintro _ _ _ _ ⟨⟩, by rintro _ _ ⟨⟩⟩
  have halone := (always_of_along (Q := AddsAlone desc) (fun _ h => h)
    (fun _ _ _ h halone hstep => h.step halone hstep) hinit halong).behind hrun
  exact halone.not_threw i _ hthrew

/-- Two calls, one step of each after the other. -/
theorem threw_iff_two : ∃ w : Methods (Fin 2) ℕ,
    run (getStep fun _ => 7) init [0, 1, 0, 1, 0, 1, 0, 1] = some w
      ∧ w.pc 0 = .returned 0 ∧ w.pc 1 = .threw .argument
      ∧ ¬Along (getStep fun _ => 7) (TestsAlone fun _ => 7) (init : Methods (Fin 2) ℕ)
        [0, 1, 0, 1, 0, 1, 0, 1] := by
  have hpcs : (run (getStep fun _ => 7) (init : Methods (Fin 2) ℕ) [0, 1, 0, 1, 0, 1, 0, 1]).map
      (fun w => (w.pc 0, w.pc 1)) = some (.returned 0, .threw .argument) := by decide +kernel
  obtain ⟨w, hrun, hpc⟩ := Option.map_eq_some_iff.mp hpcs
  obtain ⟨hzero, hone⟩ := Prod.mk.inj hpc
  have hended : ∀ i, (w.pc i).Ended := by
    rw [Fin.forall_fin_two, hzero, hone]
    exact ⟨trivial, trivial⟩
  exact ⟨w, hrun, hzero, hone, (threw_iff (fun _ => 7) hrun hended).mp ⟨1, hone⟩⟩

end Methods

end TestExecutor
