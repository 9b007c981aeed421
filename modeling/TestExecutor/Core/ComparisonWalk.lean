import Mathlib.Data.Fintype.Prod
import Mathlib.Logic.Relation
import TestExecutor.Core.ComparerRuns

/-!
# The comparison as a walk

The recursive comparison visits one pair after the other, and stops at the first one that differs in
itself.  What it comes to depends on the set of the pairs that it has begun.

* `LooksUp`, `Differs`, `WalkStep` — a pair is looked up, differs, or is gone past;
* `EndsIn` — the answer of a walk, and the number of its steps;
* `answer_iff_endsIn` — **the comparison answers what the walk does**;
* `LookupsEnd`, `WalkEnds` — the methods end for every pair that the walk comes to, and so does it;
* `answers_iff` — when there is an answer;
* `Follows`, `walkEnds` — in a finite graph the walk ends, if no pair is different from itself.
-/

namespace TestExecutor

open TestExecutor.Library

variable {N T F P : Type} {G : ObjectGraph N T F P} [DecidableEq N] [DecidableEq T] [DecidableEq P]

/-! ### More fuel -/

section Fuel

variable {E : EqualityMethods G}

omit [DecidableEq N] in
theorem findEntry_mono {f g : N → N → N → N → Option Bool}
    (hfg : ∀ s t x y b, f s t x y = some b → g s t x y = some b) {hash : ℕ} {x y : N}
    {compared : Compared N} {found : Bool} (h : findEntry f hash x y compared = some found) :
    findEntry g hash x y compared = some found := by
  induction compared with
  | nil => exact h
  | cons entry compared ih =>
      obtain ⟨hash', s, t⟩ := entry
      rw [findEntry] at h ⊢
      split at h
      · rename_i hsame
        obtain ⟨equal, hequal, hrest⟩ := Option.bind_eq_some_iff.mp h
        rw [if_pos hsame, hfg s t x y equal hequal, Option.bind_some]
        cases equal with
        | true => exact hrest
        | false => exact ih hrest
      · rename_i hsame
        rw [if_neg hsame]
        exact ih h

omit [DecidableEq N] in
theorem compareAll_mono {f g : Compared N → N → N → Option (Bool × Compared N)}
    (hfg : ∀ c x y r, f c x y = some r → g c x y = some r) {compared : Compared N}
    {pairs : List (N × N)} {r : Bool × Compared N} (h : compareAll f compared pairs = some r) :
    compareAll g compared pairs = some r := by
  induction pairs generalizing compared with
  | nil => exact h
  | cons p pairs ih =>
      rw [compareAll] at h ⊢
      obtain ⟨r', hr', hrest⟩ := Option.bind_eq_some_iff.mp h
      rw [hfg _ _ _ _ hr', Option.bind_some]
      split at hrest
      · rename_i htrue
        rw [if_pos htrue]
        exact ih hrest
      · rename_i hfalse
        rw [if_neg hfalse]
        exact hrest

theorem addCompared_mono {fuel fuel' : ℕ} (hle : fuel ≤ fuel') {compared : Compared N} {x y : N}
    {r : Bool × Compared N} (h : addCompared E fuel compared x y = some r) :
    addCompared E fuel' compared x y = some r := by
  obtain ⟨hash, hhash, h⟩ := Option.bind_eq_some_iff.mp h
  obtain ⟨found, hfound, rfl⟩ := Option.map_eq_some_iff.mp h
  rw [addCompared, E.pairHash_mono hle hhash, Option.bind_some,
    findEntry_mono (fun _ _ _ _ _ hb => E.pairEquals_mono hle hb) hfound]
  rfl

theorem equals_succ {fuel : ℕ} : ∀ {compared : Compared N} {x y : N} {r : Bool × Compared N},
    ObjectComparer.equals E fuel compared x y = some r →
      ObjectComparer.equals E (fuel + 1) compared x y = some r := by
  induction fuel with
  | zero => intro compared x y r h; cases h
  | succ fuel ih =>
      intro compared x y r h
      by_cases hexpands : ∃ t, G.Expands t x y
      · obtain ⟨t, ht⟩ := hexpands
        rw [equals_expands ht] at h ⊢
        obtain ⟨r', hadd, h⟩ := Option.bind_eq_some_iff.mp h
        rw [addCompared_mono (Nat.le_succ fuel) hadd, Option.bind_some]
        split at h
        · rename_i hfound
          rw [if_pos hfound]
          exact h
        · rename_i hnew
          rw [if_neg hnew]
          split at h
          · rename_i hshape
            rw [if_pos hshape]
            exact compareAll_mono (fun _ _ _ _ hr => ih hr) h
          · rename_i hshape
            rw [if_neg hshape]
            exact h
      · rw [not_exists] at hexpands
        obtain ⟨b, heq, -⟩ := equals_settled (E := E) hexpands
        rw [heq] at h ⊢
        exact h

/-- More fuel does not change an answer. -/
theorem equals_mono {fuel fuel' : ℕ} (hle : fuel ≤ fuel') {compared : Compared N} {x y : N}
    {r : Bool × Compared N} (h : ObjectComparer.equals E fuel compared x y = some r) :
    ObjectComparer.equals E fuel' compared x y = some r := by
  induction hle with
  | refl => exact h
  | step _ ih => exact equals_succ ih

theorem compareAll_equals_mono {fuel fuel' : ℕ} (hle : fuel ≤ fuel') {compared : Compared N}
    {pairs : List (N × N)} {r : Bool × Compared N}
    (h : compareAll (ObjectComparer.equals E fuel) compared pairs = some r) :
    compareAll (ObjectComparer.equals E fuel') compared pairs = some r :=
  compareAll_mono (fun _ _ _ _ hr => equals_mono hle hr) h

/-- There is at most one answer. -/
theorem answer_unique {fuel fuel' : ℕ} {x y : N} {b b' : Bool}
    (h : ObjectsComparer.equals E fuel x y = some b)
    (h' : ObjectsComparer.equals E fuel' x y = some b') : b = b' := by
  obtain ⟨r, hr, rfl⟩ := Option.map_eq_some_iff.mp h
  obtain ⟨r', hr', rfl⟩ := Option.map_eq_some_iff.mp h'
  have hleft := equals_mono (le_max_left fuel fuel') hr
  have hright := equals_mono (le_max_right fuel fuel') hr'
  rw [Option.some.inj (hleft.symm.trans hright)]

end Fuel

/-! ### Walks -/

/-- The set of the pairs that have been begun, and the pairs that are still to be compared. -/
abbrev WalkState (N : Type) := Compared N × List (N × N)

def walkFrom (x y : N) : WalkState N := ([], [(x, y)])

section Steps

variable (E : EqualityMethods G)

/-- The lookup of a pair in the set ends, with its hash code and whether it has been found. -/
def LooksUp (compared : Compared N) (x y : N) (hash : ℕ) (found : Bool) : Prop :=
  ∃ fuel, E.pairHash fuel x y = some hash
    ∧ findEntry (E.pairEquals fuel) hash x y compared = some found

/-- A pair differs in itself: by null, by its types, by primitive values, or by the dimensions of its
arrays. -/
inductive Differs (compared : Compared N) (x y : N) : Prop
  | settled (hsettled : ∀ t, ¬G.Expands t x y) (h : ∀ R : N → N → Prop, ¬G.Matches R x y)
  | shape {t : T} {hash : ℕ} (ht : G.Expands t x y) (h : LooksUp E compared x y hash false)
      (hshape : ¬G.SameShape t x y)

/-- The walk goes past a pair, or begins its contents. -/
inductive WalkStep : WalkState N → WalkState N → Prop
  | same {compared : Compared N} {x y : N} {rest : List (N × N)} (hsettled : ∀ t, ¬G.Expands t x y)
      (h : ∀ R : N → N → Prop, G.Matches R x y) : WalkStep (compared, (x, y) :: rest) (compared, rest)
  | found {compared : Compared N} {x y : N} {rest : List (N × N)} {t : T} {hash : ℕ}
      (ht : G.Expands t x y) (h : LooksUp E compared x y hash true) :
      WalkStep (compared, (x, y) :: rest) (compared, rest)
  | contents {compared : Compared N} {x y : N} {rest : List (N × N)} {t : T} {hash : ℕ}
      (ht : G.Expands t x y) (h : LooksUp E compared x y hash false) (hshape : G.SameShape t x y) :
      WalkStep (compared, (x, y) :: rest) ((hash, x, y) :: compared, G.contentPairs t x y ++ rest)

/-- The walk ends after so many steps: with nothing left to compare, or at a pair that differs. -/
inductive EndsIn : ℕ → Bool → WalkState N → Prop
  | done {compared : Compared N} : EndsIn 0 true (compared, [])
  | differ {compared : Compared N} {x y : N} {rest : List (N × N)} (h : Differs E compared x y) :
      EndsIn 0 false (compared, (x, y) :: rest)
  | step {n : ℕ} {b : Bool} {s s' : WalkState N} (h : WalkStep E s s') (hrest : EndsIn n b s') :
      EndsIn (n + 1) b s

/-- The states that the walk from two roots comes to: all pairs in front have agreed. -/
def ComesTo (x y : N) (s : WalkState N) : Prop := Relation.ReflTransGen (WalkStep E) (walkFrom x y) s

/-- For every pair of objects that the walk comes to, `GetHashCode` ends, and so does `Equals` with the
entries of the same hash code, up to the first that is equal. -/
def LookupsEnd (x y : N) : Prop :=
  ∀ compared u v rest t, ComesTo E x y (compared, (u, v) :: rest) → G.Expands t u v →
    ∃ hash found, LooksUp E compared u v hash found

end Steps

variable {E : EqualityMethods G}

theorem LooksUp.unique {compared : Compared N} {x y : N} {hash hash' : ℕ} {found found' : Bool}
    (h : LooksUp E compared x y hash found) (h' : LooksUp E compared x y hash' found') :
    hash = hash' ∧ found = found' := by
  obtain ⟨fuel, hhash, hfound⟩ := h
  obtain ⟨fuel', hhash', hfound'⟩ := h'
  obtain rfl := E.pairHash_unique hhash hhash'
  have hleft := findEntry_mono
    (fun _ _ _ _ _ hb => E.pairEquals_mono (le_max_left fuel fuel') hb) hfound
  have hright := findEntry_mono
    (fun _ _ _ _ _ hb => E.pairEquals_mono (le_max_right fuel fuel') hb) hfound'
  exact ⟨rfl, Option.some.inj (hleft.symm.trans hright)⟩

theorem LooksUp.addCompared {compared : Compared N} {x y : N} {hash : ℕ} {found : Bool}
    (h : LooksUp E compared x y hash found) : ∃ fuel, addCompared E fuel compared x y
      = some (if found then (false, compared) else (true, (hash, x, y) :: compared)) := by
  obtain ⟨fuel, hhash, hfound⟩ := h
  exact ⟨fuel, addCompared_eq hhash hfound⟩

omit [DecidableEq N] [DecidableEq T] [DecidableEq P] in
theorem ObjectGraph.Expands.unique {t t' : T} {x y : N} (h : G.Expands t x y) (h' : G.Expands t' x y) :
    t = t' := Option.some.inj (h.expected.symm.trans h'.expected)

/-- The walk goes on in one way only. -/
theorem WalkStep.unique {s s₁ s₂ : WalkState N} (h₁ : WalkStep E s s₁) (h₂ : WalkStep E s s₂) : s₁ = s₂ := by
  cases h₁ with
  | same hsettled _ =>
      cases h₂ with
      | same _ _ => rfl
      | found ht _ => exact absurd ht (hsettled _)
      | contents ht _ _ => exact absurd ht (hsettled _)
  | found ht h =>
      cases h₂ with
      | same hsettled _ => exact absurd ht (hsettled _)
      | found _ _ => rfl
      | contents _ h' _ => exact absurd (h.unique h').2 (by decide)
  | contents ht h _ =>
      cases h₂ with
      | same hsettled _ => exact absurd ht (hsettled _)
      | found _ h' => exact absurd (h.unique h').2 (by decide)
      | contents ht' h' _ =>
          obtain rfl := ht.unique ht'
          obtain rfl := (h.unique h').1
          rfl

/-- It does not go on at a pair that differs. -/
theorem Differs.not_step {compared : Compared N} {x y : N} (h : Differs E compared x y)
    {rest : List (N × N)} {s' : WalkState N} : ¬WalkStep E (compared, (x, y) :: rest) s' := by
  intro hstep
  cases h with
  | settled hsettled hdiffer =>
      cases hstep with
      | same _ hmatch => exact hdiffer (fun _ _ => True) (hmatch _)
      | found ht _ => exact hsettled _ ht
      | contents ht _ _ => exact hsettled _ ht
  | shape ht h hshape =>
      cases hstep with
      | same hsettled _ => exact hsettled _ ht
      | found _ h' => exact absurd (h.unique h').2 (by decide)
      | contents ht' _ hshape' =>
          obtain rfl := ht.unique ht'
          exact hshape hshape'

/-- What a state ends with, the later ones end with. -/
theorem EndsIn.of_step {n : ℕ} {b : Bool} {s s' : WalkState N} (h : EndsIn E n b s)
    (hstep : WalkStep E s s') : ∃ m, n = m + 1 ∧ EndsIn E m b s' := by
  cases h with
  | done => cases hstep
  | differ hdiffer => exact absurd hstep hdiffer.not_step
  | step hstep' hrest =>
      obtain rfl := hstep'.unique hstep
      exact ⟨_, rfl, hrest⟩

theorem EndsIn.of_comesTo {n : ℕ} {b : Bool} {s s' : WalkState N} (h : EndsIn E n b s)
    (hwalk : Relation.ReflTransGen (WalkStep E) s s') : ∃ m, EndsIn E m b s' := by
  induction hwalk with
  | refl => exact ⟨n, h⟩
  | tail _ hstep ih =>
      obtain ⟨m, hm⟩ := ih
      obtain ⟨k, -, hk⟩ := hm.of_step hstep
      exact ⟨k, hk⟩

theorem EndsIn.acc {n : ℕ} {b : Bool} : ∀ {s : WalkState N}, EndsIn E n b s →
    Acc (fun s' s => WalkStep E s s') s := by
  induction n with
  | zero =>
      intro s h
      refine .intro s fun s' hstep => ?_
      obtain ⟨m, hm, -⟩ := h.of_step hstep
      exact absurd hm (by omega)
  | succ n ih =>
      intro s h
      refine .intro s fun s' hstep => ?_
      obtain ⟨m, hm, hrest⟩ := h.of_step hstep
      obtain rfl : n = m := by omega
      exact ih hrest

theorem EndsIn.looksUp {n : ℕ} {b : Bool} {compared : Compared N} {u v : N} {rest : List (N × N)}
    (h : EndsIn E n b (compared, (u, v) :: rest)) {t : T} (ht : G.Expands t u v) :
    ∃ hash found, LooksUp E compared u v hash found := by
  cases h with
  | differ hdiffer =>
      cases hdiffer with
      | settled hsettled _ => exact absurd ht (hsettled t)
      | shape _ h _ => exact ⟨_, _, h⟩
  | step hstep _ =>
      cases hstep with
      | same hsettled _ => exact absurd ht (hsettled t)
      | found _ h => exact ⟨_, _, h⟩
      | contents _ h _ => exact ⟨_, _, h⟩

/-- Where the lookup ends, the walk goes on, or it has come to its end. -/
theorem walk_progress {compared : Compared N} {u v : N} (rest : List (N × N))
    (h : ∀ t, G.Expands t u v → ∃ hash found, LooksUp E compared u v hash found) :
    Differs E compared u v ∨ ∃ s', WalkStep E (compared, (u, v) :: rest) s' := by
  by_cases hexpands : ∃ t, G.Expands t u v
  · obtain ⟨t, ht⟩ := hexpands
    obtain ⟨hash, found, hlook⟩ := h t ht
    cases found with
    | true => exact Or.inr ⟨_, .found ht hlook⟩
    | false =>
        by_cases hshape : G.SameShape t u v
        · exact Or.inr ⟨_, .contents ht hlook hshape⟩
        · exact Or.inl (.shape ht hlook hshape)
  · rw [not_exists] at hexpands
    obtain ⟨b, -, hmatch⟩ := equals_settled (E := E) hexpands
    cases b with
    | true => exact Or.inr ⟨_, .same hexpands fun R => (hmatch R).mpr rfl⟩
    | false => exact Or.inl (.settled hexpands fun R hm => Bool.false_ne_true ((hmatch R).mp hm))

/-! ### The comparison and the walk -/

omit [DecidableEq N] in
/-- The walk through pairs that are compared in turn. -/
theorem endsIn_of_compareAll {E : EqualityMethods G} [DecidableEq N]
    {equals : Compared N → N → N → Option (Bool × Compared N)}
    (htrue : ∀ c x y c', equals c x y = some (true, c') → ∀ n b rest, EndsIn E n b (c', rest) →
      ∃ m, EndsIn E m b (c, (x, y) :: rest))
    (hfalse : ∀ c x y c', equals c x y = some (false, c') → ∀ rest,
      ∃ m, EndsIn E m false (c, (x, y) :: rest)) {pairs : List (N × N)} :
    ∀ {compared compared' : Compared N} {b : Bool},
      compareAll equals compared pairs = some (b, compared') →
        (b = true → ∀ n b' rest, EndsIn E n b' (compared', rest) →
          ∃ m, EndsIn E m b' (compared, pairs ++ rest))
        ∧ (b = false → ∀ rest, ∃ m, EndsIn E m false (compared, pairs ++ rest)) := by
  induction pairs with
  | nil =>
      intro compared compared' b h
      obtain ⟨rfl, rfl⟩ := Prod.mk.inj (Option.some.inj h)
      exact ⟨fun _ n b' rest hends => ⟨n, hends⟩, fun hb => absurd hb (by decide)⟩
  | cons p pairs ih =>
      intro compared compared' b h
      rw [compareAll] at h
      obtain ⟨⟨b₁, c⟩, hr, h⟩ := Option.bind_eq_some_iff.mp h
      cases b₁ with
      | false =>
          obtain ⟨rfl, rfl⟩ := Prod.mk.inj (Option.some.inj h)
          exact ⟨fun hb => absurd hb (by decide), fun _ rest => hfalse _ _ _ _ hr (pairs ++ rest)⟩
      | true =>
          obtain ⟨hrest, hrest'⟩ := ih h
          constructor
          · intro hb n b' rest hends
            obtain ⟨m, hm⟩ := hrest hb n b' rest hends
            exact htrue _ _ _ _ hr m b' (pairs ++ rest) hm
          · intro hb rest
            obtain ⟨m, hm⟩ := hrest' hb rest
            exact htrue _ _ _ _ hr m false (pairs ++ rest) hm

/-- **An answer of the comparison** is one of the walk. -/
theorem endsIn_of_equals (fuel : ℕ) :
    (∀ c x y c', ObjectComparer.equals E fuel c x y = some (true, c') →
      ∀ n b rest, EndsIn E n b (c', rest) → ∃ m, EndsIn E m b (c, (x, y) :: rest))
    ∧ ∀ c x y c', ObjectComparer.equals E fuel c x y = some (false, c') →
      ∀ rest, ∃ m, EndsIn E m false (c, (x, y) :: rest) := by
  induction fuel with
  | zero =>
      constructor
      · intro c x y c' h
        cases h
      · intro c x y c' h
        cases h
  | succ fuel ih =>
      constructor
      · intro c x y c' h n b rest hends
        cases equals_cases h with
        | same hsettled hmatch => exact ⟨n + 1, .step (.same hsettled hmatch) hends⟩
        | found ht hhash hfound => exact ⟨n + 1, .step (.found ht ⟨fuel, hhash, hfound⟩) hends⟩
        | contents ht hhash hfound hshape hrun =>
            obtain ⟨m, hm⟩ := (endsIn_of_compareAll ih.1 ih.2 hrun).1 rfl n b rest hends
            exact ⟨m + 1, .step (.contents ht ⟨fuel, hhash, hfound⟩ hshape) hm⟩
      · intro c x y c' h rest
        cases equals_cases h with
        | differ hsettled hdiffer => exact ⟨0, .differ (.settled hsettled hdiffer)⟩
        | shape ht hhash hfound hshape => exact ⟨0, .differ (.shape ht ⟨fuel, hhash, hfound⟩ hshape)⟩
        | contents ht hhash hfound hshape hrun =>
            obtain ⟨m, hm⟩ := (endsIn_of_compareAll ih.1 ih.2 hrun).2 rfl rest
            exact ⟨m + 1, .step (.contents ht ⟨fuel, hhash, hfound⟩ hshape) hm⟩

/-- Some amount of fuel is enough to compare the pairs in turn. -/
def Compares (E : EqualityMethods G) (pairs : List (N × N)) (compared : Compared N) (b : Bool)
    (compared' : Compared N) : Prop :=
  ∃ fuel, compareAll (ObjectComparer.equals E fuel) compared pairs = some (b, compared')

theorem Compares.cons {pairs : List (N × N)} {c c₁ c' : Compared N} {x y : N} {b : Bool} {fuel : ℕ}
    (hr : ObjectComparer.equals E fuel c x y = some (true, c₁)) (h : Compares E pairs c₁ b c') :
    Compares E ((x, y) :: pairs) c b c' := by
  obtain ⟨fuel', h⟩ := h
  refine ⟨max fuel fuel', ?_⟩
  rw [compareAll, equals_mono (le_max_left fuel fuel') hr]
  exact compareAll_equals_mono (le_max_right fuel fuel') h

theorem Compares.cons_false {pairs : List (N × N)} {c c' : Compared N} {x y : N} {fuel : ℕ}
    (hr : ObjectComparer.equals E fuel c x y = some (false, c')) :
    Compares E ((x, y) :: pairs) c false c' := by
  refine ⟨fuel, ?_⟩
  rw [compareAll, hr]
  rfl

/-- A pair that differs is found to be different. -/
theorem Differs.equals {c : Compared N} {x y : N} (h : Differs E c x y) :
    ∃ fuel c', ObjectComparer.equals E fuel c x y = some (false, c') := by
  cases h with
  | settled hsettled hdiffer =>
      obtain ⟨b, heq, hmatch⟩ := equals_settled (E := E) hsettled
      cases b with
      | true => exact absurd ((hmatch fun _ _ => True).mpr rfl) (hdiffer _)
      | false => exact ⟨1, c, heq 0 c⟩
  | @shape t hash ht h hshape =>
      obtain ⟨fuel, hadd⟩ := h.addCompared
      refine ⟨fuel + 1, (hash, x, y) :: c, ?_⟩
      rw [equals_expands ht, hadd]
      exact if_neg hshape

/-- Pairs that the walk goes past are found to be equal, or their contents decide. -/
theorem equals_of_same {c : Compared N} {x y : N} (hsettled : ∀ t, ¬G.Expands t x y)
    (h : ∀ R : N → N → Prop, G.Matches R x y) :
    ∃ fuel, ObjectComparer.equals E fuel c x y = some (true, c) := by
  obtain ⟨b, heq, hmatch⟩ := equals_settled (E := E) hsettled
  obtain rfl := (hmatch fun _ _ => True).mp (h _)
  exact ⟨1, heq 0 c⟩

theorem equals_of_found {c : Compared N} {x y : N} {t : T} {hash : ℕ} (ht : G.Expands t x y)
    (h : LooksUp E c x y hash true) : ∃ fuel, ObjectComparer.equals E fuel c x y = some (true, c) := by
  obtain ⟨fuel, hadd⟩ := h.addCompared
  refine ⟨fuel + 1, ?_⟩
  rw [equals_expands ht, hadd]
  rfl

theorem equals_of_contents {c c' : Compared N} {x y : N} {t : T} {hash : ℕ} {b : Bool}
    (ht : G.Expands t x y) (h : LooksUp E c x y hash false) (hshape : G.SameShape t x y)
    (hrun : Compares E (G.contentPairs t x y) ((hash, x, y) :: c) b c') :
    ∃ fuel, ObjectComparer.equals E fuel c x y = some (b, c') := by
  obtain ⟨fuel, hadd⟩ := h.addCompared
  obtain ⟨fuel', hrun⟩ := hrun
  refine ⟨max fuel fuel' + 1, ?_⟩
  rw [equals_expands ht, addCompared_mono (le_max_left fuel fuel') hadd]
  exact (if_pos hshape).trans (compareAll_equals_mono (le_max_right fuel fuel') hrun)

/-- **The end of a walk** is the answer for the pairs in front, or comes behind them. -/
theorem compares_of_endsIn (n : ℕ) : ∀ {pairs rest : List (N × N)} {c : Compared N} {b : Bool},
    EndsIn E n b (c, pairs ++ rest) →
      (∃ c' m, m ≤ n ∧ Compares E pairs c true c' ∧ EndsIn E m b (c', rest))
      ∨ (b = false ∧ ∃ c', Compares E pairs c false c') := by
  induction n using Nat.strong_induction_on with
  | _ n ih =>
      intro pairs rest c b h
      cases pairs with
      | nil => exact Or.inl ⟨c, n, le_refl n, ⟨0, rfl⟩, h⟩
      | cons p pairs =>
          obtain ⟨x, y⟩ := p
          -- a pair that is found to be equal leaves the ones behind it
          have hpast : ∀ fuel c₁ m, m < n → ObjectComparer.equals E fuel c x y = some (true, c₁) →
              EndsIn E m b (c₁, pairs ++ rest) →
                (∃ c' m', m' ≤ n ∧ Compares E ((x, y) :: pairs) c true c' ∧ EndsIn E m' b (c', rest))
                ∨ (b = false ∧ ∃ c', Compares E ((x, y) :: pairs) c false c') := by
            intro fuel c₁ m hm hr hends
            rcases ih m hm hends with ⟨c', m', hle, hrun, hends'⟩ | ⟨hb, c', hrun⟩
            · exact Or.inl ⟨c', m', by omega, hrun.cons hr, hends'⟩
            · exact Or.inr ⟨hb, c', hrun.cons hr⟩
          cases h with
          | differ hdiffer =>
              obtain ⟨fuel, c', hr⟩ := hdiffer.equals
              exact Or.inr ⟨rfl, c', .cons_false hr⟩
          | @step m _ _ _ hstep hends =>
              cases hstep with
              | same hsettled hmatch =>
                  obtain ⟨fuel, hr⟩ := equals_of_same (E := E) (c := c) hsettled hmatch
                  exact hpast fuel c m (Nat.lt_succ_self m) hr hends
              | found ht hlook =>
                  obtain ⟨fuel, hr⟩ := equals_of_found ht hlook
                  exact hpast fuel c m (Nat.lt_succ_self m) hr hends
              | contents ht hlook hshape =>
                  rcases ih m (Nat.lt_succ_self m) hends with
                    ⟨c₁, m', hle, hrun, hends'⟩ | ⟨hb, c', hrun⟩
                  · obtain ⟨fuel, hr⟩ := equals_of_contents ht hlook hshape hrun
                    exact hpast fuel c₁ m' (by omega) hr hends'
                  · obtain ⟨fuel, hr⟩ := equals_of_contents ht hlook hshape hrun
                    exact Or.inr ⟨hb, c', .cons_false hr⟩

/-- **The comparison answers what the walk does.** -/
theorem answer_iff_endsIn {x y : N} {b : Bool} :
    (∃ fuel, ObjectsComparer.equals E fuel x y = some b) ↔ ∃ n, EndsIn E n b (walkFrom x y) := by
  constructor
  · rintro ⟨fuel, hrun⟩
    obtain ⟨⟨b, c⟩, hr, rfl⟩ := Option.map_eq_some_iff.mp hrun
    cases b with
    | true => exact (endsIn_of_equals fuel).1 [] x y c hr 0 true [] .done
    | false => exact (endsIn_of_equals fuel).2 [] x y c hr []
  · rintro ⟨n, hends⟩
    have hcompares : ∃ c, Compares E [(x, y)] [] b c := by
      have hroots : EndsIn E n b ([], [(x, y)] ++ []) := hends
      rcases compares_of_endsIn n hroots with ⟨c, m, -, hrun, hends'⟩ | ⟨rfl, c, hrun⟩
      · cases hends' with
        | done => exact ⟨c, hrun⟩
        | step hstep _ => cases hstep
      · exact ⟨c, hrun⟩
    obtain ⟨c, fuel, hrun⟩ := hcompares
    refine ⟨fuel, ?_⟩
    rw [compareAll] at hrun
    obtain ⟨⟨b', c'⟩, hr, hrun⟩ := Option.bind_eq_some_iff.mp hrun
    rw [ObjectsComparer.equals, hr]
    cases b' with
    | true => exact congrArg (Option.map Prod.fst) hrun
    | false => exact congrArg (Option.map Prod.fst) hrun

/-! ### When there is an answer -/

/-- The walk comes to an end, or to a lookup that does not. -/
def WalkEnds (E : EqualityMethods G) (x y : N) : Prop :=
  Acc (fun s' s => WalkStep E s s') (walkFrom x y)

theorem exists_endsIn {x y : N} (h : LookupsEnd E x y) {s : WalkState N}
    (hacc : Acc (fun s' s => WalkStep E s s') s) (hs : ComesTo E x y s) :
    ∃ n b, EndsIn E n b s := by
  induction hacc with
  | intro s _ ih =>
      obtain ⟨compared, todo⟩ := s
      cases todo with
      | nil => exact ⟨0, true, .done⟩
      | cons p rest =>
          obtain ⟨u, v⟩ := p
          rcases walk_progress rest (h compared u v rest · hs) with hdiffer | ⟨s', hstep⟩
          · exact ⟨0, false, .differ hdiffer⟩
          · obtain ⟨n, b, hends⟩ := ih s' hstep (hs.tail hstep)
            exact ⟨n + 1, b, .step hstep hends⟩

/-- **There is an answer** exactly if all lookups end, and the walk does. -/
theorem answers_iff {x y : N} : (∃ fuel b, ObjectsComparer.equals E fuel x y = some b)
    ↔ LookupsEnd E x y ∧ WalkEnds E x y := by
  constructor
  · rintro ⟨fuel, b, hrun⟩
    obtain ⟨n, hends⟩ := answer_iff_endsIn.mp ⟨fuel, hrun⟩
    refine ⟨fun compared u v rest t hcomes ht => ?_, hends.acc⟩
    obtain ⟨m, hm⟩ := hends.of_comesTo hcomes
    exact hm.looksUp ht
  · rintro ⟨hlookups, hacc⟩
    obtain ⟨n, b, hends⟩ := exists_endsIn hlookups hacc .refl
    obtain ⟨fuel, hrun⟩ := answer_iff_endsIn.mpr ⟨n, hends⟩
    exact ⟨fuel, b, hrun⟩

/-- A walk that has come to a pair that differs has a negative answer. -/
theorem EndsIn.eq_false {n : ℕ} {b : Bool} {s : WalkState N} (h : EndsIn E n b s) {compared : Compared N}
    {u v : N} {rest : List (N × N)}
    (hwalk : Relation.ReflTransGen (WalkStep E) s (compared, (u, v) :: rest))
    (hdiffer : Differs E compared u v) : b = false := by
  obtain ⟨m, hm⟩ := h.of_comesTo hwalk
  cases hm with
  | differ _ => rfl
  | step hstep _ => exact absurd hstep hdiffer.not_step

/-- A negative answer comes from a pair that differs. -/
theorem EndsIn.exists_differs {n : ℕ} : ∀ {s : WalkState N}, EndsIn E n false s →
    ∃ compared u v rest, Relation.ReflTransGen (WalkStep E) s (compared, (u, v) :: rest)
      ∧ Differs E compared u v := by
  induction n with
  | zero =>
      intro s h
      cases h with
      | differ hdiffer => exact ⟨_, _, _, _, .refl, hdiffer⟩
  | succ n ih =>
      intro s h
      cases h with
      | step hstep hrest =>
          obtain ⟨compared, u, v, rest, hwalk, hdiffer⟩ := ih hrest
          exact ⟨compared, u, v, rest, .head hstep hwalk, hdiffer⟩

/-! ### Finite graphs -/

variable {S : N → N → Prop}

/-- What has been begun, and what is still to be compared, are related. -/
def Follows (E : EqualityMethods G) (S : N → N → Prop) (s : WalkState N) : Prop :=
  Entries E S s.1 ∧ ∀ p ∈ s.2, S p.1 p.2

theorem Follows.step (hclosed : IsClosed G S) {s s' : WalkState N} (h : Follows E S s)
    (hstep : WalkStep E s s') : Follows E S s' := by
  obtain ⟨hentries, htodo⟩ := h
  cases hstep with
  | same _ _ => exact ⟨hentries, fun p hp => htodo p (List.mem_cons_of_mem _ hp)⟩
  | found _ _ => exact ⟨hentries, fun p hp => htodo p (List.mem_cons_of_mem _ hp)⟩
  | @contents _ u v _ t _ ht hlook hshape =>
      have huv : S u v := htodo (u, v) List.mem_cons_self
      obtain ⟨fuel, hhash, -⟩ := hlook
      refine ⟨hentries.cons ⟨huv, t, ht⟩ hhash, fun p hp => ?_⟩
      rcases List.mem_append.mp hp with hp | hp
      · exact hclosed t u v huv ht hshape p hp
      · exact htodo p (List.mem_cons_of_mem _ hp)

theorem ComesTo.follows {x y : N} {s : WalkState N} (h : ComesTo E x y s) :
    Follows E (ComparedFrom G x y) s := by
  induction h with
  | refl =>
      refine ⟨fun _ _ _ hmem => absurd hmem List.not_mem_nil, fun p hp => ?_⟩
      obtain rfl := List.mem_singleton.mp hp
      exact .roots
  | tail _ hstep ih => exact ih.step (comparedFrom_isClosed x y) hstep

omit [DecidableEq N] in
/-- What is not found is not equal to any entry with its hash code. -/
theorem findEntry_false {equals : N → N → N → N → Option Bool} {hash : ℕ} {x y : N}
    {compared : Compared N} (h : findEntry equals hash x y compared = some false) :
    ∀ s t, (hash, s, t) ∈ compared → equals s t x y = some false := by
  induction compared with
  | nil => exact fun s t hmem => absurd hmem List.not_mem_nil
  | cons entry compared ih =>
      obtain ⟨hash', s', t'⟩ := entry
      intro s t hmem
      rw [findEntry] at h
      split at h
      · obtain ⟨equal, hequal, h⟩ := Option.bind_eq_some_iff.mp h
        cases equal with
        | true => cases h
        | false =>
            rcases List.mem_cons.mp hmem with heq | hmem
            · obtain ⟨-, rfl, rfl⟩ : hash = hash' ∧ s = s' ∧ t = t' := by simpa using heq
              exact hequal
            · exact ih h s t hmem
      · rename_i hdiffer
        rcases List.mem_cons.mp hmem with heq | hmem
        · exact absurd (Prod.mk.inj heq).1.symm hdiffer
        · exact ih h s t hmem

/-- The search ends if `Equals` does with the entries of the hash code. -/
theorem findEntry_ends {hash : ℕ} {x y : N} {compared : Compared N}
    (hends : ∀ s t, (hash, s, t) ∈ compared → ∃ k b, E.pairEquals k s t x y = some b) :
    ∃ k found, findEntry (E.pairEquals k) hash x y compared = some found := by
  induction compared with
  | nil => exact ⟨0, false, rfl⟩
  | cons entry compared ih =>
      obtain ⟨hash', s, t⟩ := entry
      obtain ⟨k, found, hfound⟩ := ih fun s t hmem => hends s t (List.mem_cons_of_mem _ hmem)
      by_cases hsame : hash' = hash
      · subst hsame
        obtain ⟨l, b, hb⟩ := hends s t List.mem_cons_self
        refine ⟨max k l, if b then true else found, ?_⟩
        rw [findEntry, if_pos rfl, E.pairEquals_mono (le_max_right k l) hb, Option.bind_some]
        cases b with
        | true => rfl
        | false =>
            exact findEntry_mono (fun _ _ _ _ _ hb => E.pairEquals_mono (le_max_left k l) hb) hfound
      · exact ⟨k, found, by rw [findEntry, if_neg hsame, hfound]⟩

/-- All lookups end if the methods do, wherever the comparison could come to. -/
theorem lookupsEnd_of_methodsEnd {x y : N} (h : MethodsEnd E (ComparedFrom G x y)) :
    LookupsEnd E x y := by
  intro compared u v rest t hcomes ht
  obtain ⟨hentries, htodo⟩ := hcomes.follows
  have hadded : IsAdded G (ComparedFrom G x y) u v := ⟨htodo (u, v) List.mem_cons_self, t, ht⟩
  obtain ⟨k, hash, hhash⟩ := h.hash u v hadded
  have hequals : ∀ s s', (hash, s, s') ∈ compared → ∃ l b, E.pairEquals l s s' u v = some b := by
    intro s s' hmem
    obtain ⟨hadded', l, hhash'⟩ := hentries hash s s' hmem
    exact h.equals s s' u v hadded' hadded ⟨max k l, hash, E.pairHash_mono (le_max_right k l) hhash',
      E.pairHash_mono (le_max_left k l) hhash⟩
  obtain ⟨l, found, hfound⟩ := findEntry_ends hequals
  exact ⟨hash, found, max k l, E.pairHash_mono (le_max_left k l) hhash,
    findEntry_mono (fun s t x y b hb => E.pairEquals_mono (le_max_right k l) hb) hfound⟩

/-- No pair that is compared is different from itself. -/
def NeverDiffers (E : EqualityMethods G) (S : N → N → Prop) : Prop :=
  ∀ u v, IsAdded G S u v → ∀ fuel, E.pairEquals fuel u v u v ≠ some false

theorem IsReflexive.neverDiffers (h : IsReflexive E S) : NeverDiffers E S := by
  intro u v huv fuel hfalse
  obtain ⟨fuel', htrue⟩ := h u v huv
  have hleft := E.pairEquals_mono (le_max_left fuel fuel') hfalse
  rw [E.pairEquals_mono (le_max_right fuel fuel') htrue] at hleft
  exact absurd (Option.some.inj hleft) (by decide)

section Finite

variable [Fintype N]

/-- How many pairs are not in the set. -/
def uncompared (compared : Compared N) : ℕ :=
  (Finset.univ.filter fun p : N × N => p ∉ compared.map Prod.snd).card

theorem uncompared_cons_lt {compared : Compared N} {hash : ℕ} {x y : N}
    (h : ¬Visited compared x y) : uncompared ((hash, x, y) :: compared) < uncompared compared := by
  refine Finset.card_lt_card (Finset.ssubset_iff_of_subset ?_ |>.mpr ⟨(x, y), ?_, ?_⟩)
  · intro p hp
    rw [Finset.mem_filter] at hp ⊢
    exact ⟨hp.1, fun hmem => hp.2 (List.mem_cons_of_mem _ hmem)⟩
  · refine Finset.mem_filter.mpr ⟨Finset.mem_univ _, fun hmem => h ?_⟩
    obtain ⟨⟨hash', p⟩, hmem, rfl⟩ := List.mem_map.mp hmem
    exact ⟨hash', hmem⟩
  · intro hp
    exact (Finset.mem_filter.mp hp).2 List.mem_cons_self

/-- **The walk ends**: it goes past a pair, or has more pairs in the set. -/
theorem walkEnds_of_follows (hclosed : IsClosed G S) (hself : NeverDiffers E S) (k : ℕ) :
    ∀ compared todo, uncompared compared = k → Follows E S (compared, todo) →
      Acc (fun s' s => WalkStep E s s') (compared, todo) := by
  induction k using Nat.strong_induction_on with
  | _ k ih =>
      intro compared todo hk hfollows
      induction todo with
      | nil => exact .intro _ fun s' hstep => by cases hstep
      | cons p todo ihtodo =>
          refine .intro _ fun s' hstep => ?_
          have hfollows' := hfollows.step hclosed hstep
          cases hstep with
          | same _ _ => exact ihtodo hfollows'
          | found _ _ => exact ihtodo hfollows'
          | @contents _ u v _ t hash ht hlook hshape =>
              have hadded : IsAdded G S u v := ⟨hfollows.2 (u, v) List.mem_cons_self, t, ht⟩
              obtain ⟨fuel, hhash, hfound⟩ := hlook
              have hnew : ¬Visited compared u v := by
                rintro ⟨hash', hmem⟩
                obtain ⟨-, fuel', hhash'⟩ := hfollows.1 hash' u v hmem
                obtain rfl := E.pairHash_unique hhash hhash'
                exact hself u v hadded fuel (findEntry_false hfound u v hmem)
              exact ih _ (hk ▸ uncompared_cons_lt hnew) _ _ rfl hfollows'

theorem walkEnds {x y : N} (hself : NeverDiffers E (ComparedFrom G x y)) : WalkEnds E x y :=
  walkEnds_of_follows (comparedFrom_isClosed x y) hself _ _ _ rfl
    (ComesTo.follows (E := E) .refl)

end Finite

end TestExecutor
