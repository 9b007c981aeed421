import TestExecutor.Core.ObjectsComparer

/-!
# Runs of the comparison

What an answer of the comparison says, for any methods of the objects.

* `objectHash_mono`, `objectEquals_mono`, `pairHash_mono`, `pairEquals_mono` — more fuel does not
  change a result;
* `IsClosed`, `ComparedFrom` — the pairs to which a comparison can come;
* `equals_false` — different graphs are not bisimilar;
* `Justifies`, `equals_true` — the pairs in the set justify each other;
* `comparer_correct` — an answer is right if what is found in the set is bisimilar to what is looked
  for;
* `MethodsEnd`, `IsReflexive` — methods with which there is an answer.
-/

namespace TestExecutor

open TestExecutor.Library

variable {N T F P : Type} {G : ObjectGraph N T F P}

/-! ### More fuel -/

theorem allEqual_mono {f g : N → N → Option Bool} (hfg : ∀ a b r, f a b = some r → g a b = some r)
    {pairs : List (N × N)} {r : Bool} (h : allEqual f pairs = some r) : allEqual g pairs = some r := by
  induction pairs with
  | nil => exact h
  | cons p pairs ih =>
      rw [allEqual] at h ⊢
      obtain ⟨equal, hequal, hrest⟩ := Option.bind_eq_some_iff.mp h
      rw [hfg p.1 p.2 equal hequal, Option.bind_some]
      cases equal with
      | false => exact hrest
      | true => exact ih hrest

theorem mapM_mono {α β : Type} {f g : α → Option β} (hfg : ∀ a b, f a = some b → g a = some b)
    {as : List α} {bs : List β} (h : as.mapM f = some bs) : as.mapM g = some bs := by
  induction as generalizing bs with
  | nil => exact h
  | cons a as ih =>
      rw [List.mapM_cons] at h ⊢
      obtain ⟨b, hb, h⟩ := Option.bind_eq_some_iff.mp h
      obtain ⟨rest, hrest, h⟩ := Option.bind_eq_some_iff.mp h
      rw [hfg a b hb, ih hrest]
      exact h

namespace EqualityMethods

section Hash

variable (E : EqualityMethods G)

/-- The hash code of a struct is the default one. -/
def HashesFields (t : T) (x : N) : Prop :=
  G.getType x = some t ∧ G.kind t = .struct ∧ E.getHashCode x = none

variable {E}

theorem objectHash_struct {t : T} {x : N} (h : E.HashesFields t x) (fuel : ℕ) :
    E.objectHash (fuel + 1) x
      = ((E.hashedFields x).mapM fun f => E.objectHash fuel (G.getValue f x)).map (E.structHash t) := by
  obtain ⟨hx, ht, hhash⟩ := h
  simp only [objectHash, hx, ht, hhash]

/-- Other hash codes come at once, or never. -/
theorem objectHash_other {x : N} (h : ∀ t, ¬E.HashesFields t x) :
    ∃ hash, (∀ fuel, E.objectHash (fuel + 1) x = hash)
      ∧ (E.getHashCode x ≠ some none → ∃ code, hash = some code) := by
  cases hx : G.getType x with
  | none => exact ⟨some 0, fun fuel => by simp only [objectHash, hx], fun _ => ⟨0, rfl⟩⟩
  | some t =>
      cases ht : G.kind t with
      | struct =>
          cases hhash : E.getHashCode x with
          | none => exact absurd ⟨hx, ht, hhash⟩ (h t)
          | some hash =>
              refine ⟨hash, fun fuel => by simp only [objectHash, hx, ht, hhash], fun hends => ?_⟩
              exact Option.ne_none_iff_exists'.mp fun hnone => hends (congrArg some hnone)
      | object =>
          refine ⟨(E.getHashCode x).getD (some (E.identityHash x)), fun fuel => by
            simp only [objectHash, hx, ht], fun hends => ?_⟩
          cases hhash : E.getHashCode x with
          | none => exact ⟨_, rfl⟩
          | some hash =>
              rw [hhash] at hends
              exact Option.ne_none_iff_exists'.mp fun hnone => hends (congrArg some hnone)
      | array =>
          exact ⟨some (E.identityHash x), fun fuel => by simp only [objectHash, hx, ht],
            fun _ => ⟨_, rfl⟩⟩
      | _ =>
          exact ⟨some (E.payloadHash t (G.payload x)), fun fuel => by simp only [objectHash, hx, ht],
            fun _ => ⟨_, rfl⟩⟩

theorem objectHash_succ {fuel : ℕ} {x : N} {hash : ℕ} (h : E.objectHash fuel x = some hash) :
    E.objectHash (fuel + 1) x = some hash := by
  induction fuel generalizing x hash with
  | zero => cases h
  | succ fuel ih =>
      by_cases hfields : ∃ t, E.HashesFields t x
      · obtain ⟨t, hfields⟩ := hfields
        rw [objectHash_struct hfields] at h ⊢
        obtain ⟨hashes, hhashes, rfl⟩ := Option.map_eq_some_iff.mp h
        rw [mapM_mono (fun f hash hf => ih hf) hhashes]
        rfl
      · rw [not_exists] at hfields
        obtain ⟨hash', heq, -⟩ := objectHash_other hfields
        rw [heq, ← h, heq]

theorem objectHash_mono {fuel fuel' : ℕ} (hle : fuel ≤ fuel') {x : N} {hash : ℕ}
    (h : E.objectHash fuel x = some hash) : E.objectHash fuel' x = some hash := by
  induction hle with
  | refl => exact h
  | step _ ih => exact objectHash_succ ih

theorem pairHash_eq {fuel : ℕ} {x y : N} {hash hash' : ℕ} (hx : E.objectHash fuel x = some hash)
    (hy : E.objectHash fuel y = some hash') :
    E.pairHash fuel x y = some (E.combine hash hash') := by
  rw [pairHash, hx, Option.bind_some, hy]
  rfl

theorem pairHash_mono {fuel fuel' : ℕ} (hle : fuel ≤ fuel') {x y : N} {hash : ℕ}
    (h : E.pairHash fuel x y = some hash) : E.pairHash fuel' x y = some hash := by
  obtain ⟨hash₁, h₁, h⟩ := Option.bind_eq_some_iff.mp h
  obtain ⟨hash₂, h₂, rfl⟩ := Option.map_eq_some_iff.mp h
  exact pairHash_eq (objectHash_mono hle h₁) (objectHash_mono hle h₂)

theorem pairHash_unique {fuel fuel' : ℕ} {x y : N} {hash hash' : ℕ}
    (h : E.pairHash fuel x y = some hash) (h' : E.pairHash fuel' x y = some hash') :
    hash = hash' := by
  have hleft := pairHash_mono (le_max_left fuel fuel') h
  have hright := pairHash_mono (le_max_right fuel fuel') h'
  exact Option.some.inj (hleft.symm.trans hright)

end Hash

variable [DecidableEq N] [DecidableEq T] [DecidableEq P]

section Equals

variable (E : EqualityMethods G)

/-- The `Equals` of a struct is the default one. -/
def ComparesFields (t : T) (x : N) : Prop :=
  G.getType x = some t ∧ G.kind t = .struct ∧ E.equals x = none

variable {E}

theorem objectEquals_struct {t : T} {x : N} (h : E.ComparesFields t x) (fuel : ℕ) (y : N) :
    E.objectEquals (fuel + 1) x y = if G.getType y = some t then
        allEqual (E.objectEquals fuel)
          ((G.getFields t).map fun f => (G.getValue f x, G.getValue f y))
      else some false := by
  obtain ⟨hx, ht, hequals⟩ := h
  simp only [objectEquals, hx, ht, hequals]

/-- Other calls return at once, or never. -/
theorem objectEquals_other {x : N} (h : ∀ t, ¬E.ComparesFields t x) (y : N) :
    ∃ r, (∀ fuel, E.objectEquals (fuel + 1) x y = r)
      ∧ ((∀ equals, E.equals x = some equals → equals y ≠ none) → ∃ b, r = some b) := by
  cases hx : G.getType x with
  | none =>
      exact ⟨some (G.getType y).isNone, fun fuel => by simp only [objectEquals, hx], fun _ => ⟨_, rfl⟩⟩
  | some t =>
      cases ht : G.kind t with
      | struct =>
          cases hequals : E.equals x with
          | none => exact absurd ⟨hx, ht, hequals⟩ (h t)
          | some equals =>
              exact ⟨equals y, fun fuel => by simp only [objectEquals, hx, ht, hequals],
                fun hends => Option.ne_none_iff_exists'.mp (hends equals rfl)⟩
      | object =>
          refine ⟨(E.equals x).elim (some (decide (x = y))) fun equals => equals y, fun fuel => by
            simp only [objectEquals, hx, ht], fun hends => ?_⟩
          cases hequals : E.equals x with
          | none => exact ⟨_, rfl⟩
          | some equals => exact Option.ne_none_iff_exists'.mp (hends equals hequals)
      | array =>
          exact ⟨some (decide (x = y)), fun fuel => by simp only [objectEquals, hx, ht],
            fun _ => ⟨_, rfl⟩⟩
      | _ =>
          exact ⟨some (decide (G.getType y = some t ∧ G.payload x = G.payload y)), fun fuel => by
            simp only [objectEquals, hx, ht], fun _ => ⟨_, rfl⟩⟩

theorem objectEquals_succ {fuel : ℕ} {x y : N} {b : Bool} (h : E.objectEquals fuel x y = some b) :
    E.objectEquals (fuel + 1) x y = some b := by
  induction fuel generalizing x y b with
  | zero => cases h
  | succ fuel ih =>
      by_cases hfields : ∃ t, E.ComparesFields t x
      · obtain ⟨t, hfields⟩ := hfields
        rw [objectEquals_struct hfields] at h ⊢
        split at h
        · rename_i htype
          rw [if_pos htype]
          exact allEqual_mono (fun a b r hr => ih hr) h
        · rename_i htype
          rw [if_neg htype]
          exact h
      · rw [not_exists] at hfields
        obtain ⟨r, heq, -⟩ := objectEquals_other hfields y
        rw [heq, ← h, heq]

theorem objectEquals_mono {fuel fuel' : ℕ} (hle : fuel ≤ fuel') {x y : N} {b : Bool}
    (h : E.objectEquals fuel x y = some b) : E.objectEquals fuel' x y = some b := by
  induction hle with
  | refl => exact h
  | step _ ih => exact objectEquals_succ ih

theorem pairEquals_mono {fuel fuel' : ℕ} (hle : fuel ≤ fuel') {s t x y : N} {b : Bool}
    (h : E.pairEquals fuel s t x y = some b) : E.pairEquals fuel' s t x y = some b := by
  obtain ⟨equal, hequal, h⟩ := Option.bind_eq_some_iff.mp h
  rw [pairEquals, objectEquals_mono hle hequal, Option.bind_some]
  cases equal with
  | false => exact h
  | true => exact objectEquals_mono hle h

theorem pairEquals_true {fuel : ℕ} {s t x y : N} (h : E.pairEquals fuel s t x y = some true) :
    E.objectEquals fuel s x = some true ∧ E.objectEquals fuel t y = some true := by
  obtain ⟨equal, hequal, h⟩ := Option.bind_eq_some_iff.mp h
  cases equal with
  | false => cases h
  | true => exact ⟨hequal, h⟩

end Equals

end EqualityMethods

/-! ### Pairs that are compared -/

/-- A relation that holds between what is compared in turn. -/
def IsClosed (G : ObjectGraph N T F P) (S : N → N → Prop) : Prop :=
  ∀ t x y, S x y → G.Expands t x y → G.SameShape t x y → ∀ p ∈ G.contentPairs t x y, S p.1 p.2

/-- The pairs to which a comparison of two roots can come. -/
inductive ComparedFrom (G : ObjectGraph N T F P) (x y : N) : N → N → Prop
  | roots : ComparedFrom G x y x y
  | content {t : T} {u v : N} {p : N × N} (h : ComparedFrom G x y u v) (ht : G.Expands t u v)
      (hshape : G.SameShape t u v) (hp : p ∈ G.contentPairs t u v) : ComparedFrom G x y p.1 p.2

theorem comparedFrom_isClosed (x y : N) : IsClosed G (ComparedFrom G x y) :=
  fun _ _ _ h ht hshape _ hp => .content h ht hshape hp

/-- A pair that gets into the set. -/
def IsAdded (G : ObjectGraph N T F P) (S : N → N → Prop) (x y : N) : Prop :=
  S x y ∧ ∃ t, G.Expands t x y

variable [DecidableEq N] [DecidableEq T] [DecidableEq P] {E : EqualityMethods G}

/-- A pair is taken for another one. -/
def Identifies (E : EqualityMethods G) (s t x y : N) : Prop :=
  ∃ fuel hash, E.pairHash fuel s t = some hash ∧ E.pairHash fuel x y = some hash
    ∧ E.pairEquals fuel s t x y = some true

omit [DecidableEq N] in
theorem findEntry_true {equals : N → N → N → N → Option Bool} {hash : ℕ} {x y : N}
    {compared : Compared N} (h : findEntry equals hash x y compared = some true) :
    ∃ s t, (hash, s, t) ∈ compared ∧ equals s t x y = some true := by
  induction compared with
  | nil => cases h
  | cons entry compared ih =>
      obtain ⟨hash', s, t⟩ := entry
      rw [findEntry] at h
      have hlater : findEntry equals hash x y compared = some true →
          ∃ s' t', (hash, s', t') ∈ (hash', s, t) :: compared ∧ equals s' t' x y = some true := by
        intro h
        obtain ⟨s', t', hmem, hequals⟩ := ih h
        exact ⟨s', t', List.mem_cons_of_mem _ hmem, hequals⟩
      split at h
      · rename_i heq
        subst heq
        obtain ⟨equal, hequal, h⟩ := Option.bind_eq_some_iff.mp h
        cases equal with
        | false => exact hlater h
        | true => exact ⟨s, t, List.mem_cons_self, hequal⟩
      · exact hlater h

/-! ### A negative answer -/

omit [DecidableEq N] in
theorem compareAll_false {equals : Compared N → N → N → Option (Bool × Compared N)}
    {pairs : List (N × N)} {compared compared' : Compared N}
    (h : compareAll equals compared pairs = some (false, compared')) :
    ∃ p ∈ pairs, ∃ c c', equals c p.1 p.2 = some (false, c') := by
  induction pairs generalizing compared with
  | nil => cases h
  | cons p pairs ih =>
      rw [compareAll] at h
      obtain ⟨r, hr, h⟩ := Option.bind_eq_some_iff.mp h
      obtain ⟨b, c⟩ := r
      cases b with
      | false => exact ⟨p, List.mem_cons_self, compared, c, hr⟩
      | true =>
          obtain ⟨q, hq, hrun⟩ := ih h
          exact ⟨q, List.mem_cons_of_mem p hq, hrun⟩

/-- **A difference is real.** -/
theorem equals_false {fuel : ℕ} {compared compared' : Compared N} {x y : N}
    (h : ObjectComparer.equals E fuel compared x y = some (false, compared')) :
    ¬G.Bisimilar x y := by
  induction fuel generalizing compared compared' x y with
  | zero => cases h
  | succ fuel ih =>
      intro hbisimilar
      have hmatch := hbisimilar.matches
      cases equals_cases h with
      | differ _ hdiffer => exact hdiffer _ hmatch
      | shape ht _ _ hshape =>
          exact hshape (ht.of_matches ObjectGraph.Bisimilar.refl hmatch).1
      | contents ht _ _ _ hrun =>
          obtain ⟨p, hp, c, c', hdiffer⟩ := compareAll_false hrun
          exact ih hdiffer ((ht.of_matches ObjectGraph.Bisimilar.refl hmatch).2 p hp)

/-- Bisimilar roots have no negative answer. -/
theorem answer_eq_true {fuel : ℕ} {x y : N} {b : Bool} (hequal : G.Bisimilar x y)
    (h : ObjectsComparer.equals E fuel x y = some b) : b = true := by
  obtain ⟨⟨b, compared⟩, hr, rfl⟩ := Option.map_eq_some_iff.mp h
  cases b with
  | false => exact absurd hequal (equals_false hr)
  | true => rfl

/-! ### A positive answer -/

/-- The pairs in the set. -/
def Visited (compared : Compared N) (s t : N) : Prop := ∃ hash, (hash, s, t) ∈ compared

/-- The entries are pairs that are compared, with their hash codes. -/
def Entries (E : EqualityMethods G) (S : N → N → Prop) (compared : Compared N) : Prop :=
  ∀ hash s t, (hash, s, t) ∈ compared → IsAdded G S s t ∧ ∃ fuel, E.pairHash fuel s t = some hash

omit [DecidableEq N] [DecidableEq T] [DecidableEq P] in
theorem Entries.cons {S : N → N → Prop} {compared : Compared N} (h : Entries E S compared)
    {x y : N} (hxy : IsAdded G S x y) {fuel hash : ℕ} (hhash : E.pairHash fuel x y = some hash) :
    Entries E S ((hash, x, y) :: compared) := by
  intro hash' s t hmem
  rcases List.mem_cons.mp hmem with heq | hmem
  · obtain ⟨rfl, rfl, rfl⟩ : hash' = hash ∧ s = x ∧ t = y := by simpa using heq
    exact ⟨hxy, fuel, hhash⟩
  · exact h hash' s t hmem

/-- A pair is equal at once, or in the set, or taken for a pair in the set. -/
inductive IsCovered (E : EqualityMethods G) (compared : Compared N) (x y : N) : Prop
  | same (hsettled : ∀ t, ¬G.Expands t x y) (h : ∀ R : N → N → Prop, G.Matches R x y)
  | visited (h : Visited compared x y)
  | found {s t : N} {u : T} (hu : G.Expands u x y) (hst : Visited compared s t)
      (h : Identifies E s t x y)

/-- The set has grown by pairs of which the contents are covered. -/
structure Justifies (E : EqualityMethods G) (S : N → N → Prop) (compared compared' : Compared N) :
    Prop where
  subset : ∀ entry ∈ compared, entry ∈ compared'
  entries : Entries E S compared'
  justified : ∀ hash s t, (hash, s, t) ∈ compared' → (hash, s, t) ∈ compared
    ∨ ∃ u, G.Expands u s t ∧ G.SameShape u s t
      ∧ ∀ p ∈ G.contentPairs u s t, IsCovered E compared' p.1 p.2

variable {S : N → N → Prop}

omit [DecidableEq N] in
theorem Visited.of_subset {compared compared' : Compared N}
    (h : ∀ entry ∈ compared, entry ∈ compared') {a b : N} (hab : Visited compared a b) :
    Visited compared' a b := by
  obtain ⟨hash, hmem⟩ := hab
  exact ⟨hash, h _ hmem⟩

theorem IsCovered.of_subset {compared compared' : Compared N}
    (h : ∀ entry ∈ compared, entry ∈ compared') {a b : N} (hab : IsCovered E compared a b) :
    IsCovered E compared' a b := by
  cases hab with
  | same hsettled hmatch => exact .same hsettled hmatch
  | visited hvisited => exact .visited (hvisited.of_subset h)
  | found hu hst hidentifies => exact .found hu (hst.of_subset h) hidentifies

theorem Justifies.refl {compared : Compared N} (h : Entries E S compared) :
    Justifies E S compared compared := ⟨fun _ hmem => hmem, h, fun _ _ _ hmem => Or.inl hmem⟩

theorem Justifies.trans {c₁ c₂ c₃ : Compared N} (h : Justifies E S c₁ c₂)
    (h' : Justifies E S c₂ c₃) : Justifies E S c₁ c₃ := by
  refine ⟨fun entry hmem => h'.subset entry (h.subset entry hmem), h'.entries, ?_⟩
  intro hash s t hmem
  rcases h'.justified hash s t hmem with hmem | hcovered
  · rcases h.justified hash s t hmem with hmem | ⟨u, hu, hshape, hcovered⟩
    · exact Or.inl hmem
    · exact Or.inr ⟨u, hu, hshape, fun p hp => (hcovered p hp).of_subset h'.subset⟩
  · exact Or.inr hcovered

theorem compareAll_true {equals : Compared N → N → N → Option (Bool × Compared N)}
    (hequals : ∀ c x y c', Entries E S c → S x y → equals c x y = some (true, c') →
      Justifies E S c c' ∧ IsCovered E c' x y)
    {pairs : List (N × N)} {compared compared' : Compared N} (hentries : Entries E S compared)
    (hpairs : ∀ p ∈ pairs, S p.1 p.2)
    (h : compareAll equals compared pairs = some (true, compared')) :
    Justifies E S compared compared' ∧ ∀ p ∈ pairs, IsCovered E compared' p.1 p.2 := by
  induction pairs generalizing compared with
  | nil =>
      obtain ⟨-, rfl⟩ := Prod.mk.inj (Option.some.inj h)
      exact ⟨Justifies.refl hentries, fun p hp => absurd hp List.not_mem_nil⟩
  | cons p pairs ih =>
      rw [compareAll] at h
      obtain ⟨r, hr, h⟩ := Option.bind_eq_some_iff.mp h
      obtain ⟨b, c⟩ := r
      cases b with
      | false => cases h
      | true =>
          obtain ⟨hjustifies, hp⟩ := hequals compared p.1 p.2 c hentries
            (hpairs p List.mem_cons_self) hr
          obtain ⟨hjustifies', hrest⟩ := ih hjustifies.entries
            (fun q hq => hpairs q (List.mem_cons_of_mem p hq)) h
          refine ⟨hjustifies.trans hjustifies', fun q hq => ?_⟩
          rcases List.mem_cons.mp hq with rfl | hq
          · exact hp.of_subset hjustifies'.subset
          · exact hrest q hq

/-- **What is taken to be equal** is covered by the set. -/
theorem equals_true (hclosed : IsClosed G S) {fuel : ℕ} :
    ∀ compared x y compared', Entries E S compared → S x y →
      ObjectComparer.equals E fuel compared x y = some (true, compared') →
        Justifies E S compared compared' ∧ IsCovered E compared' x y := by
  induction fuel with
  | zero => intro compared x y compared' _ _ h; cases h
  | succ fuel ih =>
      intro compared x y compared' hentries hxy h
      cases equals_cases h with
      | same hsettled hmatch => exact ⟨Justifies.refl hentries, .same hsettled hmatch⟩
      | @found t hash ht hhash hfound =>
          obtain ⟨s, s', hmem, hequal⟩ := findEntry_true hfound
          obtain ⟨-, fuel', hhash'⟩ := hentries hash s s' hmem
          refine ⟨Justifies.refl hentries, .found ht ⟨hash, hmem⟩
            ⟨max fuel fuel', hash, ?_, ?_, ?_⟩⟩
          · exact E.pairHash_mono (le_max_right fuel fuel') hhash'
          · exact E.pairHash_mono (le_max_left fuel fuel') hhash
          · exact E.pairEquals_mono (le_max_left fuel fuel') hequal
      | @contents t hash _ _ ht hhash hfound hshape hrun =>
          have hadded := hentries.cons ⟨hxy, t, ht⟩ hhash
          obtain ⟨hjustifies, hpairs⟩ :=
            compareAll_true ih hadded (hclosed t x y hxy ht hshape) hrun
          refine ⟨⟨fun entry hmem => hjustifies.subset entry (List.mem_cons_of_mem _ hmem),
            hjustifies.entries, fun hash' s s' hmem => ?_⟩, .visited ⟨hash, ?_⟩⟩
          · rcases hjustifies.justified hash' s s' hmem with hmem | hcovered
            · rcases List.mem_cons.mp hmem with heq | hmem
              · obtain ⟨rfl, rfl, rfl⟩ : hash' = hash ∧ s = x ∧ s' = y := by
                  simpa using heq
                exact Or.inr ⟨t, ht, hshape, hpairs⟩
              · exact Or.inl hmem
            · exact Or.inr hcovered
          · exact hjustifies.subset _ List.mem_cons_self

/-- What is taken for another pair is bisimilar to it. -/
def IsFaithful (E : EqualityMethods G) (S : N → N → Prop) : Prop :=
  ∀ s t x y, IsAdded G S s t → IsAdded G S x y → Identifies E s t x y →
    G.Bisimilar s x ∧ G.Bisimilar t y

/-- What is covered is bisimilar to a pair in the set, or bisimilar. -/
theorem IsCovered.upTo {compared : Compared N} (hentries : Entries E S compared)
    (hfaithful : IsFaithful E S) {x y : N} (hxy : S x y) (h : IsCovered E compared x y) :
    G.matching.UpTo (Visited compared) x y := by
  cases h with
  | same _ hmatch => exact Or.inl (G.bisimilar_iff.mp (.of_matches (hmatch _)))
  | visited hvisited => exact .of_mem hvisited
  | found hu hst hidentifies =>
      obtain ⟨hash, hmem⟩ := hst
      obtain ⟨hx, hy⟩ := hfaithful _ _ x y (hentries _ _ _ hmem).1 ⟨hxy, _, hu⟩ hidentifies
      exact Or.inr ⟨_, _, hx.symm, ⟨hash, hmem⟩, hy⟩

/-- **An answer is right**, if what is taken for another pair is bisimilar to it. -/
theorem comparer_correct {x y : N} (hfaithful : IsFaithful E (ComparedFrom G x y)) {fuel : ℕ}
    {b : Bool} (h : ObjectsComparer.equals E fuel x y = some b) : b = true ↔ G.Bisimilar x y := by
  obtain ⟨r, hr, rfl⟩ := Option.map_eq_some_iff.mp h
  obtain ⟨b, compared⟩ := r
  cases b with
  | false => exact iff_of_false Bool.false_ne_true (equals_false hr)
  | true =>
      obtain ⟨hjustifies, hcovered⟩ := equals_true (comparedFrom_isClosed x y) [] x y compared
        (fun _ _ _ hmem => absurd hmem List.not_mem_nil) .roots hr
      refine iff_of_true rfl (G.bisimilar_iff.mpr (Matching.upTo_bisimilar ?_
        (hcovered.upTo hjustifies.entries hfaithful .roots)))
      rintro s t ⟨hash, hmem⟩
      obtain ⟨hadded, -⟩ := hjustifies.entries hash s t hmem
      rcases hjustifies.justified hash s t hmem with hmem | ⟨u, hu, hshape, hcontents⟩
      · exact absurd hmem List.not_mem_nil
      · exact hu.matches hshape fun p hp => (hcontents p hp).upTo hjustifies.entries hfaithful
          (.content hadded.1 hu hshape hp)

/-! ### When there is an answer -/

/-- The hash codes of the pairs that get into the set come to an end, and so does `Equals` on those
with the same one. -/
structure MethodsEnd (E : EqualityMethods G) (S : N → N → Prop) : Prop where
  hash : ∀ x y, IsAdded G S x y → ∃ fuel hash, E.pairHash fuel x y = some hash
  equals : ∀ s t x y, IsAdded G S s t → IsAdded G S x y →
    (∃ fuel hash, E.pairHash fuel s t = some hash ∧ E.pairHash fuel x y = some hash) →
      ∃ fuel b, E.pairEquals fuel s t x y = some b

/-- A pair is found once it is in the set. -/
def IsReflexive (E : EqualityMethods G) (S : N → N → Prop) : Prop :=
  ∀ x y, IsAdded G S x y → ∃ fuel, E.pairEquals fuel x y x y = some true

end TestExecutor
