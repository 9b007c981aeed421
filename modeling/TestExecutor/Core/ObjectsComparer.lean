import TestExecutor.Core.ObjectGraph

/-!
# `ObjectsComparer`

The comparison of two object graphs, with the set of the pairs that it has begun to compare.

* `EqualityMethods` — the `Equals` and `GetHashCode` that types define, and the default hash codes;
* `objectEquals`, `getHashCode` — the virtual calls, with the defaults of structs, which go through
  the fields and need not come to an end;
* `Compared`, `addCompared` — the set of pairs, in which members are found by these methods;
* `ObjectComparer.equals`, `ObjectsComparer.equals` — the comparison, by an amount of fuel;
* `equals_settled`, `equals_expands`, `equals_cases` — what one call does.
-/

namespace TestExecutor

open TestExecutor.Library

variable {N T F P : Type}

/-! ### The methods of objects -/

/-- What `Equals` and `GetHashCode` of classes and structs are, where they are defined, and what the
runtime takes for a hash code where they are not: of an object any number, of a struct one that is
made from the hash codes of some of its fields.  A defined method may throw or not return. -/
structure EqualityMethods (G : ObjectGraph N T F P) where
  equals : N → Option (N → Option Bool)
  getHashCode : N → Option (Option ℕ)
  identityHash : N → ℕ
  payloadHash : T → P → ℕ
  hashedFields : N → List F
  structHash : T → List ℕ → ℕ
  combine : ℕ → ℕ → ℕ
  hashedFields_mem : ∀ n t, G.getType n = some t → ∀ f ∈ hashedFields n, f ∈ G.getFields t

/-- Pairs of values, up to the first that are not equal. -/
def allEqual (equals : N → N → Option Bool) : List (N × N) → Option Bool
  | [] => some true
  | (a, b) :: rest => (equals a b).bind fun equal =>
      if equal then allEqual equals rest else some false

namespace EqualityMethods

variable {G : ObjectGraph N T F P} [DecidableEq N] [DecidableEq T] [DecidableEq P]
  (E : EqualityMethods G)

/-- `x.Equals(y)`; without an override, objects and arrays are equal to themselves, structs of one
type if all fields are. -/
def objectEquals : ℕ → N → N → Option Bool
  | 0, _, _ => none
  | fuel + 1, x, y =>
      match G.getType x with
      | none => some (G.getType y).isNone
      | some t =>
          match G.kind t with
          | .object => (E.equals x).elim (some (decide (x = y))) fun equals => equals y
          | .struct =>
              match E.equals x with
              | some equals => equals y
              | none =>
                  if G.getType y = some t then
                    allEqual (objectEquals fuel)
                      ((G.getFields t).map fun f => (G.getValue f x, G.getValue f y))
                  else some false
          | .array => some (decide (x = y))
          | _ => some (decide (G.getType y = some t ∧ G.payload x = G.payload y))

omit [DecidableEq N] [DecidableEq T] [DecidableEq P] in
/-- `x.GetHashCode()`. -/
def objectHash : ℕ → N → Option ℕ
  | 0, _ => none
  | fuel + 1, x =>
      match G.getType x with
      | none => some 0
      | some t =>
          match G.kind t with
          | .object => (E.getHashCode x).getD (some (E.identityHash x))
          | .struct =>
              match E.getHashCode x with
              | some hash => hash
              | none => ((E.hashedFields x).mapM fun f => objectHash fuel (G.getValue f x)).map
                  (E.structHash t)
          | .array => some (E.identityHash x)
          | _ => some (E.payloadHash t (G.payload x))

/-- `(s, t).Equals((x, y))`. -/
def pairEquals (fuel : ℕ) (s t x y : N) : Option Bool :=
  (E.objectEquals fuel s x).bind fun equal => if equal then E.objectEquals fuel t y else some false

omit [DecidableEq N] [DecidableEq T] [DecidableEq P] in
/-- `(x, y).GetHashCode()`. -/
def pairHash (fuel : ℕ) (x y : N) : Option ℕ :=
  (E.objectHash fuel x).bind fun hash => (E.objectHash fuel y).map (E.combine hash)

end EqualityMethods

/-! ### The set of pairs -/

/-- The entries of the `HashSet` with their hash codes, newest first. -/
abbrev Compared (N : Type) := List (ℕ × N × N)

/-- Searches for a pair among the entries with its hash code. -/
def findEntry (equals : N → N → N → N → Option Bool) (hash : ℕ) (x y : N) :
    Compared N → Option Bool
  | [] => some false
  | (hash', s, t) :: rest =>
      if hash' = hash then
        (equals s t x y).bind fun equal => if equal then some true else findEntry equals hash x y rest
      else findEntry equals hash x y rest

section Comparer

variable {G : ObjectGraph N T F P} [DecidableEq N] [DecidableEq T] [DecidableEq P]
  (E : EqualityMethods G)

/-- `_compared.Add((expected, actual))`. -/
def addCompared (fuel : ℕ) (compared : Compared N) (x y : N) : Option (Bool × Compared N) :=
  (E.pairHash fuel x y).bind fun hash => (findEntry (E.pairEquals fuel) hash x y compared).map
    fun found => if found then (false, compared) else (true, (hash, x, y) :: compared)

/-! ### The comparison -/

/-- Compares pairs of values up to the first that differ. -/
def compareAll (equals : Compared N → N → N → Option (Bool × Compared N)) :
    Compared N → List (N × N) → Option (Bool × Compared N)
  | compared, [] => some (true, compared)
  | compared, (a, b) :: rest => (equals compared a b).bind fun r =>
      if r.1 then compareAll equals r.2 rest else some (false, r.2)

/-- The loop over the dimensions of two arrays of one rank. -/
def sameDimensions : List (ℕ × ℤ) → List (ℕ × ℤ) → Bool
  | (length, lower) :: dims, (length', lower') :: dims' =>
      if length ≠ length' ∨ lower ≠ lower' then false else sameDimensions dims dims'
  | _, _ => true

/-- `ContentwiseEqual`. -/
def contentwiseEqual (equals : Compared N → N → N → Option (Bool × Compared N))
    (compared : Compared N) (expected actual : ArrayObject N) : Option (Bool × Compared N) :=
  if expected.dimensions.length ≠ actual.dimensions.length then some (false, compared)
  else if sameDimensions expected.dimensions actual.dimensions then
    compareAll equals compared (expected.elements.zip actual.elements)
  else some (false, compared)

variable (G) in
/-- `StructurallyEquals`, for an expected object of type `xtype`. -/
def structurallyEquals (equals : Compared N → N → N → Option (Bool × Compared N))
    (compared : Compared N) (xtype : T) (expected actual : N) : Option (Bool × Compared N) :=
  if some xtype ≠ G.getType actual then some (false, compared)
  else compareAll equals compared (G.fieldPairs xtype expected actual)

/-- `ObjectComparer.Equals`, with the set before and after. -/
def ObjectComparer.equals : ℕ → Compared N → N → N → Option (Bool × Compared N)
  | 0, _, _, _ => none
  | fuel + 1, compared, expected, actual =>
      match G.getType expected, G.getType actual with
      | none, none => some (true, compared)
      | none, some _ => some (false, compared)
      | some _, none => some (false, compared)
      | some type, some type' =>
          if type ≠ type' then some (false, compared)
          else if G.ReferenceEquals expected actual then some (true, compared)
          else if (G.kind type).IsAtom then
            some (decide (G.payload expected = G.payload actual), compared)
          else (addCompared E fuel compared expected actual).bind fun r =>
            if r.1 = false then some (true, r.2)
            else if G.kind type = .array then
              contentwiseEqual (equals fuel) r.2 (G.array expected) (G.array actual)
            else structurallyEquals G (equals fuel) r.2 type expected actual

/-- `ObjectsComparer.Equals`: a comparison that starts with an empty set. -/
def ObjectsComparer.equals (fuel : ℕ) (expected actual : N) : Option Bool :=
  (ObjectComparer.equals E fuel [] expected actual).map Prod.fst

end Comparer

/-! ### What one call does -/

theorem sameDimensions_iff {dims dims' : List (ℕ × ℤ)} (h : dims.length = dims'.length) :
    sameDimensions dims dims' = true ↔ dims = dims' := by
  induction dims generalizing dims' with
  | nil =>
      obtain rfl := List.length_eq_zero_iff.mp h.symm
      exact iff_of_true rfl rfl
  | cons d dims ih =>
      cases dims' with
      | nil => cases h
      | cons d' dims' =>
          rw [sameDimensions, List.cons.injEq, ← ih (Nat.succ.inj h), Prod.ext_iff]
          split
          · rename_i hdiffer
            refine iff_of_false Bool.false_ne_true fun hsame => ?_
            rcases hdiffer with hdiffer | hdiffer
            · exact hdiffer hsame.1.1
            · exact hdiffer hsame.1.2
          · rename_i hsame
            rw [not_or, not_not, not_not] at hsame
            exact ⟨fun h => ⟨hsame, h⟩, fun h => h.2⟩

namespace ObjectGraph

variable (G : ObjectGraph N T F P)

/-- Two nodes of a type whose contents are compared. -/
structure Expands (t : T) (x y : N) : Prop where
  expected : G.getType x = some t
  actual : G.getType y = some t
  distinct : ¬G.ReferenceEquals x y
  notAtom : ¬(G.kind t).IsAtom

/-- The lengths and lower bounds of arrays agree. -/
def SameShape (t : T) (x y : N) : Prop :=
  G.kind t = .array → (G.array x).dimensions = (G.array y).dimensions

instance (t : T) (x y : N) [DecidableEq T] : Decidable (G.SameShape t x y) := by
  unfold SameShape
  infer_instance

/-- The pairs of values that are compared. -/
def contentPairs (t : T) (x y : N) : List (N × N) :=
  if G.kind t = .array then (G.array x).elements.zip (G.array y).elements else G.fieldPairs t x y

variable {G} {t : T} {x y : N}

/-- Nodes match if their contents are related. -/
theorem Expands.matches {R : N → N → Prop} (h : G.Expands t x y) (hshape : G.SameShape t x y)
    (hpairs : ∀ p ∈ G.contentPairs t x y, R p.1 p.2) : G.Matches R x y := by
  unfold contentPairs at hpairs
  rcases (G.kind t).cases with ht | ht | ht
  · exact absurd ht h.notAtom
  · rw [if_pos ht] at hpairs
    have hlength : (G.array x).elements.length = (G.array y).elements.length := by
      rw [(G.array x).size, (G.array y).size, hshape ht]
    exact .array h.expected h.actual ht (hshape ht)
      (List.forall₂_iff_zip.mpr ⟨hlength, fun hab => hpairs _ hab⟩)
  · rw [if_neg ht.ne_array] at hpairs
    exact .object h.expected h.actual ht fun f hf hc =>
      hpairs _ (G.mem_fieldPairs.mpr ⟨f, hf, hc, rfl⟩)

/-- The contents of nodes that match are related. -/
theorem Expands.of_matches {R : N → N → Prop} (hR : ∀ a, R a a) (h : G.Expands t x y)
    (hmatch : G.Matches R x y) :
    G.SameShape t x y ∧ ∀ p ∈ G.contentPairs t x y, R p.1 p.2 := by
  refine ⟨fun ht => (hmatch.array_eq hR h.expected ht).1, fun p hp => ?_⟩
  unfold contentPairs at hp
  rcases (G.kind t).cases with ht | ht | ht
  · exact absurd ht h.notAtom
  · rw [if_pos ht] at hp
    exact (List.forall₂_iff_zip.mp (hmatch.array_eq hR h.expected ht).2).2 hp
  · rw [if_neg ht.ne_array] at hp
    obtain ⟨f, hf, hc, rfl⟩ := G.mem_fieldPairs.mp hp
    exact hmatch.field hR h.expected ht hf hc

end ObjectGraph

variable {G : ObjectGraph N T F P} [DecidableEq N] [DecidableEq T] [DecidableEq P]
  {E : EqualityMethods G}

/-- The outcomes of a call. -/
inductive CallOutcome (E : EqualityMethods G) (fuel : ℕ) (compared : Compared N) (x y : N) :
    Bool → Compared N → Prop
  -- null, a type, the same object or a primitive tell at once
  | same (hsettled : ∀ t, ¬G.Expands t x y) (h : ∀ R : N → N → Prop, G.Matches R x y) :
      CallOutcome E fuel compared x y true compared
  | differ (hsettled : ∀ t, ¬G.Expands t x y) (h : ∀ R : N → N → Prop, ¬G.Matches R x y) :
      CallOutcome E fuel compared x y false compared
  -- the pair is taken to be one that has been compared before
  | found {t : T} {hash : ℕ} (ht : G.Expands t x y) (hhash : E.pairHash fuel x y = some hash)
      (hfound : findEntry (E.pairEquals fuel) hash x y compared = some true) :
      CallOutcome E fuel compared x y true compared
  | shape {t : T} {hash : ℕ} (ht : G.Expands t x y) (hhash : E.pairHash fuel x y = some hash)
      (hfound : findEntry (E.pairEquals fuel) hash x y compared = some false)
      (hshape : ¬G.SameShape t x y) :
      CallOutcome E fuel compared x y false ((hash, x, y) :: compared)
  | contents {t : T} {hash : ℕ} {b : Bool} {compared' : Compared N} (ht : G.Expands t x y)
      (hhash : E.pairHash fuel x y = some hash)
      (hfound : findEntry (E.pairEquals fuel) hash x y compared = some false)
      (hshape : G.SameShape t x y)
      (hrun : compareAll (ObjectComparer.equals E fuel) ((hash, x, y) :: compared)
        (G.contentPairs t x y) = some (b, compared')) : CallOutcome E fuel compared x y b compared'

/-- Null, types, the same object and primitives tell at once. -/
theorem equals_settled {x y : N} (h : ∀ t, ¬G.Expands t x y) :
    ∃ b, (∀ fuel compared, ObjectComparer.equals E (fuel + 1) compared x y = some (b, compared))
      ∧ ∀ R : N → N → Prop, G.Matches R x y ↔ b = true := by
  have hdiffer : G.getType x ≠ G.getType y → ∀ R : N → N → Prop, G.Matches R x y ↔ false = true :=
    fun htype R => iff_of_false (fun hmatch => htype hmatch.getType_eq) Bool.false_ne_true
  cases hx : G.getType x with
  | none =>
      cases hy : G.getType y with
      | none =>
          refine ⟨true, fun fuel compared => ?_, fun R => iff_of_true (.null hx hy) rfl⟩
          simp only [ObjectComparer.equals, hx, hy]
      | some t' =>
          refine ⟨false, fun fuel compared => ?_, hdiffer (by rw [hx, hy]; exact nofun)⟩
          simp only [ObjectComparer.equals, hx, hy]
  | some t =>
      cases hy : G.getType y with
      | none =>
          refine ⟨false, fun fuel compared => ?_, hdiffer (by rw [hx, hy]; exact nofun)⟩
          simp only [ObjectComparer.equals, hx, hy]
      | some t' =>
          by_cases htype : t = t'
          · subst htype
            by_cases hsame : G.ReferenceEquals x y
            · refine ⟨true, fun fuel compared => ?_, fun R => iff_of_true (.same hsame) rfl⟩
              simp only [ObjectComparer.equals, hx, hy]
              rw [if_neg (not_not.mpr rfl), if_pos hsame]
            · have hatom : (G.kind t).IsAtom := not_not.mp fun hatom => h t ⟨hx, hy, hsame, hatom⟩
              refine ⟨decide (G.payload x = G.payload y), fun fuel compared => ?_, fun R => ?_⟩
              · simp only [ObjectComparer.equals, hx, hy]
                rw [if_neg (not_not.mpr rfl), if_neg hsame, if_pos hatom]
              · rw [decide_eq_true_iff]
                exact ⟨fun hmatch => hmatch.payload_eq hx hatom, .atom hx hy hatom⟩
          · refine ⟨false, fun fuel compared => ?_, hdiffer ?_⟩
            · simp only [ObjectComparer.equals, hx, hy]
              rw [if_pos htype]
            · rw [hx, hy]
              exact fun heq => htype (Option.some.inj heq)

/-- Otherwise the pair is looked up, and the contents are compared if it is new. -/
theorem equals_expands {t : T} {x y : N} (h : G.Expands t x y) (fuel : ℕ) (compared : Compared N) :
    ObjectComparer.equals E (fuel + 1) compared x y = (addCompared E fuel compared x y).bind fun r =>
      if r.1 = false then some (true, r.2)
      else if G.SameShape t x y then
        compareAll (ObjectComparer.equals E fuel) r.2 (G.contentPairs t x y)
      else some (false, r.2) := by
  simp only [ObjectComparer.equals, h.expected, h.actual]
  rw [if_neg (not_not.mpr rfl), if_neg h.distinct, if_neg h.notAtom]
  congr 1
  funext r
  split
  · rfl
  · by_cases harray : G.kind t = .array
    · rw [if_pos harray, contentwiseEqual, ObjectGraph.contentPairs, if_pos harray]
      by_cases hlength : (G.array x).dimensions.length = (G.array y).dimensions.length
      · rw [if_neg (not_not.mpr hlength)]
        refine if_congr ?_ rfl rfl
        rw [sameDimensions_iff hlength]
        exact ⟨fun hdims _ => hdims, fun hshape => hshape harray⟩
      · rw [if_pos hlength, if_neg fun hshape => hlength (congrArg List.length (hshape harray))]
    · have hshape : G.SameShape t x y := fun ht => absurd ht harray
      rw [if_neg harray, structurallyEquals, if_neg (not_not.mpr h.actual.symm),
        ObjectGraph.contentPairs, if_neg harray, if_pos hshape]

theorem addCompared_eq {fuel : ℕ} {compared : Compared N} {x y : N} {hash : ℕ} {found : Bool}
    (hhash : E.pairHash fuel x y = some hash)
    (hfound : findEntry (E.pairEquals fuel) hash x y compared = some found) :
    addCompared E fuel compared x y
      = some (if found then (false, compared) else (true, (hash, x, y) :: compared)) := by
  rw [addCompared, hhash, Option.bind_some, hfound]
  rfl

/-- **One call** has one of these outcomes. -/
theorem equals_cases {fuel : ℕ} {compared compared' : Compared N} {x y : N} {b : Bool}
    (h : ObjectComparer.equals E (fuel + 1) compared x y = some (b, compared')) :
    CallOutcome E fuel compared x y b compared' := by
  by_cases hexpands : ∃ t, G.Expands t x y
  · obtain ⟨t, ht⟩ := hexpands
    rw [equals_expands ht] at h
    obtain ⟨r, hadd, h⟩ := Option.bind_eq_some_iff.mp h
    obtain ⟨hash, hhash, hadd⟩ := Option.bind_eq_some_iff.mp hadd
    obtain ⟨found, hfound, rfl⟩ := Option.map_eq_some_iff.mp hadd
    cases found with
    | true =>
        obtain ⟨rfl, rfl⟩ := Prod.mk.inj (Option.some.inj h)
        exact .found ht hhash hfound
    | false =>
        change (if G.SameShape t x y then _ else _) = _ at h
        split at h
        · rename_i hshape
          exact .contents ht hhash hfound hshape h
        · rename_i hshape
          obtain ⟨rfl, rfl⟩ := Prod.mk.inj (Option.some.inj h)
          exact .shape ht hhash hfound hshape
  · rw [not_exists] at hexpands
    obtain ⟨b', heq, hmatch⟩ := equals_settled (E := E) hexpands
    rw [heq] at h
    obtain ⟨rfl, rfl⟩ := Prod.mk.inj (Option.some.inj h)
    cases b' with
    | true => exact .same hexpands fun R => (hmatch R).mpr rfl
    | false => exact .differ hexpands fun R hmatches => Bool.false_ne_true ((hmatch R).mp hmatches)

end TestExecutor
