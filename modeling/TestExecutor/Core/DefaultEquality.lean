import TestExecutor.Core.ComparerRuns

/-!
# Graphs without user-defined equality

The comparison of object graphs whose types do not override `Equals` and `GetHashCode`.

* `PlainEquality` — only delegates override them, and only fields of delegate type hold delegates;
* `objectEquals_bisimilar`, `objectEquals_self` — what `Equals` tells apart, if overrides do not
  differ from the graph;
* `PlainEquality.isFaithful` — the defaults tell apart what is not bisimilar;
* `StructHolds`, `methodsEnd_of_acc` — the defaults end on structs that contain each other in finite
  chains.
-/

namespace TestExecutor

open TestExecutor.Library

variable {N T F P : Type} {G : ObjectGraph N T F P} (E : EqualityMethods G)

def EqualityMethods.IsPlain (n : N) : Prop := E.equals n = none ∧ E.getHashCode n = none

/-- No type overrides `Equals` or `GetHashCode`, except those of delegates, which return, are objects
equal to themselves, and are held by fields of delegate type only. -/
structure PlainEquality (x y : N) : Prop where
  expected : E.IsPlain x
  actual : E.IsPlain y
  element : ∀ n, ∀ e ∈ (G.array n).elements, E.IsPlain e
  field : ∀ n t, G.getType n = some t → (G.kind t).HasFields → ∀ f ∈ G.getFields t,
    G.isDelegate f = false → E.IsPlain (G.getValue f n)
  delegateField : ∀ n t, G.getType n = some t → (G.kind t).HasFields → ∀ f ∈ G.getFields t,
    G.isDelegate f = true → ∀ d, G.getType (G.getValue f n) = some d → G.kind d = .object
  delegate : ∀ n equals, E.equals n = some equals → equals n = some true
  delegateEnds : ∀ n equals m, E.equals n = some equals → equals m ≠ none
  delegateHash : ∀ n, E.getHashCode n ≠ some none

variable {E} {x y : N}

namespace PlainEquality

variable (h : PlainEquality E x y)

include h

theorem isClosed : IsClosed G (fun u v => E.IsPlain u ∧ E.IsPlain v) := by
  intro t u v _ ht _ p hp
  unfold ObjectGraph.contentPairs at hp
  split at hp
  · obtain ⟨hleft, hright⟩ := List.of_mem_zip hp
    exact ⟨h.element u p.1 hleft, h.element v p.2 hright⟩
  · rename_i harray
    have hfields : (G.kind t).HasFields := by
      rcases (G.kind t).cases with hatom | harray' | hfields
      · exact absurd hatom ht.notAtom
      · exact absurd harray' harray
      · exact hfields
    obtain ⟨f, hf, hc, rfl⟩ := G.mem_fieldPairs.mp hp
    exact ⟨h.field u t ht.expected hfields f hf hc.1, h.field v t ht.actual hfields f hf hc.1⟩

/-- What is compared has no methods of its own. -/
theorem plain {u v : N} (hcompared : ComparedFrom G x y u v) : E.IsPlain u ∧ E.IsPlain v := by
  induction hcompared with
  | roots => exact ⟨h.expected, h.actual⟩
  | content _ ht hshape hp ih => exact h.isClosed _ _ _ ih ht hshape _ hp

end PlainEquality

variable [DecidableEq N] [DecidableEq T] [DecidableEq P]

omit [DecidableEq N] in
theorem allEqual_true {equals : N → N → Option Bool} {pairs : List (N × N)}
    (h : allEqual equals pairs = some true) : ∀ p ∈ pairs, equals p.1 p.2 = some true := by
  induction pairs with
  | nil => exact fun p hp => absurd hp List.not_mem_nil
  | cons q pairs ih =>
      rw [allEqual] at h
      obtain ⟨equal, hequal, h⟩ := Option.bind_eq_some_iff.mp h
      cases equal with
      | false => cases h
      | true =>
          intro p hp
          rcases List.mem_cons.mp hp with rfl | hp
          · exact hequal
          · exact ih h p hp

omit [DecidableEq N] in
theorem allEqual_false {equals : N → N → Option Bool} {pairs : List (N × N)}
    (h : allEqual equals pairs = some false) : ∃ p ∈ pairs, equals p.1 p.2 = some false := by
  induction pairs with
  | nil => cases h
  | cons q pairs ih =>
      rw [allEqual] at h
      obtain ⟨equal, hequal, h⟩ := Option.bind_eq_some_iff.mp h
      cases equal with
      | false => exact ⟨q, List.mem_cons_self, hequal⟩
      | true =>
          obtain ⟨p, hp, hfalse⟩ := ih h
          exact ⟨p, List.mem_cons_of_mem q hp, hfalse⟩

namespace EqualityMethods

/-- What `Equals` says of a node that is not compared field by field. -/
theorem objectEquals_one {u v : N} {b : Bool} (hfields : ∀ t, ¬E.ComparesFields t u) {fuel : ℕ}
    (h : E.objectEquals (fuel + 1) u v = some b) :
    (G.getType u = none ∧ b = (G.getType v).isNone)
      ∨ (∃ t, G.getType u = some t ∧ (G.kind t).IsAtom
        ∧ b = decide (G.getType v = some t ∧ G.payload u = G.payload v))
      ∨ ((∃ t, G.getType u = some t ∧ (G.kind t = .object ∨ G.kind t = .array))
        ∧ b = decide (u = v))
      ∨ (∃ equals, E.equals u = some equals ∧ equals v = some b) := by
  cases hu : G.getType u with
  | none =>
      simp only [objectEquals, hu] at h
      exact Or.inl ⟨rfl, (Option.some.inj h).symm⟩
  | some t =>
      cases ht : G.kind t with
      | struct =>
          cases hequals : E.equals u with
          | none => exact absurd ⟨hu, ht, hequals⟩ (hfields t)
          | some equals =>
              simp only [objectEquals, hu, ht, hequals] at h
              exact Or.inr (Or.inr (Or.inr ⟨equals, rfl, h⟩))
      | object =>
          cases hequals : E.equals u with
          | none =>
              simp only [objectEquals, hu, ht, hequals, Option.elim_none] at h
              exact Or.inr (Or.inr (Or.inl ⟨⟨t, rfl, Or.inl ht⟩, (Option.some.inj h).symm⟩))
          | some equals =>
              simp only [objectEquals, hu, ht, hequals, Option.elim_some] at h
              exact Or.inr (Or.inr (Or.inr ⟨equals, rfl, h⟩))
      | array =>
          simp only [objectEquals, hu, ht] at h
          exact Or.inr (Or.inr (Or.inl ⟨⟨t, rfl, Or.inr ht⟩, (Option.some.inj h).symm⟩))
      | _ =>
          simp only [objectEquals, hu, ht] at h
          exact Or.inr (Or.inl ⟨t, rfl, by rw [ht]; decide, (Option.some.inj h).symm⟩)

/-- **What `Equals` takes to be equal** is bisimilar, where overrides only take for equal what is. -/
theorem objectEquals_bisimilar {S : N → Prop}
    (hfield : ∀ n t, S n → G.getType n = some t → (G.kind t).HasFields → ∀ f ∈ G.getFields t,
      G.isDelegate f = false → S (G.getValue f n))
    (hequals : ∀ n equals m, S n → E.equals n = some equals → equals m = some true →
      G.Bisimilar n m)
    {fuel : ℕ} {u v : N} (hu : S u) (hequal : E.objectEquals fuel u v = some true) :
    G.Bisimilar u v := by
  induction fuel generalizing u v with
  | zero => cases hequal
  | succ fuel ih =>
      by_cases hfields : ∃ t, E.ComparesFields t u
      · obtain ⟨t, hfields⟩ := hfields
        have hkind : (G.kind t).HasFields := Or.inr hfields.2.1
        rw [E.objectEquals_struct hfields] at hequal
        split at hequal
        · rename_i htype
          refine .of_matches (.object hfields.1 htype hkind fun f hf hc => ?_)
          exact ih (hfield u t hu hfields.1 hkind f hf hc.1)
            (allEqual_true hequal _ (List.mem_map_of_mem hf))
        · cases hequal
      · rw [not_exists] at hfields
        rcases E.objectEquals_one hfields hequal with
          ⟨hnull, hb⟩ | ⟨t, ht, hatom, hb⟩ | ⟨-, hb⟩ | ⟨equals, hsome, hb⟩
        · exact .of_matches (.null hnull (Option.isNone_iff_eq_none.mp hb.symm))
        · obtain ⟨htype, hpayload⟩ := of_decide_eq_true hb.symm
          exact .of_matches (.atom ht htype hatom hpayload)
        · obtain rfl := of_decide_eq_true hb.symm
          exact .refl u
        · exact hequals u equals v hu hsome hb

/-- A node is not different from itself, where overrides do not say so. -/
theorem objectEquals_self (hself : ∀ n equals, E.equals n = some equals → equals n = some true)
    {fuel : ℕ} {u : N} {b : Bool} (hequal : E.objectEquals fuel u u = some b) : b = true := by
  induction fuel generalizing u b with
  | zero => cases hequal
  | succ fuel ih =>
      by_cases hfields : ∃ t, E.ComparesFields t u
      · obtain ⟨t, hfields⟩ := hfields
        rw [E.objectEquals_struct hfields, if_pos hfields.1] at hequal
        cases b with
        | true => rfl
        | false =>
            obtain ⟨p, hp, hfalse⟩ := allEqual_false hequal
            obtain ⟨f, -, rfl⟩ := List.mem_map.mp hp
            exact ih hfalse
      · rw [not_exists] at hfields
        rcases E.objectEquals_one hfields hequal with
          ⟨hnull, rfl⟩ | ⟨t, ht, -, rfl⟩ | ⟨-, rfl⟩ | ⟨equals, hsome, hb⟩
        · rw [hnull]
          rfl
        · exact decide_eq_true ⟨ht, rfl⟩
        · exact decide_eq_true rfl
        · exact Option.some.inj (hb.symm.trans (hself u equals hsome))

/-- Pairs are found again. -/
theorem isReflexive (hself : ∀ n equals, E.equals n = some equals → equals n = some true)
    {S : N → N → Prop} (hends : MethodsEnd E S) : IsReflexive E S := by
  intro u v huv
  obtain ⟨fuel, hash, hhash⟩ := hends.hash u v huv
  obtain ⟨fuel', b, hb⟩ := hends.equals u v u v huv huv ⟨fuel, hash, hhash, hhash⟩
  refine ⟨fuel', ?_⟩
  obtain ⟨equal, hequal, hb'⟩ := Option.bind_eq_some_iff.mp hb
  obtain rfl := objectEquals_self hself hequal
  rw [EqualityMethods.pairEquals, hequal, Option.bind_some, if_pos rfl]
  have hright : E.objectEquals fuel' v v = some b := hb'
  rw [hright, objectEquals_self hself hright]

end EqualityMethods

theorem PlainEquality.isFaithful (h : PlainEquality E x y) : IsFaithful E (ComparedFrom G x y) := by
  have hbisimilar : ∀ {fuel : ℕ} {u v : N}, E.IsPlain u → E.objectEquals fuel u v = some true →
      G.Bisimilar u v := E.objectEquals_bisimilar
    (fun n t _ hn ht f hf hd => h.field n t hn ht f hf hd)
    (fun n equals m hn hsome _ => by rw [hn.1] at hsome; cases hsome)
  intro s t u v hst _ hidentifies
  obtain ⟨fuel, hash, -, -, hequal⟩ := hidentifies
  obtain ⟨hleft, hright⟩ := E.pairEquals_true hequal
  obtain ⟨hs, ht⟩ := h.plain hst.1
  exact ⟨hbisimilar hs hleft, hbisimilar ht hright⟩

/-! ### Structs in finite chains -/

variable (G) in
/-- A struct has a field with this value. -/
def StructHolds (u v : N) : Prop :=
  ∃ t f, G.getType v = some t ∧ G.kind t = .struct ∧ f ∈ G.getFields t ∧ G.getValue f v = u

omit [DecidableEq N] [DecidableEq T] [DecidableEq P] in
theorem mapM_ends {α β : Type} {f : ℕ → α → Option β}
    (hmono : ∀ k k' a b, k ≤ k' → f k a = some b → f k' a = some b) {as : List α}
    (h : ∀ a ∈ as, ∃ k b, f k a = some b) : ∃ k bs, as.mapM (f k) = some bs := by
  induction as with
  | nil => exact ⟨0, [], rfl⟩
  | cons a as ih =>
      obtain ⟨k, b, hb⟩ := h a List.mem_cons_self
      obtain ⟨l, bs, hbs⟩ := ih fun a ha => h a (List.mem_cons_of_mem _ ha)
      refine ⟨max k l, b :: bs, ?_⟩
      rw [List.mapM_cons, hmono k (max k l) a b (le_max_left k l) hb,
        mapM_mono (fun a b hab => hmono l (max k l) a b (le_max_right k l) hab) hbs]
      rfl

omit [DecidableEq N] in
theorem allEqual_ends {f : ℕ → N → N → Option Bool}
    (hmono : ∀ k k' a b r, k ≤ k' → f k a b = some r → f k' a b = some r) {pairs : List (N × N)}
    (h : ∀ p ∈ pairs, ∃ k r, f k p.1 p.2 = some r) : ∃ k r, allEqual (f k) pairs = some r := by
  induction pairs with
  | nil => exact ⟨0, true, rfl⟩
  | cons p pairs ih =>
      obtain ⟨k, r, hr⟩ := h p List.mem_cons_self
      obtain ⟨l, r', hr'⟩ := ih fun q hq => h q (List.mem_cons_of_mem _ hq)
      refine ⟨max k l, if r then r' else false, ?_⟩
      rw [allEqual, hmono k (max k l) p.1 p.2 r (le_max_left k l) hr, Option.bind_some]
      cases r with
      | false => rfl
      | true => exact allEqual_mono (fun a b r hab => hmono l _ a b r (le_max_right k l) hab) hr'

omit [DecidableEq N] [DecidableEq T] [DecidableEq P] in
theorem objectHash_ends (hends : ∀ n, E.getHashCode n ≠ some none) {u : N}
    (h : Acc (StructHolds G) u) : ∃ fuel hash, E.objectHash fuel u = some hash := by
  induction h with
  | intro u _ ih =>
      by_cases hfields : ∃ t, E.HashesFields t u
      · obtain ⟨t, hfields⟩ := hfields
        have hhashed : ∀ f ∈ E.hashedFields u, ∃ k hash,
            E.objectHash k (G.getValue f u) = some hash := fun f hf =>
          ih _ ⟨t, f, hfields.1, hfields.2.1, E.hashedFields_mem u t hfields.1 f hf, rfl⟩
        obtain ⟨k, hashes, hhashes⟩ := mapM_ends (f := fun k f => E.objectHash k (G.getValue f u))
          (fun k k' f hash hle hf => E.objectHash_mono hle hf) hhashed
        refine ⟨k + 1, E.structHash t hashes, ?_⟩
        rw [E.objectHash_struct hfields, hhashes]
        rfl
      · rw [not_exists] at hfields
        obtain ⟨hash, heq, hsome⟩ := E.objectHash_other hfields
        obtain ⟨code, rfl⟩ := hsome (hends u)
        exact ⟨1, code, heq 0⟩

theorem objectEquals_ends (hends : ∀ n equals m, E.equals n = some equals → equals m ≠ none) {u : N}
    (h : Acc (StructHolds G) u) : ∀ v, ∃ fuel b, E.objectEquals fuel u v = some b := by
  induction h with
  | intro u _ ih =>
      intro v
      by_cases hfields : ∃ t, E.ComparesFields t u
      · obtain ⟨t, hfields⟩ := hfields
        have hpairs : ∀ p ∈ (G.getFields t).map fun f => (G.getValue f u, G.getValue f v),
            ∃ k r, E.objectEquals k p.1 p.2 = some r := by
          intro p hp
          obtain ⟨f, hf, rfl⟩ := List.mem_map.mp hp
          exact ih _ ⟨t, f, hfields.1, hfields.2.1, hf, rfl⟩ _
        obtain ⟨k, r, hr⟩ := allEqual_ends (f := E.objectEquals)
          (fun k k' a b r hle hab => E.objectEquals_mono hle hab) hpairs
        by_cases htype : G.getType v = some t
        · refine ⟨k + 1, r, ?_⟩
          rw [E.objectEquals_struct hfields, if_pos htype, hr]
        · refine ⟨1, false, ?_⟩
          rw [E.objectEquals_struct hfields, if_neg htype]
      · rw [not_exists] at hfields
        obtain ⟨r, heq, hsome⟩ := E.objectEquals_other hfields v
        obtain ⟨b, rfl⟩ := hsome fun equals hequals => hends u equals v hequals
        exact ⟨1, b, heq 0⟩

/-- **The methods end** if overrides do, and structs contain each other in finite chains. -/
theorem methodsEnd_of_acc {S : N → N → Prop} (hhash : ∀ n, E.getHashCode n ≠ some none)
    (hequals : ∀ n equals m, E.equals n = some equals → equals m ≠ none)
    (h : ∀ u v, IsAdded G S u v → Acc (StructHolds G) u ∧ Acc (StructHolds G) v) :
    MethodsEnd E S := by
  refine ⟨fun u v huv => ?_, fun s t u v hst huv _ => ?_⟩
  · obtain ⟨hu, hv⟩ := h u v huv
    obtain ⟨k, hash, hk⟩ := objectHash_ends hhash hu
    obtain ⟨l, hash', hl⟩ := objectHash_ends hhash hv
    exact ⟨max k l, E.combine hash hash', E.pairHash_eq
      (E.objectHash_mono (le_max_left k l) hk) (E.objectHash_mono (le_max_right k l) hl)⟩
  · obtain ⟨hs, ht⟩ := h s t hst
    obtain ⟨k, b, hb⟩ := objectEquals_ends hequals hs u
    obtain ⟨l, b', hb'⟩ := objectEquals_ends hequals ht v
    refine ⟨max k l, if b then b' else false, ?_⟩
    rw [EqualityMethods.pairEquals, E.objectEquals_mono (le_max_left k l) hb, Option.bind_some]
    cases b with
    | false => rfl
    | true => exact E.objectEquals_mono (le_max_right k l) hb'

end TestExecutor
