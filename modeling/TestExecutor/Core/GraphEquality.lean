import TestExecutor.Core.ComparisonWalk
import TestExecutor.Core.DefaultEquality

/-!
# The comparison decides bisimilarity

Object graphs whose types do not override `Equals` and `GetHashCode`, and the graphs on which the
defaults never end.

* `DecidesEquality` — the comparison ends, and tells whether the roots are bisimilar;
* `FiniteEqual` — structs that the default `Equals` can find equal, field by field;
* `Met`, `PlainEquality.hash_ends` — in a comparison that answers that the roots are equal, all hash
  codes end;
* `decidesEquality_iff` — **the comparison is right** exactly if the lookups of the pairs that it comes
  to end, and it answers nothing wrong if they do not.
-/

namespace TestExecutor

open TestExecutor.Library

variable {N T F P : Type} {G : ObjectGraph N T F P}

/-! ### Structs that are equal -/

variable (G) in
/-- Equal as structs are: field by field, through structs in finite chains. -/
inductive FiniteEqual : N → N → Prop
  | leaf {u v : N} (htype : G.getType u = G.getType v)
      (hatom : ∀ t, G.getType u = some t → (G.kind t).IsAtom) : FiniteEqual u v
  | same {u : N} {t : T} (hu : G.getType u = some t) (ht : G.kind t = .object ∨ G.kind t = .array) :
      FiniteEqual u u
  | struct {u v : N} {t : T} (hu : G.getType u = some t) (hv : G.getType v = some t)
      (ht : G.kind t = .struct) (h : ∀ f ∈ G.getFields t, G.isDelegate f = false →
        FiniteEqual (G.getValue f u) (G.getValue f v)) : FiniteEqual u v

namespace FiniteEqual

theorem getType_eq {u v : N} (h : FiniteEqual G u v) : G.getType u = G.getType v := by
  cases h with
  | leaf htype _ => exact htype
  | same _ _ => rfl
  | struct hu hv _ _ => rw [hu, hv]

/-- Nodes of a kind that is no primitive, by their kind. -/
theorem cases_of_not_isAtom {u v : N} {t : T} (h : FiniteEqual G u v) (hv : G.getType v = some t)
    (ht : ¬(G.kind t).IsAtom) : (u = v ∧ (G.kind t = .object ∨ G.kind t = .array))
      ∨ (G.kind t = .struct ∧ ∀ f ∈ G.getFields t, G.isDelegate f = false →
        FiniteEqual G (G.getValue f u) (G.getValue f v)) := by
  have hu : G.getType u = some t := h.getType_eq.trans hv
  cases h with
  | leaf _ hatom => exact absurd (hatom t hu) ht
  | same hu' ht' =>
      obtain rfl := Option.some.inj (hu.symm.trans hu')
      exact Or.inl ⟨rfl, ht'⟩
  | struct hu' _ ht' hfields =>
      obtain rfl := Option.some.inj (hu.symm.trans hu')
      exact Or.inr ⟨ht', hfields⟩

theorem trans {u v w : N} (h : FiniteEqual G u v) (h' : FiniteEqual G v w) : FiniteEqual G u w := by
  induction h generalizing w with
  | leaf htype hatom => exact .leaf (htype.trans h'.getType_eq) hatom
  | same _ _ => exact h'
  | @struct u v t hu hv ht _ ih =>
      have hw : G.getType w = some t := h'.getType_eq.symm.trans hv
      have hnotAtom : ¬(G.kind t).IsAtom := by rw [ht]; decide
      rcases h'.cases_of_not_isAtom hw hnotAtom with ⟨-, hkind⟩ | ⟨-, hfields⟩
      · rw [ht] at hkind
        exact absurd hkind (by decide)
      · exact .struct hu hw ht fun f hf hd => ih f hf hd (hfields f hf hd)

end FiniteEqual

variable {E : EqualityMethods G} {x y : N}

section Defaults

variable (h : PlainEquality E x y)

include h

/-- What is stored in a struct that is equal to another one has a hash code. -/
theorem FiniteEqual.hash_ends {u v : N} (hequal : FiniteEqual G u v) :
    ∃ fuel hash, E.objectHash fuel v = some hash := by
  have hother : ∀ w, (∀ t, G.getType w = some t → G.kind t ≠ .struct) →
      ∃ fuel hash, E.objectHash fuel w = some hash := by
    intro w hkind
    obtain ⟨hash, heq, hsome⟩ := E.objectHash_other fun t hfields => hkind t hfields.1 hfields.2.1
    obtain ⟨code, rfl⟩ := hsome (h.delegateHash w)
    exact ⟨1, code, heq 0⟩
  induction hequal with
  | @leaf u v htype hatom =>
      refine hother v fun t ht hstruct => ?_
      have hatom' := hatom t (htype.trans ht)
      rw [hstruct] at hatom'
      exact absurd hatom' (by decide)
  | @same u t hu ht =>
      refine hother u fun t' hu' hstruct => ?_
      obtain rfl := Option.some.inj (hu.symm.trans hu')
      rw [hstruct] at ht
      exact absurd ht (by decide)
  | @struct u v t hu hv ht _ ih =>
      by_cases hfields : ∃ t', E.HashesFields t' v
      · obtain ⟨t', hfields⟩ := hfields
        obtain rfl := Option.some.inj (hv.symm.trans hfields.1)
        have hhashed : ∀ f ∈ E.hashedFields v, ∃ k hash,
            E.objectHash k (G.getValue f v) = some hash := by
          intro f hf
          have hmem := E.hashedFields_mem v t hv f hf
          cases hd : G.isDelegate f with
          | false => exact ih f hmem hd
          | true =>
              refine hother _ fun d htype hstruct => ?_
              have hobject := h.delegateField v t hv (Or.inr ht) f hmem hd d htype
              rw [hstruct] at hobject
              exact absurd hobject (by decide)
        obtain ⟨k, hashes, hhashes⟩ := mapM_ends (f := fun k f => E.objectHash k (G.getValue f v))
          (fun k k' f hash hle hf => E.objectHash_mono hle hf) hhashed
        refine ⟨k + 1, E.structHash t hashes, ?_⟩
        rw [E.objectHash_struct hfields, hhashes]
        rfl
      · rw [not_exists] at hfields
        obtain ⟨hash, heq, hsome⟩ := E.objectHash_other hfields
        obtain ⟨code, rfl⟩ := hsome (h.delegateHash v)
        exact ⟨1, code, heq 0⟩

variable [DecidableEq N] [DecidableEq T] [DecidableEq P]

theorem PlainEquality.finiteEqual {fuel : ℕ} {u v : N} (hu : E.IsPlain u)
    (hequal : E.objectEquals fuel u v = some true) : FiniteEqual G u v := by
  induction fuel generalizing u v with
  | zero => cases hequal
  | succ fuel ih =>
      by_cases hfields : ∃ t, E.ComparesFields t u
      · obtain ⟨t, hfields⟩ := hfields
        rw [E.objectEquals_struct hfields] at hequal
        split at hequal
        · rename_i htype
          refine .struct hfields.1 htype hfields.2.1 fun f hf hd => ?_
          exact ih (h.field u t hfields.1 (Or.inr hfields.2.1) f hf hd)
            (allEqual_true hequal _ (List.mem_map_of_mem hf))
        · cases hequal
      · rw [not_exists] at hfields
        rcases E.objectEquals_one hfields hequal with
          ⟨hnull, hb⟩ | ⟨t, ht, hatom, hb⟩ | ⟨⟨t, ht, hkind⟩, hb⟩ | ⟨equals, hsome, -⟩
        · refine .leaf (hnull.trans (Option.isNone_iff_eq_none.mp hb.symm).symm) fun t ht => ?_
          rw [hnull] at ht
          cases ht
        · obtain ⟨htype, -⟩ := of_decide_eq_true hb.symm
          refine .leaf (ht.trans htype.symm) fun t' ht' => ?_
          obtain rfl := Option.some.inj (ht.symm.trans ht')
          exact hatom
        · obtain rfl := of_decide_eq_true hb.symm
          exact .same ht hkind
        · rw [hu.1] at hsome
          cases hsome

theorem PlainEquality.finiteEqual_of_identifies {s t u v : N} (hst : ComparedFrom G x y s t)
    (hidentifies : Identifies E s t u v) : FiniteEqual G s u ∧ FiniteEqual G t v := by
  obtain ⟨fuel, hash, -, -, hequal⟩ := hidentifies
  obtain ⟨hleft, hright⟩ := E.pairEquals_true hequal
  obtain ⟨hs, ht⟩ := h.plain hst
  exact ⟨h.finiteEqual hs hleft, h.finiteEqual ht hright⟩

/-! ### What a positive answer has gone through -/

/-- In the set, or equal to a pair that is in the set, or both equal to one node. -/
inductive Met (compared : Compared N) (u v : N) : Prop
  | visited (h : Visited compared u v)
  | equal {s t : N} (hst : Visited compared s t ∨ s = t) (hs : FiniteEqual G s u)
      (ht : FiniteEqual G t v)

/-- The set behind a positive answer. -/
structure Answered (E : EqualityMethods G) (x y : N) (compared : Compared N) : Prop where
  entries : Entries E (ComparedFrom G x y) compared
  contents : ∀ s t u, Visited compared s t → G.Expands u s t →
    ∀ p ∈ G.contentPairs u s t, IsCovered E compared p.1 p.2

omit h in
theorem exists_answered {fuel : ℕ} (hrun : ObjectsComparer.equals E fuel x y = some true) :
    ∃ compared, Answered E x y compared ∧ IsCovered E compared x y := by
  obtain ⟨⟨b, compared⟩, hr, hb⟩ := Option.map_eq_some_iff.mp hrun
  obtain rfl : b = true := hb
  obtain ⟨hjustifies, hcovered⟩ := equals_true (comparedFrom_isClosed x y) [] x y compared
    (fun _ _ _ hmem => absurd hmem List.not_mem_nil) .roots hr
  refine ⟨compared, ⟨hjustifies.entries, ?_⟩, hcovered⟩
  rintro s t u ⟨hash, hmem⟩ hu
  rcases hjustifies.justified hash s t hmem with hmem | ⟨u', hu', -, hcontents⟩
  · exact absurd hmem List.not_mem_nil
  · obtain rfl := Option.some.inj (hu.expected.symm.trans hu'.expected)
    exact hcontents

variable {compared : Compared N} (hanswered : Answered E x y compared)

include hanswered

theorem IsCovered.met {u v : N} {t : T} (ht : G.Expands t u v) (hcovered : IsCovered E compared u v) :
    Met (G := G) compared u v := by
  cases hcovered with
  | same hsettled _ => exact absurd ht (hsettled t)
  | visited hvisited => exact .visited hvisited
  | found _ hst hidentifies =>
      obtain ⟨hash, hmem⟩ := hst
      obtain ⟨hleft, hright⟩ :=
        h.finiteEqual_of_identifies (hanswered.entries _ _ _ hmem).1.1 hidentifies
      exact .equal (Or.inl ⟨hash, hmem⟩) hleft hright

/-- **One step** from a pair that has been met leads to another one. -/
theorem Met.content {u v : N} {t t' : T} (hmet : Met (G := G) compared u v) (ht : G.Expands t u v)
    {p : N × N} (hp : p ∈ G.contentPairs t u v) (ht' : G.Expands t' p.1 p.2) :
    Met (G := G) compared p.1 p.2 := by
  have hvisited : Visited compared u v → Met (G := G) compared p.1 p.2 := fun hvisited =>
    (hanswered.contents u v t hvisited ht p hp).met h hanswered ht'
  cases hmet with
  | visited hmem => exact hvisited hmem
  | @equal s s' hst hs hs' =>
      rcases hs.cases_of_not_isAtom ht.expected ht.notAtom with ⟨rfl, hkind⟩ | ⟨hstruct, hfields⟩
      · rcases hs'.cases_of_not_isAtom ht.actual ht.notAtom with ⟨rfl, -⟩ | ⟨hstruct, -⟩
        · rcases hst with hmem | rfl
          · exact hvisited hmem
          · refine absurd ⟨rfl, ?_⟩ ht.distinct
            cases hplace : G.inPlace s with
            | false => rfl
            | true =>
                have hvalue := G.inPlace_valueType s t hplace ht.expected
                rcases hkind with hkind | hkind <;> rw [hkind] at hvalue <;>
                  exact absurd hvalue (by unfold TypeKind.IsValueType; decide)
        · rw [hstruct] at hkind
          exact absurd hkind (by decide)
      · rcases hs'.cases_of_not_isAtom ht.actual ht.notAtom with ⟨-, hkind⟩ | ⟨-, hfields'⟩
        · rw [hstruct] at hkind
          exact absurd hkind (by decide)
        · rw [ObjectGraph.contentPairs, if_neg (by rw [hstruct]; decide)] at hp
          obtain ⟨f, hf, hc, rfl⟩ := G.mem_fieldPairs.mp hp
          have hleft := hfields f hf hc.1
          have hright := hfields' f hf hc.1
          rcases hst with hmem | rfl
          · have htype : G.getType s = some t := hs.getType_eq.trans ht.expected
            obtain ⟨hash, hentry⟩ := hmem
            obtain ⟨⟨-, u', hu'⟩, -⟩ := hanswered.entries hash s s' hentry
            obtain rfl := Option.some.inj (htype.symm.trans hu'.expected)
            have hpair : (G.getValue f s, G.getValue f s') ∈ G.contentPairs t s s' := by
              rw [ObjectGraph.contentPairs, if_neg (by rw [hstruct]; decide)]
              exact G.mem_fieldPairs.mpr ⟨f, hf, hc, rfl⟩
            cases hanswered.contents s s' t ⟨hash, hentry⟩ hu' _ hpair with
            | same hsettled _ =>
                -- fields that are equal to different ones can only be the same object
                have hsame : G.getValue f s = G.getValue f s' := by
                  by_contra hdiffer
                  exact hsettled t' ⟨hleft.getType_eq.trans ht'.expected,
                    hright.getType_eq.trans ht'.actual, fun hsame => hdiffer hsame.1, ht'.notAtom⟩
                exact .equal (Or.inr hsame) hleft hright
            | visited hmem => exact .equal (Or.inl hmem) hleft hright
            | found _ hmem hidentifies =>
                obtain ⟨hash', hentry'⟩ := hmem
                obtain ⟨hleft', hright'⟩ :=
                  h.finiteEqual_of_identifies (hanswered.entries _ _ _ hentry').1.1 hidentifies
                exact .equal (Or.inl ⟨hash', hentry'⟩) (hleft'.trans hleft) (hright'.trans hright)
          · exact .equal (Or.inr rfl) hleft hright

/-- Every pair that a positive answer has come to has been met. -/
theorem met_of_comparedFrom (hroots : IsCovered E compared x y) {u v : N}
    (hcompared : ComparedFrom G x y u v) : ∀ t, G.Expands t u v → Met (G := G) compared u v := by
  induction hcompared with
  | roots => exact fun t ht => hroots.met h hanswered ht
  | content _ ht _ hp ih => exact fun t' ht' => (ih _ ht).content h hanswered ht hp ht'

/-- **All hash codes end** in a comparison that has found the roots to be equal. -/
theorem PlainEquality.hash_ends (hroots : IsCovered E compared x y) {u v : N}
    (hadded : IsAdded G (ComparedFrom G x y) u v) : ∃ fuel hash, E.pairHash fuel u v = some hash := by
  obtain ⟨hcompared, t, ht⟩ := hadded
  cases met_of_comparedFrom h hanswered hroots hcompared t ht with
  | visited hmem =>
      obtain ⟨hash, hmem⟩ := hmem
      obtain ⟨-, fuel, hhash⟩ := hanswered.entries hash u v hmem
      exact ⟨fuel, hash, hhash⟩
  | equal _ hleft hright =>
      obtain ⟨k, hash, hhash⟩ := hleft.hash_ends h
      obtain ⟨l, hash', hhash'⟩ := hright.hash_ends h
      exact ⟨max k l, E.combine hash hash', EqualityMethods.pairHash_eq
        (E.objectHash_mono (le_max_left k l) hhash) (E.objectHash_mono (le_max_right k l) hhash')⟩

end Defaults

/-! ### The comparison is right -/

variable [DecidableEq N] [DecidableEq T] [DecidableEq P]

/-- The comparison ends, and tells whether the roots are bisimilar. -/
def DecidesEquality (E : EqualityMethods G) (x y : N) : Prop :=
  ∃ fuel b, ObjectsComparer.equals E fuel x y = some b ∧ (b = true ↔ G.Bisimilar x y)

theorem PlainEquality.answer_iff (h : PlainEquality E x y) {fuel : ℕ} {b : Bool}
    (hrun : ObjectsComparer.equals E fuel x y = some b) : b = true ↔ G.Bisimilar x y :=
  comparer_correct h.isFaithful hrun

omit [DecidableEq N] in
theorem PlainEquality.neverDiffers [DecidableEq N] (h : PlainEquality E x y) (S : N → N → Prop) :
    NeverDiffers E S := by
  intro u v _ fuel hfalse
  obtain ⟨equal, hequal, hfalse⟩ := Option.bind_eq_some_iff.mp hfalse
  obtain rfl := E.objectEquals_self h.delegate hequal
  exact absurd (E.objectEquals_self h.delegate hfalse) (by decide)

/-- Without overrides there is an answer exactly if all lookups end. -/
theorem PlainEquality.answers_iff [Fintype N] (h : PlainEquality E x y) :
    (∃ fuel b, ObjectsComparer.equals E fuel x y = some b) ↔ LookupsEnd E x y := by
  rw [TestExecutor.answers_iff]
  exact ⟨fun hends => hends.1, fun hlookups => ⟨hlookups, walkEnds (h.neverDiffers _)⟩⟩

/-- **`ObjectsComparer` decides equality** of graphs whose types override nothing exactly if, for the
pairs that it comes to while all pairs before them agree, the lookups with the default hash codes and
the default `Equals` end.  An answer is right in any case.  The lookups do end if the methods end for
whatever can be compared, and they do not if the roots are bisimilar and some hash code does not. -/
theorem decidesEquality_iff [Fintype N] (h : PlainEquality E x y) :
    (DecidesEquality E x y ↔ LookupsEnd E x y)
      ∧ (∀ fuel b, ObjectsComparer.equals E fuel x y = some b → (b = true ↔ G.Bisimilar x y))
      ∧ (MethodsEnd E (ComparedFrom G x y) → LookupsEnd E x y)
      ∧ (G.Bisimilar x y → LookupsEnd E x y → ∀ u v, IsAdded G (ComparedFrom G x y) u v →
        ∃ fuel hash, E.pairHash fuel u v = some hash) := by
  refine ⟨?_, fun fuel b hrun => h.answer_iff hrun, lookupsEnd_of_methodsEnd, ?_⟩
  · rw [← h.answers_iff]
    constructor
    · rintro ⟨fuel, b, hrun, -⟩
      exact ⟨fuel, b, hrun⟩
    · rintro ⟨fuel, b, hrun⟩
      exact ⟨fuel, b, hrun, h.answer_iff hrun⟩
  · intro hequal hlookups u v hadded
    obtain ⟨fuel, b, hrun⟩ := h.answers_iff.mpr hlookups
    obtain rfl := (h.answer_iff hrun).mpr hequal
    obtain ⟨compared, hanswered, hroots⟩ := exists_answered hrun
    exact h.hash_ends hanswered hroots hadded

/-- The defaults of the runtime, with hash codes that tell nothing apart. -/
def defaultMethods (G : ObjectGraph N T F P) (hashedFields : N → List F)
    (h : ∀ n t, G.getType n = some t → ∀ f ∈ hashedFields n, f ∈ G.getFields t) :
    EqualityMethods G where
  equals _ := none
  getHashCode _ := none
  identityHash _ := 0
  payloadHash _ _ := 0
  hashedFields := hashedFields
  structHash _ _ := 0
  combine _ _ := 0
  hashedFields_mem := h

omit [DecidableEq N] [DecidableEq T] [DecidableEq P] in
theorem defaultMethods_plain {hashedFields : N → List F}
    {h : ∀ n t, G.getType n = some t → ∀ f ∈ hashedFields n, f ∈ G.getFields t}
    (hdelegate : ∀ f, G.isDelegate f = false) (x y : N) :
    PlainEquality (defaultMethods G hashedFields h) x y := by
  refine ⟨⟨rfl, rfl⟩, ⟨rfl, rfl⟩, fun _ _ _ => ⟨rfl, rfl⟩, fun _ _ _ _ _ _ _ => ⟨rfl, rfl⟩, ?_,
    nofun, nofun, nofun⟩
  intro n t _ _ f _ hd
  rw [hdelegate f] at hd
  cases hd

/-- Boxes of a struct with one field, each of which holds itself, and two arrays, each of a number and
one of the boxes: `[1, b]` and `[2, b']`. -/
def boxGraph : ObjectGraph (Fin 6) (Fin 3) Unit ℕ where
  kind type := if type = 0 then .struct else if type = 1 then .array else .primitive
  getFields type := if type = 0 then [()] else []
  name _ := "value"
  isDelegate _ := false
  getType n := some (if n.val < 2 then 0 else if n.val < 4 then 1 else 2)
  payload n := n.val
  array n := if n = 2 then ⟨[(2, 0)], [4, 0], rfl⟩ else if n = 3 then ⟨[(2, 0)], [5, 1], rfl⟩
    else ⟨[(0, 0)], [], rfl⟩
  getValue _ n := n
  inPlace _ := false
  inPlace_valueType _ _ := nofun

/-- The default hash code of a struct is made from its first field that is not null. -/
def boxMethods : EqualityMethods boxGraph :=
  defaultMethods boxGraph (fun n => if n.val < 2 then [()] else []) fun n t ht f hf => by
    change some (if n.val < 2 then (0 : Fin 3) else _) = some t at ht
    split at hf
    · rename_i hbox
      rw [if_pos hbox] at ht
      obtain rfl := Option.some.inj ht
      exact hf
    · cases hf

/-- Where the numbers differ, the boxes are not compared. -/
theorem decidesEquality_iff_numbers :
    LookupsEnd boxMethods 2 3 ∧ DecidesEquality boxMethods 2 3 := by
  have hplain : PlainEquality boxMethods 2 3 := defaultMethods_plain (fun _ => rfl) 2 3
  have hlookups : LookupsEnd boxMethods 2 3 :=
    hplain.answers_iff.mp ⟨3, false, by decide +kernel⟩
  exact ⟨hlookups, (decidesEquality_iff hplain).1.mpr hlookups⟩

theorem boxMethods_no_hash (fuel : ℕ) : boxMethods.objectHash fuel 0 = none := by
  induction fuel with
  | zero => rfl
  | succ fuel ih =>
      rw [boxMethods.objectHash_struct (t := 0) ⟨rfl, rfl, rfl⟩]
      show (([()] : List Unit).mapM fun _ => boxMethods.objectHash fuel 0).map _ = none
      rw [List.mapM_cons, ih]
      rfl

/-- The hash code of a box that holds itself never ends, and so there is no answer. -/
theorem box_not_decidesEquality : PlainEquality boxMethods 0 1 ∧ boxGraph.Bisimilar 0 1
    ∧ ¬DecidesEquality boxMethods 0 1 := by
  have hexpands : boxGraph.Expands 0 0 1 := ⟨rfl, rfl, by decide, by decide⟩
  refine ⟨defaultMethods_plain (fun _ => rfl) 0 1, ⟨fun a b => a = 0 ∧ b = 1, ?_, rfl, rfl⟩, ?_⟩
  · rintro a b ⟨rfl, rfl⟩
    exact .object rfl rfl (Or.inr rfl) fun _ _ _ => ⟨rfl, rfl⟩
  · rintro ⟨fuel, b, hrun, -⟩
    obtain ⟨r, hr, -⟩ := Option.map_eq_some_iff.mp hrun
    cases fuel with
    | zero => cases hr
    | succ fuel =>
        rw [equals_expands hexpands, addCompared, EqualityMethods.pairHash,
          boxMethods_no_hash fuel] at hr
        cases hr

end TestExecutor
