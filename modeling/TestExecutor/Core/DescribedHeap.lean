import TestExecutor.Library.Matching
import TestExecutor.Core.TestResolver

/-!
# The heap that a test describes

What the messages of a test mean, in terms of addresses and without making objects, and how the
objects that the resolver makes realise it.

* `denote`, `effect` — the value of an expression, the place that a statement writes and its value;
* `Realises` — an object with an address is the object under the address;
* `Simulation` — the state of the resolver realises the places of the objects it has made;
* `resolveReferenceType_matches`, `instantiateExpression_matches`, `resolveStatement_matches` — each
  step of the resolver does what the messages mean.
-/

namespace TestExecutor.TestResolver

open TestExecutor.Library

/-! ### What messages mean -/

section Meaning

variable {τ : Types} (clr : Clr τ)

/-- The address of a mention, if an object of its kind can be made. -/
def Reference.denote (r : Reference) : Except (ResolverException τ.Err) Int32 := do
  let kind ← r.kind clr
  let _ ← (clr.createInstance kind).mapError .runtime
  return r.address

mutual

/-- The value of an expression. -/
def denote : Expr → Except (ResolverException τ.Err) (Value τ Int32)
  | .const c => do
      let d ← c.datum
      return .datum d
  | .combine sightType slices => do
      let type ← resolveType clr sightType
      let slices ← denoteSlices slices
      let o ← (reinterpretCombine clr.marshalling (clr.objType type) slices).mapError .bytes
      return .datum (.obj o)
  | .array i => do
      let a ← (Reference.array i).denote clr
      return .ref a
  | .object i => do
      let a ← (Reference.object i).denote clr
      return .ref a
  | .ilType type => do
      let t ← resolveType clr type
      return .datum (.type t)
  | .unexpected => return .datum (.obj .null)
  | .unknown url => .error (.noDescriptor url)

def denoteSlice : SliceMessage → Except (ResolverException τ.Err) (Slice τ.S)
  | .mk expr start stop pos => do
      let v ← denote expr
      return ⟨v.toObj, start, stop, pos⟩

def denoteSlices : List SliceMessage → Except (ResolverException τ.Err) (List (Slice τ.S))
  | [] => return []
  | slice :: slices => do
      let v ← denoteSlice slice
      let vs ← denoteSlices slices
      return v :: vs

end

/-- The place that a statement writes, and the value that it writes there, for addresses of the given
kinds. -/
def effect (kind : Int32 → Kind τ) :
    Statement → Except (ResolverException τ.Err) (Option (Place τ Int32 × Value τ Int32))
  | .setObjectField objInstance fieldRepr value => do
      let a ← (Reference.object objInstance).denote clr
      let v ← denote clr value
      match ← resolveField clr objInstance.typeRepr fieldRepr with
      | none => .error .nullReference
      | some f =>
          let place ← fieldPlace clr (fun a => some (kind a)) a f
          let v ← assign clr (fun a => some (kind a)) (.field f) v
          return some (place, v)
  | .setArrayIndex arrInstance index value => do
      let a ← (Reference.array arrInstance).denote clr
      let array ← asArray (fun a => some (kind a)) a
      let v ← denote clr value
      let place ← elementPlace a array index
      let v ← assign clr (fun a => some (kind a)) (.element array.1) v
      return some (place, v)
  | .unexpected => return none
  | .unknown url => .error (.noDescriptor url)

end Meaning

/-! ### Mentions -/

mutual

/-- All mentions of addresses in an expression. -/
def Expr.references : Expr → List Reference
  | .combine _ slices => slicesReferences slices
  | .array i => [.array i]
  | .object i => [.object i]
  | _ => []

def SliceMessage.references : SliceMessage → List Reference
  | .mk expr _ _ _ => expr.references

def slicesReferences : List SliceMessage → List Reference
  | [] => []
  | slice :: slices => slice.references ++ slicesReferences slices

end

def Statement.references : Statement → List Reference
  | .setObjectField objInstance _ value => .object objInstance :: value.references
  | .setArrayIndex arrInstance _ value => .array arrInstance :: value.references
  | _ => []

def addresses (rs : List Reference) : List Int32 := rs.map Reference.address

theorem addresses_append (rs rs' : List Reference) :
    addresses (rs ++ rs') = addresses rs ++ addresses rs' := List.map_append

variable {τ : Types} {clr : Clr τ} {kind : Int32 → Kind τ}

/-- The mentions name the kinds of their addresses. -/
def NamesKinds (clr : Clr τ) (kind : Int32 → Kind τ) (rs : List Reference) : Prop :=
  ∀ r ∈ rs, r.kind clr = .ok (kind r.address)

theorem NamesKinds.left {rs rs' : List Reference} (h : NamesKinds clr kind (rs ++ rs')) :
    NamesKinds clr kind rs := fun r hr => h r (List.mem_append_left rs' hr)

theorem NamesKinds.right {rs rs' : List Reference} (h : NamesKinds clr kind (rs ++ rs')) :
    NamesKinds clr kind rs' := fun r hr => h r (List.mem_append_right rs hr)

/-! ### Realisation -/

/-- A value in terms of addresses, and the value with the objects under these addresses. -/
inductive Realises (instances : Dictionary Int32 ℕ) : Value τ Int32 → Value τ ℕ → Prop
  | datum (d : Datum τ) : Realises instances (.datum d) (.datum d)
  | ref {a : Int32} {o : ℕ} : instances.lookup a = some o → Realises instances (.ref a) (.ref o)

inductive RealisesContent (instances : Dictionary Int32 ℕ) :
    Content τ Int32 → Content τ ℕ → Prop
  | value {v : Value τ Int32} {w : Value τ ℕ} :
      Realises instances v w → RealisesContent instances (.value v) (.value w)
  | inner {a : Int32} {o : ℕ} (k : ℕ) :
      instances.lookup a = some o → RealisesContent instances (.inner a k) (.inner o k)

inductive RealisesPlace (instances : Dictionary Int32 ℕ) : Place τ Int32 → Place τ ℕ → Prop
  | static (f : τ.Fld) : RealisesPlace instances (.static f) (.static f)
  | cell {a : Int32} {o : ℕ} (c : Cell τ) :
      instances.lookup a = some o → RealisesPlace instances (.cell a c) (.cell o c)

/-- The new state keeps the objects under their addresses, and has objects for the given addresses
besides. -/
structure Grown (s s' : State τ) (as : List Int32) : Prop where
  kept : ∀ a o, s.instances.lookup a = some o → s'.instances.lookup a = some o
  keys : ∀ a, a ∈ s'.instances.keys ↔ a ∈ s.instances.keys ∨ a ∈ as

variable {s s' s'' : State τ}

theorem Grown.refl : Grown s s [] := ⟨fun _ _ h => h, fun _ => by simp⟩

theorem Grown.trans {as bs : List Int32} (h : Grown s s' as) (h' : Grown s' s'' bs) :
    Grown s s'' (as ++ bs) := by
  refine ⟨fun a o ho => h'.kept a o (h.kept a o ho), fun a => ?_⟩
  rw [h'.keys, h.keys, List.mem_append, or_assoc]

theorem Realises.grow {as : List Int32} {v : Value τ Int32} {w : Value τ ℕ}
    (h : Realises s.instances v w) (hgrown : Grown s s' as) : Realises s'.instances v w := by
  cases h with
  | datum d => exact .datum d
  | ref ho => exact .ref (hgrown.kept _ _ ho)

theorem RealisesContent.grow {as : List Int32} {v : Content τ Int32} {w : Content τ ℕ}
    (h : RealisesContent s.instances v w) (hgrown : Grown s s' as) :
    RealisesContent s'.instances v w := by
  cases h with
  | value hv => exact .value (hv.grow hgrown)
  | inner k ho => exact .inner k (hgrown.kept _ _ ho)

/-- The state of the resolver and the places in terms of addresses: objects are under one address
each and of its kind, their places hold what those of the address do, and an address without an
object has its initial contents. -/
structure Simulation (clr : Clr τ) (kind : Int32 → Kind τ)
    (contents : Place τ Int32 → Content τ Int32) (s : State τ) : Prop where
  injective : ∀ a b o, s.instances.lookup a = some o → s.instances.lookup b = some o → a = b
  object : ∀ a o, s.instances.lookup a = some o → s.objects[o]? = some (kind a)
  owned : ∀ o, o < s.objects.length → ∃ a, s.instances.lookup a = some o
  creatable : ∀ a o, s.instances.lookup a = some o →
    ∃ initial, clr.createInstance (kind a) = .ok initial
  fresh : ∀ a, s.instances.lookup a = none → ∀ initial, clr.createInstance (kind a) = .ok initial →
    ∀ c, contents (.cell a c) = (initial c).content a
  contents : ∀ p q, RealisesPlace s.instances p q →
    RealisesContent s.instances (contents p) (s.contents q)

variable {contents : Place τ Int32 → Content τ Int32}

/-! ### New objects -/

theorem Simulation.object_lt (h : Simulation clr kind contents s) {a : Int32} {o : ℕ}
    (ho : s.instances.lookup a = some o) : o < s.objects.length := by
  obtain ⟨hlt, -⟩ := List.getElem?_eq_some_iff.mp (h.object a o ho)
  exact hlt

theorem grown_add {a : Int32} {k : Kind τ} {initial : Cell τ → Initial τ}
    (ha : s.instances.lookup a = none) : Grown s (s.add a k initial) [a] where
  kept := by
    intro b o hb
    refine (Dictionary.lookup_set_of_ne ?_).trans hb
    rintro rfl
    rw [ha] at hb
    cases hb
  keys := by
    intro b
    show b ∈ (s.instances.set a _).keys ↔ _
    rw [Dictionary.mem_keys_set, List.mem_singleton]

/-- What is under an address behind an addition. -/
theorem lookup_add {a b : Int32} {k : Kind τ} {initial : Cell τ → Initial τ} {o : ℕ}
    (hb : (s.add a k initial).instances.lookup b = some o) :
    (b = a ∧ o = s.objects.length) ∨ (b ≠ a ∧ s.instances.lookup b = some o) := by
  by_cases hba : b = a
  · subst hba
    have hself : (s.add b k initial).instances.lookup b = some s.objects.length :=
      Dictionary.lookup_set_self
    exact Or.inl ⟨rfl, Option.some.inj (hb.symm.trans hself)⟩
  · exact Or.inr ⟨hba, (Dictionary.lookup_set_of_ne hba).symm.trans hb⟩

/-- A new object holds what a place without an object is meant to hold. -/
theorem realises_initial {instances : Dictionary Int32 ℕ} {a : Int32} {o : ℕ}
    (ho : instances.lookup a = some o) (i : Initial τ) :
    RealisesContent instances (i.content a) (i.content o) := by
  cases i with
  | datum d => exact .value (.datum d)
  | inner k => exact .inner k ho

theorem Simulation.add (h : Simulation clr kind contents s) {a : Int32}
    (ha : s.instances.lookup a = none) {initial : Cell τ → Initial τ}
    (hinitial : clr.createInstance (kind a) = .ok initial) :
    Simulation clr kind contents (s.add a (kind a) initial) where
  injective := by
    intro b c o hb hc
    rcases lookup_add hb with ⟨hba, hnew⟩ | ⟨-, hold⟩
    · rcases lookup_add hc with ⟨hca, -⟩ | ⟨-, hold⟩
      · exact hba.trans hca.symm
      · exact absurd hnew (h.object_lt hold).ne
    · rcases lookup_add hc with ⟨-, hnew⟩ | ⟨-, hold'⟩
      · exact absurd hnew (h.object_lt hold).ne
      · exact h.injective b c o hold hold'
  object := by
    intro b o hb
    show (s.objects ++ [kind a])[o]? = some (kind b)
    rcases lookup_add hb with ⟨rfl, rfl⟩ | ⟨-, hb⟩
    · exact List.getElem?_concat_length
    · rw [List.getElem?_append_left (h.object_lt hb)]
      exact h.object b o hb
  owned := by
    intro o ho
    have hlen : o < s.objects.length + 1 := by
      simpa [State.add] using ho
    by_cases hold : o < s.objects.length
    · obtain ⟨b, hb⟩ := h.owned o hold
      exact ⟨b, (grown_add ha).kept b o hb⟩
    · obtain rfl : o = s.objects.length := by omega
      exact ⟨a, Dictionary.lookup_set_self⟩
  creatable := by
    intro b o hb
    rcases lookup_add hb with ⟨rfl, -⟩ | ⟨-, hb⟩
    · exact ⟨initial, hinitial⟩
    · exact h.creatable b o hb
  fresh := by
    intro b hb
    refine h.fresh b ?_
    cases hlookup : s.instances.lookup b with
    | none => rfl
    | some o =>
        rw [(grown_add ha).kept b o hlookup] at hb
        cases hb
  contents := by
    intro p q hpq
    cases hpq with
    | static f => exact (h.contents _ _ (.static f)).grow (grown_add ha)
    | @cell b o c hb =>
        rcases lookup_add hb with ⟨rfl, rfl⟩ | ⟨-, hold⟩
        · rw [h.fresh b ha initial hinitial c]
          show RealisesContent _ _ (if _ then _ else _)
          rw [if_pos rfl]
          exact realises_initial hb (initial c)
        · have hne : o ≠ s.objects.length := (h.object_lt hold).ne
          show RealisesContent _ _ (if _ then _ else _)
          rw [if_neg hne]
          exact (h.contents _ _ (.cell c hold)).grow (grown_add ha)

theorem ok_of_mapError {E E' A : Type} {f : E → E'} {x : Except E A} {a : A}
    (h : x.mapError f = .ok a) : x = .ok a := by
  cases x with
  | error e => cases h
  | ok b =>
      obtain rfl : b = a := Except.ok.inj h
      rfl

/-- What a step of the resolver returns: a related value, and a state with objects for the mentions. -/
structure Returns {A B : Type} (clr : Clr τ) (kind : Int32 → Kind τ)
    (contents : Place τ Int32 → Content τ Int32) (s : State τ) (as : List Int32)
    (R : Dictionary Int32 ℕ → A → B → Prop) (a : A) (r : B × State τ) : Prop where
  related : R r.2.instances a r.1
  grown : Grown s r.2 as
  simulation : Simulation clr kind contents r.2

/-- **A mention** finds or makes the object under its address. -/
theorem resolveReferenceType_matches (h : Simulation clr kind contents s) {r : Reference}
    (hr : r.kind clr = .ok (kind r.address)) :
    Matches (Returns clr kind contents s [r.address] fun instances a o =>
      a = r.address ∧ instances.lookup a = some o)
      (r.denote clr) (resolveReferenceType clr s r) := by
  rw [Reference.denote, resolveReferenceType]
  cases hlookup : s.instances.lookup r.address with
  | some o =>
      obtain ⟨initial, hinitial⟩ := h.creatable r.address o hlookup
      rw [hr]
      show Matches _ ((clr.createInstance (kind r.address)).mapError _ >>= _) _
      rw [hinitial]
      refine .ok ⟨⟨rfl, hlookup⟩, ⟨fun _ _ ho => ho, fun a => ?_⟩, h⟩
      rw [List.mem_singleton]
      refine ⟨Or.inl, ?_⟩
      rintro (hmem | rfl)
      · exact hmem
      · exact Dictionary.mem_keys_iff.mpr ⟨o, hlookup⟩
  | none =>
      rw [hr]
      refine Matches.bind_refl fun k hk => ?_
      obtain rfl : kind r.address = k := Except.ok.inj hk
      refine Matches.bind_refl fun initial hinitial => ?_
      have hsim := h.add hlookup (ok_of_mapError hinitial)
      exact .ok (Returns.mk ⟨rfl, Dictionary.lookup_set_self⟩ (grown_add hlookup) hsim)

/-! ### Expressions -/

theorem Realises.toObj_eq {instances : Dictionary Int32 ℕ} {v : Value τ Int32} {w : Value τ ℕ}
    (h : Realises instances v w) : v.toObj = w.toObj := by
  cases h with
  | datum d => cases d <;> rfl
  | ref ho => rfl

/-- A datum that takes no object to make. -/
theorem returns_datum (h : Simulation clr kind contents s) (d : Datum τ) :
    Returns clr kind contents s [] Realises (.datum d) (.datum d, s) :=
  ⟨.datum d, .refl, h⟩

mutual

/-- **An expression** is instantiated to what it means. -/
theorem instantiateExpression_matches : ∀ (e : Expr) {s : State τ},
    Simulation clr kind contents s → NamesKinds clr kind e.references →
    Matches (Returns clr kind contents s (addresses e.references) Realises)
      (denote clr e) (instantiateExpression clr s e)
  | .const c, s, h, _ => by
      rw [denote, instantiateExpression]
      exact Matches.bind_refl fun d _ => .ok (returns_datum h d)
  | .combine sightType slices, s, h, hkinds => by
      rw [denote, instantiateExpression]
      refine Matches.bind_refl fun type _ => ?_
      refine (instantiateSlices_matches slices h hkinds).bind fun vs r hr => ?_
      obtain ⟨rfl, hgrown, hsim⟩ := hr
      exact Matches.bind_refl fun o _ => .ok ⟨.datum _, hgrown, hsim⟩
  | .array i, s, h, hkinds => by
      rw [denote, instantiateExpression]
      refine (resolveReferenceType_matches h (hkinds _ List.mem_cons_self)).bind fun a r hr => ?_
      obtain ⟨⟨-, ho⟩, hgrown, hsim⟩ := hr
      exact .ok ⟨.ref ho, hgrown, hsim⟩
  | .object i, s, h, hkinds => by
      rw [denote, instantiateExpression]
      refine (resolveReferenceType_matches h (hkinds _ List.mem_cons_self)).bind fun a r hr => ?_
      obtain ⟨⟨-, ho⟩, hgrown, hsim⟩ := hr
      exact .ok ⟨.ref ho, hgrown, hsim⟩
  | .ilType type, s, h, _ => by
      rw [denote, instantiateExpression]
      exact Matches.bind_refl fun t _ => .ok (returns_datum h (.type t))
  | .unexpected, s, h, _ => by
      rw [denote, instantiateExpression]
      exact .ok (returns_datum h (.obj .null))
  | .unknown url, s, _, _ => by
      rw [denote, instantiateExpression]
      exact .error _

theorem instantiateSlice_matches : ∀ (slice : SliceMessage) {s : State τ},
    Simulation clr kind contents s → NamesKinds clr kind slice.references →
    Matches (Returns clr kind contents s (addresses slice.references) fun _ v w => v = w)
      (denoteSlice clr slice) (instantiateSlice clr s slice)
  | .mk expr start stop pos, s, h, hkinds => by
      rw [denoteSlice, instantiateSlice]
      refine (instantiateExpression_matches expr h hkinds).bind fun v r hr => ?_
      obtain ⟨hv, hgrown, hsim⟩ := hr
      exact .ok ⟨by rw [hv.toObj_eq], hgrown, hsim⟩

theorem instantiateSlices_matches : ∀ (slices : List SliceMessage) {s : State τ},
    Simulation clr kind contents s → NamesKinds clr kind (slicesReferences slices) →
    Matches (Returns clr kind contents s (addresses (slicesReferences slices)) fun _ v w => v = w)
      (denoteSlices clr slices) (instantiateSlices clr s slices)
  | [], s, h, _ => by
      rw [denoteSlices, instantiateSlices]
      exact .ok ⟨rfl, .refl, h⟩
  | slice :: slices, s, h, hkinds => by
      rw [denoteSlices, instantiateSlices]
      rw [slicesReferences] at hkinds ⊢
      refine (instantiateSlice_matches slice h hkinds.left).bind fun v r hr => ?_
      obtain ⟨rfl, hgrown, hsim⟩ := hr
      refine (instantiateSlices_matches slices hsim hkinds.right).bind fun vs r' hr' => ?_
      obtain ⟨rfl, hgrown', hsim'⟩ := hr'
      rw [addresses_append]
      exact .ok ⟨rfl, hgrown.trans hgrown', hsim'⟩

end

/-- All mentions in a list of expressions. -/
def references (es : List Expr) : List Reference := es.flatMap Expr.references

theorem instantiateExpressions_matches (es : List Expr) : ∀ {s : State τ},
    Simulation clr kind contents s → NamesKinds clr kind (references es) →
    Matches (Returns clr kind contents s (addresses (references es))
      fun instances => List.Forall₂ (Realises instances))
      (es.mapM (denote clr)) (instantiateExpressions clr s es) := by
  induction es with
  | nil =>
      intro s h _
      exact .ok ⟨.nil, .refl, h⟩
  | cons e es ih =>
      intro s h hkinds
      rw [List.mapM_cons, instantiateExpressions]
      rw [references, List.flatMap_cons] at hkinds ⊢
      refine (instantiateExpression_matches e h hkinds.left).bind fun v r hr => ?_
      refine (ih hr.simulation hkinds.right).bind fun vs r' hr' => ?_
      rw [addresses_append]
      exact .ok ⟨.cons (hr.related.grow hr'.grown) hr'.related, hr.grown.trans hr'.grown,
        hr'.simulation⟩

/-! ### Statements -/

section Statements

variable {a : Int32} {o : ℕ}

theorem Simulation.kind_eq (h : Simulation clr kind contents s)
    (ho : s.instances.lookup a = some o) : s.kind o = some (kind a) := h.object a o ho

theorem fieldPlace_matches (h : Simulation clr kind contents s)
    (ho : s.instances.lookup a = some o) (f : τ.Fld) :
    Matches (RealisesPlace s.instances) (fieldPlace clr (fun a => some (kind a)) a f)
      (fieldPlace clr s.kind o f) := by
  unfold fieldPlace
  rw [h.kind_eq ho]
  by_cases hstatic : clr.isStatic f
  · rw [if_pos hstatic, if_pos hstatic]
    exact .ok (.static f)
  · rw [if_neg hstatic, if_neg hstatic]
    cases hkind : kind a with
    | array t size =>
        simp only [hkind]
        exact .error _
    | object t =>
        by_cases hf : f ∈ clr.getFields t
        · simp only [hkind, if_pos hf]
          exact .ok (.cell (.field f) ho)
        · simp only [hkind, if_neg hf]
          exact .error _

theorem asArray_matches (h : Simulation clr kind contents s)
    (ho : s.instances.lookup a = some o) :
    Matches Eq (asArray (fun a => some (kind a)) a) (asArray s.kind o) := by
  unfold asArray
  rw [h.kind_eq ho]
  exact .refl _

theorem elementPlace_matches (ho : s.instances.lookup a = some o) (array : τ.Ty × Int32)
    (index : Int32) : Matches (RealisesPlace s.instances)
      (elementPlace a array index) (elementPlace o array index) := by
  unfold elementPlace
  split
  · exact .ok (.cell (.element index) ho)
  · exact .error _

theorem assign_matches (h : Simulation clr kind contents s) (slot : Slot τ)
    {v : Value τ Int32} {w : Value τ ℕ} (hv : Realises s.instances v w) :
    Matches (Realises s.instances) (assign clr (fun a => some (kind a)) slot v)
      (assign clr s.kind slot w) := by
  cases hv with
  | datum d =>
      unfold assign
      cases hconvert : clr.convert slot d with
      | error e =>
          simp only [hconvert]
          exact .error _
      | ok d' =>
          simp only [hconvert]
          exact .ok (.datum d')
  | @ref a o ho =>
      unfold assign
      cases haccepts : clr.accepts slot (kind a) with
      | error e =>
          simp only [h.kind_eq ho, haccepts]
          exact .error _
      | ok _ =>
          simp only [h.kind_eq ho, haccepts]
          exact .ok (.ref ho)

/-- What a place holds behind a statement. -/
def applyEffect (contents : Place τ Int32 → Content τ Int32) :
    Option (Place τ Int32 × Value τ Int32) → Place τ Int32 → Content τ Int32
  | none => contents
  | some (p, v) => Function.update contents p (.value v)

theorem Grown.write {as : List Int32} (h : Grown s s' as) (q : Place τ ℕ) (w : Value τ ℕ) :
    Grown s (s'.write q w) as := ⟨h.kept, h.keys⟩

/-- Writing a place and the one that realises it. -/
theorem Simulation.write (h : Simulation clr kind contents s) {p : Place τ Int32} {q : Place τ ℕ}
    (hpq : RealisesPlace s.instances p q) {v : Value τ Int32} {w : Value τ ℕ}
    (hv : Realises s.instances v w) :
    Simulation clr kind (Function.update contents p (.value v)) (s.write q w) where
  injective := h.injective
  object := h.object
  owned := h.owned
  creatable := h.creatable
  fresh := by
    intro b hb initial hinitial c
    rw [Function.update_of_ne]
    · exact h.fresh b hb initial hinitial c
    · rintro rfl
      cases hpq with
      | cell c ho =>
          change s.instances.lookup b = none at hb
          rw [hb] at ho
          cases ho
  contents := by
    intro p' q' hpq'
    show RealisesContent s.instances _ (Function.update s.contents q (.value w) q')
    change RealisesPlace s.instances p' q' at hpq'
    by_cases hp : p' = p
    · subst hp
      obtain rfl : q' = q := by
        cases hpq with
        | static f => cases hpq'; rfl
        | cell c ho =>
            cases hpq' with
            | cell _ ho' => rw [Option.some.inj (ho'.symm.trans ho)]
      rw [Function.update_self, Function.update_self]
      exact .value hv
    · have hq : q' ≠ q := by
        rintro rfl
        cases hpq with
        | static f => cases hpq'; exact hp rfl
        | cell c ho =>
            cases hpq' with
            | cell _ ho' => exact hp (by rw [h.injective _ _ _ ho' ho])
      rw [Function.update_of_ne hp, Function.update_of_ne hq]
      exact h.contents p' q' hpq'

/-- What the loop over statements returns. -/
structure Advances (clr : Clr τ) (kind : Int32 → Kind τ)
    (contents : Place τ Int32 → Content τ Int32) (s : State τ) (as : List Int32) (s' : State τ) :
    Prop where
  grown : Grown s s' as
  simulation : Simulation clr kind contents s'

/-- **A statement** writes the place and the value that it means. -/
theorem resolveStatement_matches (h : Simulation clr kind contents s) (stmt : Statement)
    (hkinds : NamesKinds clr kind stmt.references) :
    Matches (fun e => Advances clr kind (applyEffect contents e) s (addresses stmt.references))
      (effect clr kind stmt) (resolveStatement clr s stmt) := by
  cases stmt with
  | setObjectField objInstance fieldRepr value =>
      rw [effect, resolveStatement]
      refine (resolveReferenceType_matches h (hkinds _ List.mem_cons_self)).bind fun a r hr => ?_
      obtain ⟨⟨rfl, ho⟩, hgrown, hsim⟩ := hr
      have hvalue : NamesKinds clr kind value.references :=
        fun r hr => hkinds r (List.mem_cons_of_mem _ hr)
      refine (instantiateExpression_matches value hsim hvalue).bind fun v r' hr' => ?_
      obtain ⟨hv, hgrown', hsim'⟩ := hr'
      refine Matches.bind_refl fun field _ => ?_
      cases field with
      | none => exact .error _
      | some f =>
          refine (fieldPlace_matches hsim' (hgrown'.kept _ _ ho) f).bind fun p q hpq => ?_
          refine (assign_matches hsim' (.field f) hv).bind fun v' w' hv' => ?_
          exact .ok ⟨(hgrown.trans hgrown').write q w', hsim'.write hpq hv'⟩
  | setArrayIndex arrInstance index value =>
      rw [effect, resolveStatement]
      refine (resolveReferenceType_matches h (hkinds _ List.mem_cons_self)).bind fun a r hr => ?_
      obtain ⟨⟨rfl, ho⟩, hgrown, hsim⟩ := hr
      refine (asArray_matches hsim ho).bind fun array array' harray => ?_
      subst harray
      have hvalue : NamesKinds clr kind value.references :=
        fun r hr => hkinds r (List.mem_cons_of_mem _ hr)
      refine (instantiateExpression_matches value hsim hvalue).bind fun v r' hr' => ?_
      obtain ⟨hv, hgrown', hsim'⟩ := hr'
      refine (elementPlace_matches (hgrown'.kept _ _ ho) array index).bind fun p q hpq => ?_
      refine (assign_matches hsim' (.element array.1) hv).bind fun v' w' hv' => ?_
      exact .ok ⟨(hgrown.trans hgrown').write q w', hsim'.write hpq hv'⟩
  | unexpected => exact .ok ⟨.refl, h⟩
  | unknown url => exact .error _

end Statements

end TestExecutor.TestResolver
