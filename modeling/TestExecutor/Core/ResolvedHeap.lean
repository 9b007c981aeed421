import TestExecutor.Core.DescribedHeap

/-!
# `Resolve` builds the described heap

* `describe` — a whole test, in terms of addresses;
* `lastWrite`, `described` — the value that is written to a place last, what a place holds;
* `Builds` — the result of the resolver realises what a test describes;
* `resolve_matches` — the resolver does what the test means;
* `Isomorphic`, `Builds.isomorphic` — results that realise the same description;
* `resolve_builds` — **`Resolve` builds the described heap**, and arrange statements may be reordered
  as long as those that write the same place keep their order.
-/

namespace TestExecutor.TestResolver

open TestExecutor.Library

variable {τ : Types} (clr : Clr τ) (kind : Int32 → Kind τ)

/-! ### The description of a test -/

/-- A test in terms of addresses: what its statements write, its method, and its values. -/
structure Description (τ : Types) where
  effects : List (Option (Place τ Int32 × Value τ Int32))
  method : Option τ.Mth
  args : List (Value τ Int32)
  expectedValue : Value τ Int32

def describe (test : IlTest) : Except (ResolverException τ.Err) (Description τ) := do
  let effects ← test.arrangeStmts.mapM (effect clr kind)
  let method ← resolveMethod clr test.call
  let args ← test.call.args.mapM (denote clr)
  match test.expectedResult with
  | none => .error .nullReference
  | some expectedResult => do
      let expectedValue ← denote clr expectedResult
      return ⟨effects, method, args, expectedValue⟩

/-- What the constructor leaves in a place, or what a static field holds. -/
def initialContents : Place τ Int32 → Content τ Int32
  | .static f => .value (.datum (clr.static f))
  | .cell a c =>
      match clr.createInstance (kind a) with
      | .ok initial => (initial c).content a
      | .error _ => .value (.datum (.obj .null))

/-- The place and the value that a statement writes. -/
def written (stmt : Statement) : Option (Place τ Int32 × Value τ Int32) :=
  match effect clr kind stmt with
  | .ok e => e
  | .error _ => none

/-- The value that the last statement that writes a place writes there. -/
def lastWrite (stmts : List Statement) (p : Place τ Int32) : Option (Value τ Int32) :=
  stmts.reverse.findSome? fun stmt =>
    match written clr kind stmt with
    | some (q, v) => if q = p then some v else none
    | none => none

/-- What a place is to hold: what the last statement writes there, or else its initial contents. -/
def described (stmts : List Statement) (p : Place τ Int32) : Content τ Int32 :=
  match lastWrite clr kind stmts p with
  | some v => .value v
  | none => initialContents clr kind p

/-- All mentions of addresses in a test. -/
def IlTest.references (test : IlTest) : List Reference :=
  test.arrangeStmts.flatMap Statement.references
    ++ (TestResolver.references test.call.args
      ++ (test.expectedResult.toList.flatMap Expr.references))

/-- The result of the resolver realises what the test describes: there is an object for each address
that the test mentions, other objects for other addresses, and no further ones; they are of the kinds of
their addresses; and with them the arguments, the expected value and the contents of all places are
those that the test describes. -/
structure Builds (test : IlTest) (r : DispatchTestResult τ) (instances : Dictionary Int32 ℕ) :
    Prop where
  mentioned : ∀ a, a ∈ instances.keys ↔ a ∈ addresses test.references
  injective : ∀ a b o, instances.lookup a = some o → instances.lookup b = some o → a = b
  object : ∀ a o, instances.lookup a = some o → r.objects[o]? = some (kind a)
  owned : ∀ o, o < r.objects.length → ∃ a, instances.lookup a = some o
  method : resolveMethod clr test.call = .ok r.method
  args : ∃ values, test.call.args.mapM (denote clr) = .ok values ∧
    List.Forall₂ (Realises instances) values r.args
  expectedValue : ∃ e v, test.expectedResult = some e ∧ denote clr e = .ok v ∧
    Realises instances v r.expectedValue
  contents : ∀ p q, RealisesPlace instances p q →
    RealisesContent instances (described clr kind test.arrangeStmts p) (r.contents q)

variable {clr kind}

/-! ### The loop over statements -/

/-- A statement behind others. -/
theorem described_concat (stmts : List Statement) (stmt : Statement) :
    described clr kind (stmts ++ [stmt])
      = applyEffect (described clr kind stmts) (written clr kind stmt) := by
  funext p
  unfold described lastWrite
  rw [List.reverse_append, List.reverse_singleton, List.singleton_append, List.findSome?_cons]
  cases hwritten : written clr kind stmt with
  | none => rfl
  | some e =>
      obtain ⟨q, v⟩ := e
      by_cases hq : q = p
      · subst hq
        simp [applyEffect]
      · simp [hq, applyEffect, Function.update_of_ne (Ne.symm hq)]

theorem simulation_start : Simulation clr kind (described clr kind []) (State.start clr) where
  injective := fun a b o ha _ => by cases ha
  object := fun a o ha => by cases ha
  owned := fun o ho => absurd ho (Nat.not_lt_zero o)
  creatable := fun a o ha => by cases ha
  fresh := by
    intro a _ initial hinitial c
    show (match clr.createInstance (kind a) with
      | .ok initial => (initial c).content a
      | .error _ => _) = _
    rw [hinitial]
  contents := by
    intro p q hpq
    cases hpq with
    | static f => exact .value (.datum _)
    | cell c ho => cases ho

/-- The loop over arrange statements writes what they mean. -/
theorem arrange_matches (stmts : List Statement) : ∀ (pre : List Statement) {s : State τ},
    Simulation clr kind (described clr kind pre) s →
    NamesKinds clr kind (stmts.flatMap Statement.references) →
    Matches (fun _ => Advances clr kind (described clr kind (pre ++ stmts)) s
        (addresses (stmts.flatMap Statement.references)))
      (stmts.mapM (effect clr kind)) (stmts.foldlM (resolveStatement clr) s) := by
  induction stmts with
  | nil =>
      intro pre s h _
      rw [List.append_nil]
      exact .ok ⟨.refl, h⟩
  | cons stmt stmts ih =>
      intro pre s h hkinds
      rw [List.mapM_cons, List.foldlM_cons]
      rw [List.flatMap_cons] at hkinds ⊢
      refine (resolveStatement_matches h stmt hkinds.left).bind_ok fun e s' he hs' => ?_
      have hwritten : written clr kind stmt = e := by
        rw [written, he]
      have hsim := hs'.simulation
      rw [← hwritten, ← described_concat] at hsim
      refine (ih (pre ++ [stmt]) hsim hkinds.right).bind_left fun _ s'' hs'' => ?_
      rw [addresses_append]
      refine ⟨hs'.grown.trans hs''.grown, ?_⟩
      rw [List.append_cons]
      exact hs''.simulation

/-! ### The whole test -/

/-- The mentions of a test name the kinds of their addresses. -/
def Consistent (clr : Clr τ) (kind : Int32 → Kind τ) (test : IlTest) : Prop :=
  NamesKinds clr kind test.references

/-- What the resolver does with a test is what the test means. -/
theorem resolve_matches {test : IlTest} (hkinds : Consistent clr kind test) :
    Matches (fun _ r => ∃ instances, Builds clr kind test r instances)
      (describe clr kind test) (resolve clr test) := by
  rw [describe, resolve]
  refine (arrange_matches test.arrangeStmts [] simulation_start hkinds.left).bind
    fun effects s hs => ?_
  rw [List.nil_append] at hs
  refine Matches.bind_refl fun method hmethod => ?_
  have hrest : NamesKinds clr kind (references test.call.args
      ++ test.expectedResult.toList.flatMap Expr.references) := hkinds.right
  refine (instantiateExpressions_matches test.call.args hs.simulation hrest.left).bind_ok
    fun values r hvalues hr => ?_
  cases hexpected : test.expectedResult with
  | none => exact .error _
  | some e =>
      rw [hexpected] at hrest
      have he : NamesKinds clr kind e.references := by
        simpa using hrest.right
      refine (instantiateExpression_matches e hr.simulation he).bind_ok fun v r' hv hr' => ?_
      have hgrown := (hs.grown.trans hr.grown).trans hr'.grown
      have hsim := hr'.simulation
      refine .ok ⟨r'.2.instances, ?_, hsim.injective, hsim.object, hsim.owned, hmethod,
        ⟨values, hvalues, ?_⟩, ⟨e, v, hexpected, hv, hr'.related⟩, hsim.contents⟩
      · intro a
        rw [hgrown.keys, IlTest.references, hexpected, addresses_append, addresses_append,
          ← List.append_assoc]
        simp [State.start, Dictionary.empty, Dictionary.keys]
      · exact hr.related.imp fun _ _ hvw => hvw.grow hr'.grown

/-! ### Isomorphic results -/

/-- Other objects in the places of those of a value. -/
def Value.map {O O' : Type} (f : O → O') : Value τ O → Value τ O'
  | datum d => .datum d
  | ref o => .ref (f o)

def Content.map {O O' : Type} (f : O → O') : Content τ O → Content τ O'
  | value v => .value (v.map f)
  | inner o k => .inner (f o) k

def Place.map {O O' : Type} (f : O → O') : Place τ O → Place τ O'
  | static f => .static f
  | cell o c => .cell (f o) c

/-- Static fields, and the parts of the objects that there are. -/
def Place.IsIn (objects : List (Kind τ)) : Place τ ℕ → Prop
  | static _ => True
  | cell o _ => o < objects.length

/-- Two results are the same up to the names of their objects. -/
structure Isomorphic (r r' : DispatchTestResult τ) (σ : ℕ → ℕ) : Prop where
  bijective : Set.BijOn σ {o | o < r.objects.length} {o | o < r'.objects.length}
  objects : ∀ o, o < r.objects.length → r'.objects[σ o]? = r.objects[o]?
  method : r'.method = r.method
  args : r'.args = r.args.map (Value.map σ)
  expectedValue : r'.expectedValue = r.expectedValue.map σ
  contents : ∀ q, q.IsIn r.objects → r'.contents (q.map σ) = (r.contents q).map σ

section Transfer

variable {instances instances' : Dictionary Int32 ℕ} {σ : ℕ → ℕ}
  (hσ : ∀ a o, instances.lookup a = some o → instances'.lookup a = some (σ o))

include hσ in
theorem Realises.transfer {v : Value τ Int32} {w : Value τ ℕ} (h : Realises instances v w) :
    Realises instances' v (w.map σ) := by
  cases h with
  | datum d => exact .datum d
  | ref ho => exact .ref (hσ _ _ ho)

include hσ in
theorem RealisesContent.transfer {v : Content τ Int32} {w : Content τ ℕ}
    (h : RealisesContent instances v w) : RealisesContent instances' v (w.map σ) := by
  cases h with
  | value hv => exact .value (hv.transfer hσ)
  | inner k ho => exact .inner k (hσ _ _ ho)

include hσ in
theorem RealisesPlace.transfer {p : Place τ Int32} {q : Place τ ℕ}
    (h : RealisesPlace instances p q) : RealisesPlace instances' p (q.map σ) := by
  cases h with
  | static f => exact .static f
  | cell c ho => exact .cell c (hσ _ _ ho)

theorem Realises.unique {v : Value τ Int32} {w w' : Value τ ℕ} (h : Realises instances v w)
    (h' : Realises instances v w') : w = w' := by
  cases h with
  | datum d => cases h'; rfl
  | ref ho =>
      cases h' with
      | ref ho' => rw [Option.some.inj (ho.symm.trans ho')]

theorem RealisesContent.unique {v : Content τ Int32} {w w' : Content τ ℕ}
    (h : RealisesContent instances v w) (h' : RealisesContent instances v w') : w = w' := by
  cases h with
  | value hv =>
      cases h' with
      | value hv' => rw [hv.unique hv']
  | inner k ho =>
      cases h' with
      | inner _ ho' => rw [Option.some.inj (ho.symm.trans ho')]

include hσ in
theorem forall₂_transfer {vs : List (Value τ Int32)} : ∀ {ws ws' : List (Value τ ℕ)},
    List.Forall₂ (Realises instances) vs ws → List.Forall₂ (Realises instances') vs ws' →
    ws' = ws.map (Value.map σ) := by
  induction vs with
  | nil =>
      intro ws ws' h h'
      cases h
      cases h'
      rfl
  | cons v vs ih =>
      intro ws ws' h h'
      cases h with
      | cons hv hvs =>
          cases h' with
          | cons hv' hvs' => rw [hv'.unique (hv.transfer hσ), ih hvs hvs', List.map_cons]

end Transfer

/-- Tests that mean the same apart from the order of their statements. -/
structure SameMeaning (clr : Clr τ) (kind : Int32 → Kind τ) (test test' : IlTest) : Prop where
  call : test'.call = test.call
  expectedResult : test'.expectedResult = test.expectedResult
  mentions : ∀ a, a ∈ addresses test'.references ↔ a ∈ addresses test.references
  described : described clr kind test'.arrangeStmts = described clr kind test.arrangeStmts

/-- **Results that realise the same description are isomorphic**. -/
theorem Builds.isomorphic {test test' : IlTest} {r r' : DispatchTestResult τ}
    {instances instances' : Dictionary Int32 ℕ} (h : Builds clr kind test r instances)
    (h' : Builds clr kind test' r' instances') (hsame : SameMeaning clr kind test test') :
    ∃ σ, Isomorphic r r' σ := by
  have hkeys : ∀ a, a ∈ instances'.keys ↔ a ∈ instances.keys := by
    intro a
    rw [h'.mentioned, h.mentioned, hsame.mentions]
  -- an object goes to the one with its address
  have hexists : ∀ o, ∃ o', ∀ a, instances.lookup a = some o → instances'.lookup a = some o' := by
    intro o
    by_cases howned : ∃ a, instances.lookup a = some o
    · obtain ⟨a, ha⟩ := howned
      obtain ⟨o', ho'⟩ := Dictionary.mem_keys_iff.mp
        ((hkeys a).mpr (Dictionary.mem_keys_iff.mpr ⟨o, ha⟩))
      refine ⟨o', fun b hb => ?_⟩
      rwa [h.injective b a o hb ha]
    · exact ⟨0, fun a ha => absurd ⟨a, ha⟩ howned⟩
  choose σ hσ' using hexists
  have hσ : ∀ a o, instances.lookup a = some o → instances'.lookup a = some (σ o) :=
    fun a o ha => hσ' o a ha
  refine ⟨σ, ⟨?_, ?_, ?_⟩, ?_, ?_, ?_, ?_, ?_⟩
  · intro o ho
    obtain ⟨a, ha⟩ := h.owned o ho
    exact (List.getElem?_eq_some_iff.mp (h'.object a _ (hσ a o ha))).1
  · intro o ho p hp heq
    obtain ⟨a, ha⟩ := h.owned o ho
    obtain ⟨b, hb⟩ := h.owned p hp
    have hb' := hσ b p hb
    rw [← heq] at hb'
    obtain rfl := h'.injective a b _ (hσ a o ha) hb'
    exact Option.some.inj (ha.symm.trans hb)
  · intro o' ho'
    obtain ⟨a, ha⟩ := h'.owned o' ho'
    obtain ⟨o, ho⟩ := Dictionary.mem_keys_iff.mp
      ((hkeys a).mp (Dictionary.mem_keys_iff.mpr ⟨o', ha⟩))
    refine ⟨o, (List.getElem?_eq_some_iff.mp (h.object a o ho)).1, ?_⟩
    exact Option.some.inj ((hσ a o ho).symm.trans ha)
  · intro o ho
    obtain ⟨a, ha⟩ := h.owned o ho
    rw [h.object a o ha, h'.object a _ (hσ a o ha)]
  · have hmethod := h'.method
    rw [hsame.call, h.method] at hmethod
    exact (Except.ok.inj hmethod).symm
  · obtain ⟨values, hvalues, hargs⟩ := h.args
    obtain ⟨values', hvalues', hargs'⟩ := h'.args
    rw [hsame.call, hvalues] at hvalues'
    obtain rfl := Except.ok.inj hvalues'
    exact forall₂_transfer hσ hargs hargs'
  · obtain ⟨e, v, he, hv, hreal⟩ := h.expectedValue
    obtain ⟨e', v', he', hv', hreal'⟩ := h'.expectedValue
    rw [hsame.expectedResult, he] at he'
    obtain rfl := Option.some.inj he'
    obtain rfl := Except.ok.inj (hv.symm.trans hv')
    exact hreal'.unique (hreal.transfer hσ)
  · intro q hq
    have hplace : ∃ p, RealisesPlace instances p q := by
      cases q with
      | static f => exact ⟨_, .static f⟩
      | cell o c =>
          obtain ⟨a, ha⟩ := h.owned o hq
          exact ⟨_, .cell c ha⟩
    obtain ⟨p, hp⟩ := hplace
    have hcontents' := h'.contents p _ (hp.transfer hσ)
    rw [hsame.described] at hcontents'
    exact hcontents'.unique ((h.contents p q hp).transfer hσ)

/-! ### Reordered statements -/

/-- The statement writes the place. -/
def writes (clr : Clr τ) (kind : Int32 → Kind τ) (p : Place τ Int32) (stmt : Statement) : Bool :=
  (written clr kind stmt).map Prod.fst = some p

/-- For each place, the statements that write it come in the same order. -/
def KeepsOrder (clr : Clr τ) (kind : Int32 → Kind τ) (stmts stmts' : List Statement) : Prop :=
  ∀ p, stmts'.filter (writes clr kind p) = stmts.filter (writes clr kind p)

/-- No two statements write the same place. -/
def DifferentPlaces (clr : Clr τ) (kind : Int32 → Kind τ) (stmts : List Statement) : Prop :=
  stmts.Pairwise fun stmt stmt' => ∀ p, ¬(writes clr kind p stmt ∧ writes clr kind p stmt')

theorem findSome?_filter {A B : Type} {f : A → Option B} {P : A → Bool}
    (h : ∀ a, P a = false → f a = none) (l : List A) :
    (l.filter P).findSome? f = l.findSome? f := by
  induction l with
  | nil => rfl
  | cons a l ih =>
      cases hP : P a with
      | false => rw [List.filter_cons_of_neg (by simp [hP]), ih, List.findSome?_cons, h a hP]
      | true => rw [List.filter_cons_of_pos hP, List.findSome?_cons, List.findSome?_cons, ih]

/-- Only the statements that write a place count for it. -/
theorem lastWrite_filter (stmts : List Statement) (p : Place τ Int32) :
    lastWrite clr kind (stmts.filter (writes clr kind p)) p = lastWrite clr kind stmts p := by
  unfold lastWrite
  rw [← List.filter_reverse]
  refine findSome?_filter (fun stmt hstmt => ?_) _
  unfold writes at hstmt
  cases hwritten : written clr kind stmt with
  | none => rfl
  | some e =>
      rw [hwritten] at hstmt
      exact if_neg fun heq => by simp [heq] at hstmt

theorem described_of_keepsOrder {stmts stmts' : List Statement}
    (h : KeepsOrder clr kind stmts stmts') :
    described clr kind stmts' = described clr kind stmts := by
  funext p
  unfold described
  rw [← lastWrite_filter stmts', h p, lastWrite_filter]

/-- Where no two statements write the same place, any order will do. -/
theorem keepsOrder_of_differentPlaces {stmts stmts' : List Statement} (hperm : stmts'.Perm stmts)
    (h : DifferentPlaces clr kind stmts) : KeepsOrder clr kind stmts stmts' := by
  intro p
  have hfilter := hperm.filter (writes clr kind p)
  have hpair : (stmts.filter (writes clr kind p)).Pairwise fun _ _ => False := by
    refine (h.filter _).imp_of_mem fun {a b} ha hb hab => hab p ⟨?_, ?_⟩
    · exact (List.mem_filter.mp ha).2
    · exact (List.mem_filter.mp hb).2
  cases hlist : stmts.filter (writes clr kind p) with
  | nil =>
      rw [hlist] at hfilter
      exact hfilter.eq_nil
  | cons a as =>
      rw [hlist] at hfilter hpair
      cases as with
      | nil => exact List.perm_singleton.mp hfilter
      | cons b bs => exact ((List.pairwise_cons.mp hpair).1 b List.mem_cons_self).elim

theorem exists_mapM_iff {A B E : Type} {f : A → Except E B} {as : List A} :
    (∃ bs, as.mapM f = .ok bs) ↔ ∀ a ∈ as, ∃ b, f a = .ok b := by
  induction as with
  | nil => exact ⟨fun _ a ha => absurd ha List.not_mem_nil, fun _ => ⟨[], rfl⟩⟩
  | cons a as ih =>
      rw [List.mapM_cons, List.forall_mem_cons, ← ih]
      cases ha : f a with
      | error e => exact ⟨fun ⟨_, h⟩ => (by cases h), fun ⟨⟨_, h⟩, _⟩ => (by cases h)⟩
      | ok b =>
          cases hrest : as.mapM f with
          | error e => exact ⟨fun ⟨_, h⟩ => (by cases h), fun ⟨_, _, h⟩ => (by cases h)⟩
          | ok bs => exact ⟨fun _ => ⟨⟨b, rfl⟩, bs, rfl⟩, fun _ => ⟨b :: bs, rfl⟩⟩

/-- A test that is described is, with its statements in any order. -/
theorem exists_describe_perm {test : IlTest} {stmts' : List Statement}
    (hperm : stmts'.Perm test.arrangeStmts) {d : Description τ}
    (hd : describe clr kind test = .ok d) :
    ∃ d', describe clr kind { test with arrangeStmts := stmts' } = .ok d' := by
  have heffects : ∃ effects, test.arrangeStmts.mapM (effect clr kind) = .ok effects := by
    cases heffects : test.arrangeStmts.mapM (effect clr kind) with
    | error e =>
        rw [describe, heffects] at hd
        cases hd
    | ok effects => exact ⟨effects, rfl⟩
  obtain ⟨effects', heffects'⟩ : ∃ effects', stmts'.mapM (effect clr kind) = .ok effects' :=
    exists_mapM_iff.mpr fun stmt hstmt =>
      exists_mapM_iff.mp heffects stmt (hperm.mem_iff.mp hstmt)
  obtain ⟨effects, heffects⟩ := heffects
  have hmatches : Matches (fun _ _ => True) (describe clr kind test)
      (describe clr kind { test with arrangeStmts := stmts' }) := by
    have hfirst : Matches (fun _ _ => True) (test.arrangeStmts.mapM (effect clr kind))
        (stmts'.mapM (effect clr kind)) := by
      rw [heffects, heffects']
      exact .ok trivial
    rw [describe, describe]
    refine hfirst.bind fun _ _ _ => Matches.bind_refl fun method _ =>
      Matches.bind_refl fun args _ => ?_
    cases test.expectedResult with
    | none => exact .error _
    | some e => exact Matches.bind_refl fun v _ => .ok trivial
  obtain ⟨d', hd', -⟩ := hmatches.exists_right hd
  exact ⟨d', hd'⟩

theorem mem_references_perm {test : IlTest} {stmts' : List Statement}
    (hperm : stmts'.Perm test.arrangeStmts) (r : Reference) :
    r ∈ IlTest.references { test with arrangeStmts := stmts' } ↔ r ∈ test.references := by
  unfold IlTest.references
  simp only [List.mem_append, (hperm.flatMap_right Statement.references).mem_iff]

/-- **Statements may be reordered**, if those that write the same place keep their order. -/
theorem resolve_reordered {test : IlTest} (hkinds : Consistent clr kind test)
    {stmts' : List Statement} (hperm : stmts'.Perm test.arrangeStmts)
    (horder : KeepsOrder clr kind test.arrangeStmts stmts') {r : DispatchTestResult τ}
    (hr : resolve clr test = .ok r) :
    ∃ r', resolve clr { test with arrangeStmts := stmts' } = .ok r' ∧ ∃ σ, Isomorphic r r' σ := by
  obtain ⟨d, hd, instances, hbuilds⟩ := (resolve_matches hkinds).exists_left hr
  obtain ⟨d', hd'⟩ := exists_describe_perm hperm hd
  have hkinds' : Consistent clr kind { test with arrangeStmts := stmts' } :=
    fun r hr => hkinds r ((mem_references_perm hperm r).mp hr)
  obtain ⟨r', hr', instances', hbuilds'⟩ := (resolve_matches hkinds').exists_right hd'
  refine ⟨r', hr', hbuilds.isomorphic hbuilds' ⟨rfl, rfl, fun a => ?_, ?_⟩⟩
  · simp only [addresses, List.mem_map, mem_references_perm hperm]
  · exact described_of_keepsOrder horder

/-- **`Resolve` builds the described heap**: for a test whose mentions of each address name one kind,
if it returns, then its result realises what the test describes; and with the arrange statements in
another order it returns an isomorphic result, if no two of them write the same place or those that
do keep their order. -/
theorem resolve_builds {test : IlTest} (hkinds : Consistent clr kind test)
    {r : DispatchTestResult τ} (hr : resolve clr test = .ok r) :
    (∃ instances, Builds clr kind test r instances) ∧
      ∀ stmts' : List Statement, stmts'.Perm test.arrangeStmts →
        (DifferentPlaces clr kind test.arrangeStmts ∨
          KeepsOrder clr kind test.arrangeStmts stmts') →
        ∃ r', resolve clr { test with arrangeStmts := stmts' } = .ok r' ∧
          ∃ σ, Isomorphic r r' σ := by
  obtain ⟨d, -, hbuilds⟩ := (resolve_matches hkinds).exists_left hr
  refine ⟨hbuilds, fun stmts' hperm horder => resolve_reordered hkinds hperm ?_ hr⟩
  rcases horder with hdifferent | hkeeps
  · exact keepsOrder_of_differentPlaces hperm hdifferent
  · exact hkeeps

/-! ### Two objects that refer to each other -/

/-- A runtime with a type whose objects have a field for another one. -/
def linkedTypes : Types :=
  ⟨Unit, List String, Unit, Unit, Empty, Empty, Empty, inferInstance, inferInstance⟩

def linkedClr : Clr linkedTypes where
  runtime := smallRuntime
  marshalling := noMarshalling
  objType _ := .reference
  createInstance _ := .ok fun _ => .datum (.obj .null)
  static _ := .obj .null
  getFields _ := [()]
  fieldName _ := "next"
  fieldType _ := ["Item"]
  isStatic _ := false
  convert _ d := .ok d
  accepts _ _ := .ok ()
  getMethod _ _ := .ok (some ())

def item (address : Int32) : ObjectInstance := ⟨.mk "App" 1 "Item" [], address⟩

def link (a b : Int32) : Statement :=
  .setObjectField (item a) ⟨.mk "App" 1 "Item" [], "next"⟩ (.object (item b))

def linkedTest : IlTest :=
  ⟨[link 1 2, link 2 1], ⟨.mk "App" 1 "Item" [], "Run", [.object (item 1)]⟩, some (.object (item 2))⟩

theorem resolve_builds_linked : ∃ r r', resolve linkedClr linkedTest = .ok r ∧
    (∃ instances, Builds linkedClr (fun _ => .object ["Item"]) linkedTest r instances) ∧
    resolve linkedClr { linkedTest with arrangeStmts := [link 2 1, link 1 2] } = .ok r' ∧
    ∃ σ, Isomorphic r r' σ := by
  have hkinds : Consistent linkedClr (fun _ => .object ["Item"]) linkedTest := by
    intro r hr
    obtain ⟨a, rfl⟩ : ∃ a, r = .object (item a) := by
      simp [linkedTest, link, IlTest.references, Statement.references, Expr.references,
        references] at hr
      rcases hr with rfl | rfl | rfl | rfl | rfl | rfl <;> exact ⟨_, rfl⟩
    rfl
  have hwrites : ∀ a b p, writes linkedClr (fun _ => .object ["Item"]) p (link a b)
      → Place.cell a (.field ()) = p := by
    intro a b p h
    exact Option.some.inj (of_decide_eq_true h)
  have hdifferent : DifferentPlaces linkedClr (fun _ => .object ["Item"]) linkedTest.arrangeStmts := by
    refine List.pairwise_pair.mpr fun p h => ?_
    have heq := (hwrites 1 2 p h.1).trans (hwrites 2 1 p h.2).symm
    revert heq
    decide
  obtain ⟨hbuilds, hreorder⟩ := resolve_builds hkinds (r := _) rfl
  obtain ⟨r', hr', hiso⟩ := hreorder [link 2 1, link 1 2] (List.Perm.swap _ _ _)
    (Or.inl hdifferent)
  exact ⟨_, r', rfl, hbuilds, hr', hiso⟩

end TestExecutor.TestResolver
