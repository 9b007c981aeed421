import TestExecutor.Core.TestResolver

/-!
# `TestResolver` with the cache of `ResolveType`

`TypesCache` is static: all tests share it, those that fail included.

* `Cached.resolveReferenceType`, …, `Cached.resolve` — the resolver, with `TypesCache` before and after;
* `Cached.resolveAll` — the tests of a process, one after another;
* `typeReprs` — the types that a test names;
* `Unmixed`, `unmixed_of_token` — no two modules of an assembly are asked for;
* `resolve_transparent`, `resolveAll_eq` — **the resolver does what it would without the cache**.
-/

namespace TestExecutor.TestResolver

open TestExecutor.Library

variable {τ : Types} (clr : Clr τ)

/-! ### The resolver -/

/-- Computations that read and extend `TypesCache`, which keeps its entries when they fail. -/
abbrev CachedM (τ : Types) := ExceptT (ResolverException τ.Err) (StateM (TypesCache τ.Ty))

/-- Computations that leave `TypesCache` alone. -/
def uncached {A : Type} (x : Except (ResolverException τ.Err) A) : CachedM τ A := ExceptT.mk (pure x)

namespace Cached

/-- `ResolveType`. -/
def resolveType (typeRepr : TypeRepr) : CachedM τ τ.Ty := fun cache =>
  let (t, cache) := TestExecutor.resolveType clr.runtime cache typeRepr
  (t.mapError .type, cache)

/-- The kind that a mention names. -/
def kind : Reference → CachedM τ (Kind τ)
  | .array i => do
      let t ← resolveType clr i.elementTypeRepr
      return .array t i.size
  | .object i => do
      let t ← resolveType clr i.typeRepr
      return .object t

/-- `ResolveField`; `none` is null. -/
def resolveField (declTypeRepr : TypeRepr) (fieldRepr : FieldRepr) : CachedM τ (Option τ.Fld) := do
  let declType ← resolveType clr declTypeRepr
  let fieldType ← resolveType clr fieldRepr.typeRepr
  return (clr.getFields declType).find? fun f =>
    clr.fieldType f = fieldType ∧ clr.fieldName f = fieldRepr.name

/-- `ResolveMethod`. -/
def resolveMethod (call : MethodCall) : CachedM τ (Option τ.Mth) := do
  let declType ← resolveType clr call.declType
  uncached ((clr.getMethod declType call.name).mapError .runtime)

/-- `ResolveReferenceType`. -/
def resolveReferenceType (s : State τ) (r : Reference) : CachedM τ (ℕ × State τ) :=
  match s.instances.lookup r.address with
  | some o => return (o, s)
  | none => do
      let kind ← kind clr r
      let initial ← uncached ((clr.createInstance kind).mapError .runtime)
      return (s.objects.length, s.add r.address kind initial)

mutual

/-- `InstantiateExpression`. -/
def instantiateExpression (s : State τ) : Expr → CachedM τ (Value τ ℕ × State τ)
  | .const c => do
      let d ← uncached c.datum
      return (.datum d, s)
  | .combine sightType slices => do
      let type ← resolveType clr sightType
      let (slices, s) ← instantiateSlices s slices
      let o ← uncached
        ((reinterpretCombine clr.marshalling (clr.objType type) slices).mapError .bytes)
      return (.datum (.obj o), s)
  | .array i => do
      let (o, s) ← resolveReferenceType clr s (.array i)
      return (.ref o, s)
  | .object i => do
      let (o, s) ← resolveReferenceType clr s (.object i)
      return (.ref o, s)
  | .ilType type => do
      let t ← resolveType clr type
      return (.datum (.type t), s)
  | .unexpected => return (.datum (.obj .null), s)
  | .unknown url => uncached (.error (.noDescriptor url))

def instantiateSlice (s : State τ) : SliceMessage → CachedM τ (Slice τ.S × State τ)
  | .mk expr start stop pos => do
      let (v, s) ← instantiateExpression s expr
      return (⟨v.toObj, start, stop, pos⟩, s)

def instantiateSlices (s : State τ) : List SliceMessage → CachedM τ (List (Slice τ.S) × State τ)
  | [] => return ([], s)
  | slice :: slices => do
      let (v, s) ← instantiateSlice s slice
      let (vs, s) ← instantiateSlices s slices
      return (v :: vs, s)

end

def instantiateExpressions (s : State τ) : List Expr → CachedM τ (List (Value τ ℕ) × State τ)
  | [] => return ([], s)
  | e :: es => do
      let (v, s) ← instantiateExpression clr s e
      let (vs, s) ← instantiateExpressions s es
      return (v :: vs, s)

/-- One round of the loop over `ArrangeStmts`. -/
def resolveStatement (s : State τ) : Statement → CachedM τ (State τ)
  | .setObjectField objInstance fieldRepr value => do
      let (resolvedObj, s) ← resolveReferenceType clr s (.object objInstance)
      let (v, s) ← instantiateExpression clr s value
      match ← resolveField clr objInstance.typeRepr fieldRepr with
      | none => uncached (.error .nullReference)
      | some f => uncached (setField clr s resolvedObj f v)
  | .setArrayIndex arrInstance index value => do
      let (resolvedArr, s) ← resolveReferenceType clr s (.array arrInstance)
      let array ← uncached (asArray s.kind resolvedArr)
      let (v, s) ← instantiateExpression clr s value
      uncached (setElement clr s resolvedArr array index v)
  | .unexpected => return s
  | .unknown url => uncached (.error (.noDescriptor url))

/-- `Resolve`. -/
def resolve (test : IlTest) : CachedM τ (DispatchTestResult τ) := do
  let s ← test.arrangeStmts.foldlM (resolveStatement clr) (State.start clr)
  let method ← resolveMethod clr test.call
  let (args, s) ← instantiateExpressions clr s test.call.args
  match test.expectedResult with
  | none => uncached (.error .nullReference)
  | some expectedResult => do
      let (expectedValue, s) ← instantiateExpression clr s expectedResult
      return ⟨method, args, expectedValue, s.objects, s.contents⟩

/-- The tests of a process, one after another; the ones that fail do not end it. -/
def resolveAll (cache : TypesCache τ.Ty) :
    List IlTest → List (Except (ResolverException τ.Err) (DispatchTestResult τ)) × TypesCache τ.Ty
  | [] => ([], cache)
  | test :: tests =>
      let (result, cache) := (resolve clr test).run.run cache
      let (results, cache) := resolveAll cache tests
      (result :: results, cache)

end Cached

/-! ### The types that a test names -/

/-- The type in a mention. -/
def Reference.typeRepr : Reference → TypeRepr
  | array i => i.elementTypeRepr
  | object i => i.typeRepr

mutual

def Expr.typeReprs : Expr → List TypeRepr
  | .combine sightType slices => sightType :: slicesTypeReprs slices
  | .array i => [i.elementTypeRepr]
  | .object i => [i.typeRepr]
  | .ilType type => [type]
  | _ => []

def SliceMessage.typeReprs : SliceMessage → List TypeRepr
  | .mk expr _ _ _ => expr.typeReprs

def slicesTypeReprs : List SliceMessage → List TypeRepr
  | [] => []
  | slice :: slices => slice.typeReprs ++ slicesTypeReprs slices

end

def Statement.typeReprs : Statement → List TypeRepr
  | .setObjectField objInstance fieldRepr value =>
      objInstance.typeRepr :: fieldRepr.typeRepr :: value.typeReprs
  | .setArrayIndex arrInstance _ value => arrInstance.elementTypeRepr :: value.typeReprs
  | _ => []

def IlTest.typeReprs (test : IlTest) : List TypeRepr :=
  test.arrangeStmts.flatMap Statement.typeReprs
    ++ (test.call.declType :: (test.call.args.flatMap Expr.typeReprs
      ++ test.expectedResult.toList.flatMap Expr.typeReprs))

/-! ### The cache is transparent -/

variable {clr}

/-- Of the types in a set, those of one assembly are of one module, unless the module's types cannot be
loaded. -/
def Unmixed (clr : Clr τ) (U : Set TypeRepr) : Prop :=
  ∀ p ∈ U, ∀ q ∈ U, p.asm = q.asm → (∃ types, moduleTypes clr.runtime p = .ok types) →
    moduleTypes clr.runtime q = moduleTypes clr.runtime p

/-- One token for each assembly. -/
theorem unmixed_of_token (token : String → ℤ) :
    Unmixed clr {p | p.moduleToken = token p.asm} := by
  intro p hp q hq hasm _
  refine moduleTypes_congr hasm.symm ?_
  calc q.moduleToken = token q.asm := hq
    _ = token p.asm := by rw [hasm]
    _ = p.moduleToken := hp.symm

/-- The entries of the cache are types of modules that types in the set have asked for. -/
def CacheFrom (clr : Clr τ) (U : Set TypeRepr) (cache : TypesCache τ.Ty) : Prop :=
  ∃ seen, (∀ p ∈ seen, p ∈ U) ∧ CacheOf clr.runtime seen cache

theorem cacheFrom_empty (U : Set TypeRepr) : CacheFrom clr U Dictionary.empty :=
  ⟨[], fun _ hp => absurd hp List.not_mem_nil, remembers_empty⟩

/-- All calls for a type are in the set, those for its generic arguments included. -/
def AsksIn (clr : Clr τ) (U : Set TypeRepr) (typeRepr : TypeRepr) : Prop :=
  ∀ p ∈ visited clr.runtime typeRepr, p ∈ U

variable {U : Set TypeRepr}

/-- **`ResolveType`** returns what it would without the cache. -/
theorem resolveType_transparent (hU : Unmixed clr U) {typeRepr : TypeRepr} (h : AsksIn clr U typeRepr) :
    Transparent (CacheFrom clr U) (Cached.resolveType clr typeRepr) (resolveType clr typeRepr) := by
  intro cache hcache
  obtain ⟨seen, hseen, hof⟩ := hcache
  have hin : ∀ p ∈ seen ++ visited clr.runtime typeRepr, p ∈ U := by
    intro p hp
    exact (List.mem_append.mp hp).elim (hseen p) (h p)
  have hkey : NeverMixed clr.runtime (seen ++ visited clr.runtime typeRepr) :=
    keyDetermines_of_forall fun p hp q hq => hU p (hin p hp) q (hin q hq)
  obtain ⟨hsame, hcache'⟩ := resolveType_eq typeRepr seen cache hof hkey
  refine ⟨?_, _, hin, hcache'⟩
  show (TestExecutor.resolveType clr.runtime cache typeRepr).1.mapError ResolverException.type = _
  rw [hsame]
  rfl

theorem kind_transparent (hU : Unmixed clr U) {r : Reference} (h : AsksIn clr U r.typeRepr) :
    Transparent (CacheFrom clr U) (Cached.kind clr r) (r.kind clr) := by
  cases r with
  | array i => exact (resolveType_transparent hU h).bind fun t => transparent_pure _
  | object i => exact (resolveType_transparent hU h).bind fun t => transparent_pure _

theorem resolveReferenceType_transparent (hU : Unmixed clr U) (s : State τ) {r : Reference}
    (h : AsksIn clr U r.typeRepr) :
    Transparent (CacheFrom clr U) (Cached.resolveReferenceType clr s r)
      (resolveReferenceType clr s r) := by
  unfold Cached.resolveReferenceType resolveReferenceType
  cases s.instances.lookup r.address with
  | some o => exact transparent_pure _
  | none =>
      refine (kind_transparent hU h).bind fun kind => ?_
      exact (transparent_mk _).bind fun initial => transparent_pure _

theorem resolveField_transparent (hU : Unmixed clr U) {declTypeRepr : TypeRepr} {fieldRepr : FieldRepr}
    (hdecl : AsksIn clr U declTypeRepr) (hfield : AsksIn clr U fieldRepr.typeRepr) :
    Transparent (CacheFrom clr U) (Cached.resolveField clr declTypeRepr fieldRepr)
      (resolveField clr declTypeRepr fieldRepr) := by
  refine (resolveType_transparent hU hdecl).bind fun declType => ?_
  exact (resolveType_transparent hU hfield).bind fun fieldType => transparent_pure _

theorem resolveMethod_transparent (hU : Unmixed clr U) {call : MethodCall} (h : AsksIn clr U call.declType) :
    Transparent (CacheFrom clr U) (Cached.resolveMethod clr call) (resolveMethod clr call) :=
  (resolveType_transparent hU h).bind fun _ => transparent_mk _

mutual

theorem instantiateExpression_transparent (hU : Unmixed clr U) : ∀ (e : Expr) (s : State τ),
    (∀ p ∈ e.typeReprs, AsksIn clr U p) →
      Transparent (CacheFrom clr U) (Cached.instantiateExpression clr s e)
        (instantiateExpression clr s e)
  | .const c, s, _ => by
      rw [Cached.instantiateExpression, instantiateExpression]
      exact (transparent_mk _).bind fun d => transparent_pure _
  | .combine sightType slices, s, h => by
      rw [Expr.typeReprs] at h
      rw [Cached.instantiateExpression, instantiateExpression]
      refine (resolveType_transparent hU (h _ List.mem_cons_self)).bind fun type => ?_
      refine (instantiateSlices_transparent hU slices s
        fun p hp => h p (List.mem_cons_of_mem _ hp)).bind fun r => ?_
      exact (transparent_mk _).bind fun o => transparent_pure _
  | .array i, s, h => by
      rw [Expr.typeReprs] at h
      rw [Cached.instantiateExpression, instantiateExpression]
      exact (resolveReferenceType_transparent hU s (h _ List.mem_cons_self)).bind
        fun r => transparent_pure _
  | .object i, s, h => by
      rw [Expr.typeReprs] at h
      rw [Cached.instantiateExpression, instantiateExpression]
      exact (resolveReferenceType_transparent hU s (h _ List.mem_cons_self)).bind
        fun r => transparent_pure _
  | .ilType type, s, h => by
      rw [Expr.typeReprs] at h
      rw [Cached.instantiateExpression, instantiateExpression]
      exact (resolveType_transparent hU (h _ List.mem_cons_self)).bind fun t => transparent_pure _
  | .unexpected, s, _ => by
      rw [Cached.instantiateExpression, instantiateExpression]
      exact transparent_pure _
  | .unknown url, s, _ => by
      rw [Cached.instantiateExpression, instantiateExpression]
      exact transparent_mk _

theorem instantiateSlice_transparent (hU : Unmixed clr U) : ∀ (slice : SliceMessage) (s : State τ),
    (∀ p ∈ slice.typeReprs, AsksIn clr U p) →
      Transparent (CacheFrom clr U) (Cached.instantiateSlice clr s slice)
        (instantiateSlice clr s slice)
  | .mk expr start stop pos, s, h => by
      rw [SliceMessage.typeReprs] at h
      rw [Cached.instantiateSlice, instantiateSlice]
      exact (instantiateExpression_transparent hU expr s h).bind fun r => transparent_pure _

theorem instantiateSlices_transparent (hU : Unmixed clr U) : ∀ (slices : List SliceMessage) (s : State τ),
    (∀ p ∈ slicesTypeReprs slices, AsksIn clr U p) →
      Transparent (CacheFrom clr U) (Cached.instantiateSlices clr s slices)
        (instantiateSlices clr s slices)
  | [], s, _ => by
      rw [Cached.instantiateSlices, instantiateSlices]
      exact transparent_pure _
  | slice :: slices, s, h => by
      rw [slicesTypeReprs] at h
      rw [Cached.instantiateSlices, instantiateSlices]
      refine (instantiateSlice_transparent hU slice s
        fun p hp => h p (List.mem_append_left _ hp)).bind fun r => ?_
      refine (instantiateSlices_transparent hU slices r.2
        fun p hp => h p (List.mem_append_right _ hp)).bind fun r' => ?_
      exact transparent_pure _

end

theorem instantiateExpressions_transparent (hU : Unmixed clr U) (es : List Expr) : ∀ s : State τ,
    (∀ p ∈ es.flatMap Expr.typeReprs, AsksIn clr U p) →
      Transparent (CacheFrom clr U) (Cached.instantiateExpressions clr s es)
        (instantiateExpressions clr s es) := by
  induction es with
  | nil => exact fun s _ => transparent_pure _
  | cons e es ih =>
      intro s h
      rw [List.flatMap_cons] at h
      refine (instantiateExpression_transparent hU e s
        fun p hp => h p (List.mem_append_left _ hp)).bind fun r => ?_
      exact (ih r.2 fun p hp => h p (List.mem_append_right _ hp)).bind
        fun r' => transparent_pure _

theorem resolveStatement_transparent (hU : Unmixed clr U) (stmt : Statement) (s : State τ)
    (h : ∀ p ∈ stmt.typeReprs, AsksIn clr U p) :
    Transparent (CacheFrom clr U) (Cached.resolveStatement clr s stmt)
      (resolveStatement clr s stmt) := by
  cases stmt with
  | setObjectField objInstance fieldRepr value =>
      rw [Statement.typeReprs, List.forall_mem_cons, List.forall_mem_cons] at h
      obtain ⟨hobj, hfield, hvalue⟩ := h
      refine (resolveReferenceType_transparent hU s (r := .object objInstance) hobj).bind fun r => ?_
      refine (instantiateExpression_transparent hU value r.2 hvalue).bind fun r' => ?_
      refine (resolveField_transparent hU hobj hfield).bind fun f => ?_
      cases f with
      | none => exact transparent_mk _
      | some f => exact transparent_mk _
  | setArrayIndex arrInstance index value =>
      rw [Statement.typeReprs, List.forall_mem_cons] at h
      obtain ⟨harr, hvalue⟩ := h
      refine (resolveReferenceType_transparent hU s (r := .array arrInstance) harr).bind fun r => ?_
      refine (transparent_mk _).bind fun array => ?_
      refine (instantiateExpression_transparent hU value r.2 hvalue).bind fun r' => ?_
      exact transparent_mk _
  | unexpected => exact transparent_pure _
  | unknown url => exact transparent_mk _

/-- **One test** is resolved as it would be without the cache, failures included. -/
theorem resolve_transparent (hU : Unmixed clr U) (test : IlTest)
    (h : ∀ p ∈ test.typeReprs, AsksIn clr U p) :
    Transparent (CacheFrom clr U) (Cached.resolve clr test) (resolve clr test) := by
  rw [IlTest.typeReprs, List.forall_mem_append, List.forall_mem_cons, List.forall_mem_append] at h
  obtain ⟨hstmts, hdecl, hargs, hexpected⟩ := h
  refine (transparent_foldlM test.arrangeStmts (fun stmt hstmt s =>
    resolveStatement_transparent hU stmt s fun p hp =>
      hstmts p (List.mem_flatMap.mpr ⟨stmt, hstmt, hp⟩)) _).bind fun s => ?_
  refine (resolveMethod_transparent hU hdecl).bind fun method => ?_
  refine (instantiateExpressions_transparent hU test.call.args s hargs).bind fun r => ?_
  cases hresult : test.expectedResult with
  | none => exact transparent_mk _
  | some expectedResult =>
      rw [hresult] at hexpected
      refine (instantiateExpression_transparent hU expectedResult r.2 fun p hp =>
        hexpected p (List.mem_flatMap.mpr ⟨_, Option.mem_toList.mpr rfl, hp⟩)).bind fun r' => ?_
      exact transparent_pure _

theorem resolveAll_of_cacheFrom (hU : Unmixed clr U) (tests : List IlTest) :
    ∀ cache : TypesCache τ.Ty, CacheFrom clr U cache →
      (∀ test ∈ tests, ∀ p ∈ test.typeReprs, AsksIn clr U p) →
        (Cached.resolveAll clr cache tests).1 = tests.map (resolve clr) := by
  induction tests with
  | nil => exact fun _ _ _ => rfl
  | cons test tests ih =>
      intro cache hcache h
      rw [List.forall_mem_cons] at h
      obtain ⟨hfirst, hcache'⟩ := resolve_transparent hU test h.1 cache hcache
      rw [List.map_cons, ← hfirst, ← ih _ hcache' h.2]
      rfl

/-- **All tests of a process** are resolved as they would be without the cache, if the types that they
name are not mixed. -/
theorem resolveAll_eq (hU : Unmixed clr U) (tests : List IlTest)
    (h : ∀ test ∈ tests, ∀ p ∈ test.typeReprs, AsksIn clr U p) :
    (Cached.resolveAll clr Dictionary.empty tests).1 = tests.map (resolve clr) :=
  resolveAll_of_cacheFrom hU tests Dictionary.empty (cacheFrom_empty U) h

end TestExecutor.TestResolver
