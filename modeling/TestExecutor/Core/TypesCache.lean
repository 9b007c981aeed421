import Mathlib.Data.Int.Notation
import TestExecutor.Library.Memo

/-!
# `ResolveType` and its cache

* `TypeRepr` — types as they come in messages;
* `Runtime` — what assemblies, modules and types there are;
* `ResolveException` — why a type is not found;
* `resolveType`, `resolveCalls` — one call and a sequence of calls, with `TypesCache` before and after;
* `namedType` — the type without any cache;
* `visited` — the types that a call asks for, its own and those of generic arguments;
* `resolveCalls_eq` — **the cache is transparent** where the modules of an assembly are never mixed.
-/

namespace TestExecutor

open TestExecutor.Library

inductive TypeRepr
  | mk (asm : String) (moduleToken : ℤ) (fullName : String) (genericArgs : List TypeRepr)

namespace TypeRepr

def asm : TypeRepr → String
  | mk asm _ _ _ => asm

def moduleToken : TypeRepr → ℤ
  | mk _ moduleToken _ _ => moduleToken

def fullName : TypeRepr → String
  | mk _ _ fullName _ => fullName

end TypeRepr

/-- A module of an assembly. -/
structure Module (Err Ty : Type) where
  metadataToken : ℤ
  getTypes : Except Err (List Ty)

/-- `Assembly.Load`, with the modules of the assembly, and what types are. -/
structure Runtime (Err Ty : Type) where
  load : String → Except Err (List (Module Err Ty))
  fullName : Ty → String
  isGenericType : Ty → Bool
  makeGenericType : Ty → List Ty → Except Err Ty

/-- Exceptions: of the runtime, of `First`, and the one that is thrown for a type that is not found
among others. -/
inductive ResolveException (Err : Type)
  | runtime (e : Err)
  | noMatchingModule
  | notFound (typeRepr : TypeRepr) (among : List String)

abbrev TypesCache (Ty : Type) := Dictionary String (List Ty)

section Resolve

variable {Err Ty : Type} (rt : Runtime Err Ty)

/-- `Assembly.Load(asmName).Modules.First(m => m.MetadataToken == typeRepr.ModuleToken).GetTypes()`. -/
def moduleTypes (typeRepr : TypeRepr) : Except (ResolveException Err) (List Ty) :=
  match rt.load typeRepr.asm with
  | .error e => .error (.runtime e)
  | .ok modules =>
      match modules.find? fun m => m.metadataToken = typeRepr.moduleToken with
      | none => .error .noMatchingModule
      | some m => m.getTypes.mapError .runtime

/-- `types.FirstOrDefault(t => t.FullName == typeRepr.FullName)`, which is not to be null. -/
def findType (types : List Ty) (typeRepr : TypeRepr) : Except (ResolveException Err) Ty :=
  match types.find? fun t => rt.fullName t = typeRepr.fullName with
  | none => .error (.notFound typeRepr (types.map rt.fullName))
  | some t => .ok t

/-- The types that are searched, from the cache if the assembly has been loaded before. -/
def cachedTypes (cache : TypesCache Ty) (typeRepr : TypeRepr) :
    Except (ResolveException Err) (List Ty) × TypesCache Ty :=
  memoize TypeRepr.asm (moduleTypes rt) cache typeRepr

mutual

/-- `ResolveType`. -/
def resolveType (cache : TypesCache Ty) : TypeRepr → Except (ResolveException Err) Ty × TypesCache Ty
  | .mk asm moduleToken fullName genericArgs =>
      match cachedTypes rt cache (.mk asm moduleToken fullName genericArgs) with
      | (.error e, cache) => (.error e, cache)
      | (.ok types, cache) =>
          match findType rt types (.mk asm moduleToken fullName genericArgs) with
          | .error e => (.error e, cache)
          | .ok t =>
              if rt.isGenericType t then
                match resolveTypes cache genericArgs with
                | (.error e, cache) => (.error e, cache)
                | (.ok resolvedGenerics, cache) =>
                    ((rt.makeGenericType t resolvedGenerics).mapError .runtime, cache)
              else (.ok t, cache)

/-- `Select(ResolveType).ToArray()`. -/
def resolveTypes (cache : TypesCache Ty) :
    List TypeRepr → Except (ResolveException Err) (List Ty) × TypesCache Ty
  | [] => (.ok [], cache)
  | typeRepr :: rest =>
      match resolveType cache typeRepr with
      | (.error e, cache) => (.error e, cache)
      | (.ok t, cache) =>
          match resolveTypes cache rest with
          | (.error e, cache) => (.error e, cache)
          | (.ok ts, cache) => (.ok (t :: ts), cache)

end

/-- Calls one after another, with the cache that the ones before have left. -/
def resolveCalls (cache : TypesCache Ty) :
    List TypeRepr → List (Except (ResolveException Err) Ty) × TypesCache Ty
  | [] => ([], cache)
  | typeRepr :: rest =>
      let (t, cache) := resolveType rt cache typeRepr
      let (ts, cache) := resolveCalls cache rest
      (t :: ts, cache)

/-! ### Without a cache -/

mutual

/-- The type with the full name in the module with the token, and its generic arguments. -/
def namedType : TypeRepr → Except (ResolveException Err) Ty
  | .mk asm moduleToken fullName genericArgs =>
      (moduleTypes rt (.mk asm moduleToken fullName genericArgs)).bind fun types =>
        (findType rt types (.mk asm moduleToken fullName genericArgs)).bind fun t =>
          if rt.isGenericType t then
            (namedTypes genericArgs).bind fun generics =>
              (rt.makeGenericType t generics).mapError .runtime
          else .ok t

def namedTypes : List TypeRepr → Except (ResolveException Err) (List Ty)
  | [] => .ok []
  | typeRepr :: rest =>
      (namedType typeRepr).bind fun t => (namedTypes rest).map fun ts => t :: ts

end

mutual

/-- The types for which there are calls, in their order. -/
def visited : TypeRepr → List TypeRepr
  | .mk asm moduleToken fullName genericArgs =>
      .mk asm moduleToken fullName genericArgs ::
        match moduleTypes rt (.mk asm moduleToken fullName genericArgs) with
        | .error _ => []
        | .ok types =>
            match findType rt types (.mk asm moduleToken fullName genericArgs) with
            | .error _ => []
            | .ok t => if rt.isGenericType t then visitedArgs genericArgs else []

def visitedArgs : List TypeRepr → List TypeRepr
  | [] => []
  | typeRepr :: rest => visited typeRepr ++
      match namedType rt typeRepr with
      | .error _ => []
      | .ok _ => visitedArgs rest

end

/-! ### The cache is transparent -/

variable {rt}

/-- No assembly whose types have been loaded is asked for the types of another module. -/
def NeverMixed (rt : Runtime Err Ty) (typeReprs : List TypeRepr) : Prop :=
  KeyDetermines TypeRepr.asm (moduleTypes rt) typeReprs

theorem moduleTypes_congr {p q : TypeRepr} (hasm : p.asm = q.asm)
    (htoken : p.moduleToken = q.moduleToken) : moduleTypes rt p = moduleTypes rt q := by
  unfold moduleTypes
  rw [hasm, htoken]

/-- Types are not mixed, if there is one token for each assembly. -/
theorem neverMixed_of_token {typeReprs : List TypeRepr} (token : String → ℤ)
    (h : ∀ p ∈ typeReprs, p.moduleToken = token p.asm) : NeverMixed rt typeReprs := by
  refine List.Pairwise.imp_of_mem (R := fun _ _ => True) (fun {p q} hp hq _ hasm _ => ?_)
    (List.pairwise_of_forall fun _ _ => trivial)
  refine moduleTypes_congr hasm.symm ?_
  rw [h p hp, h q hq, hasm]

/-- The entries of the cache are types of modules that were asked for. -/
def CacheOf (rt : Runtime Err Ty) (seen : List TypeRepr) (cache : TypesCache Ty) : Prop :=
  Remembers TypeRepr.asm (moduleTypes rt) seen cache

mutual

/-- **One call** returns what it would without a cache. -/
theorem resolveType_eq : ∀ (typeRepr : TypeRepr) (seen : List TypeRepr) (cache : TypesCache Ty),
    CacheOf rt seen cache → NeverMixed rt (seen ++ visited rt typeRepr) →
      (resolveType rt cache typeRepr).1 = namedType rt typeRepr
        ∧ CacheOf rt (seen ++ visited rt typeRepr) (resolveType rt cache typeRepr).2
  | .mk asm moduleToken fullName genericArgs, seen, cache, h, hkey => by
      rw [visited, List.append_cons] at hkey ⊢
      rw [resolveType, namedType]
      obtain ⟨hsame, hcache⟩ := memoize_eq h hkey.left
      change (cachedTypes rt cache (.mk asm moduleToken fullName genericArgs)).1 = _ at hsame
      change CacheOf rt _ (cachedTypes rt cache (.mk asm moduleToken fullName genericArgs)).2 at hcache
      generalize cachedTypes rt cache (.mk asm moduleToken fullName genericArgs) = found
        at hsame hcache ⊢
      obtain ⟨types, cache'⟩ := found
      obtain rfl : types = moduleTypes rt (.mk asm moduleToken fullName genericArgs) := hsame
      cases htypes : moduleTypes rt (.mk asm moduleToken fullName genericArgs) with
      | error e => exact ⟨rfl, hcache.append []⟩
      | ok types =>
          simp only [htypes, Except.bind] at hkey ⊢
          cases ht : findType rt types (.mk asm moduleToken fullName genericArgs) with
          | error e => exact ⟨rfl, hcache.append []⟩
          | ok t =>
              simp only [ht] at hkey ⊢
              by_cases hgeneric : rt.isGenericType t
              · simp only [if_pos hgeneric] at hkey ⊢
                obtain ⟨hargs, hcache'⟩ := resolveTypes_eq genericArgs _ cache' hcache hkey
                generalize resolveTypes rt cache' genericArgs = resolved at hargs hcache' ⊢
                obtain ⟨generics, cache''⟩ := resolved
                obtain rfl : generics = namedTypes rt genericArgs := hargs
                cases hgenerics : namedTypes rt genericArgs with
                | error e => exact ⟨rfl, hcache'⟩
                | ok generics => exact ⟨rfl, hcache'⟩
              · simp only [if_neg hgeneric]
                exact ⟨trivial, hcache.append []⟩

theorem resolveTypes_eq : ∀ (typeReprs : List TypeRepr) (seen : List TypeRepr)
    (cache : TypesCache Ty), CacheOf rt seen cache →
      NeverMixed rt (seen ++ visitedArgs rt typeReprs) →
        (resolveTypes rt cache typeReprs).1 = namedTypes rt typeReprs
          ∧ CacheOf rt (seen ++ visitedArgs rt typeReprs) (resolveTypes rt cache typeReprs).2
  | [], seen, cache, h, _ => ⟨rfl, h.append []⟩
  | typeRepr :: rest, seen, cache, h, hkey => by
      rw [visitedArgs, ← List.append_assoc] at hkey ⊢
      rw [resolveTypes, namedTypes]
      obtain ⟨hfirst, hcache⟩ := resolveType_eq typeRepr seen cache h hkey.left
      generalize resolveType rt cache typeRepr = resolved at hfirst hcache ⊢
      obtain ⟨t, cache'⟩ := resolved
      obtain rfl : t = namedType rt typeRepr := hfirst
      cases ht : namedType rt typeRepr with
      | error e => exact ⟨rfl, hcache.append []⟩
      | ok t =>
          simp only [ht] at hkey ⊢
          obtain ⟨hrest, hcache'⟩ := resolveTypes_eq rest _ cache' hcache hkey
          generalize resolveTypes rt cache' rest = resolved at hrest hcache' ⊢
          obtain ⟨ts, cache''⟩ := resolved
          obtain rfl : ts = namedTypes rt rest := hrest
          cases hts : namedTypes rt rest with
          | error e => exact ⟨rfl, hcache'⟩
          | ok ts => exact ⟨rfl, hcache'⟩

end

/-- The types for which a sequence of calls asks. -/
def visitedCalls (rt : Runtime Err Ty) (typeReprs : List TypeRepr) : List TypeRepr :=
  typeReprs.flatMap (visited rt)

theorem resolveCalls_of_cacheOf (typeReprs : List TypeRepr) :
    ∀ (seen : List TypeRepr) (cache : TypesCache Ty), CacheOf rt seen cache →
      NeverMixed rt (seen ++ visitedCalls rt typeReprs) →
        (resolveCalls rt cache typeReprs).1 = typeReprs.map (namedType rt) := by
  induction typeReprs with
  | nil => exact fun seen cache _ _ => rfl
  | cons typeRepr rest ih =>
      intro seen cache h hkey
      rw [visitedCalls, List.flatMap_cons, ← List.append_assoc] at hkey
      obtain ⟨hfirst, hcache⟩ := resolveType_eq typeRepr seen cache h hkey.left
      show (resolveType rt cache typeRepr).1 :: (resolveCalls rt _ rest).1 = _
      rw [hfirst, ih _ _ hcache hkey]
      rfl

/-- **The cache is transparent**: in a sequence of calls that never mixes modules of an assembly, each
returns what it would without a cache, failures included. -/
theorem resolveCalls_eq {typeReprs : List TypeRepr}
    (h : NeverMixed rt (visitedCalls rt typeReprs)) :
    (resolveCalls rt Dictionary.empty typeReprs).1 = typeReprs.map (namedType rt) :=
  resolveCalls_of_cacheOf typeReprs [] Dictionary.empty remembers_empty h

end Resolve

/-! ### A wrong token -/

/-- An assembly of one module with two types, of which one is generic. -/
def smallRuntime : Runtime Unit (List String) where
  load asm := if asm = "App" then .ok [⟨1, .ok [["Box"], ["Item"]]⟩] else .error ()
  fullName t := t.headD ""
  isGenericType t := t = ["Box"]
  makeGenericType t args := if args.length = 1 then .ok (t ++ args.flatten) else .error ()

theorem resolveCalls_eq_box :
    (resolveCalls smallRuntime Dictionary.empty
      [.mk "App" 1 "Box" [.mk "App" 1 "Item" []], .mk "App" 1 "Item" []]).1
      = [.mk "App" 1 "Box" [.mk "App" 1 "Item" []], .mk "App" 1 "Item" []].map
        (namedType smallRuntime) :=
  resolveCalls_eq (neverMixed_of_token (fun _ => 1) (by decide +kernel))

/-- No module has the second token, but the type is found with it once it is in the cache. -/
theorem wrongToken_not_transparent :
    namedType smallRuntime (.mk "App" 2 "Item" []) = .error .noMatchingModule
    ∧ (resolveCalls smallRuntime Dictionary.empty [.mk "App" 1 "Item" [], .mk "App" 2 "Item" []]).1
      = [.ok ["Item"], .ok ["Item"]]
    ∧ (resolveCalls smallRuntime Dictionary.empty [.mk "App" 1 "Item" [], .mk "App" 2 "Item" []]).1
      ≠ [.mk "App" 1 "Item" [], .mk "App" 2 "Item" []].map (namedType smallRuntime) := by
  have hnamed : namedType smallRuntime (.mk "App" 2 "Item" []) = .error .noMatchingModule := rfl
  have hcached : (resolveCalls smallRuntime Dictionary.empty
      [.mk "App" 1 "Item" [], .mk "App" 2 "Item" []]).1 = [.ok ["Item"], .ok ["Item"]] := rfl
  refine ⟨hnamed, hcached, fun h => ?_⟩
  rw [hcached, List.map_cons, List.map_cons, hnamed] at h
  cases (List.cons.inj (List.cons.inj h).2).1

end TestExecutor
