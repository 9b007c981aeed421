import TestExecutor.Core.UserEquality

/-!
# Inherited fields

`GetFields` of a class lists the fields that the class declares, and of those that its base types
declare the ones that are not private.

* `ClassHierarchy` — base types and declared fields;
* `getFields`, `instanceFields` — what reflection lists, and what an object has;
* `HidesNothing` — no base type declares a private field that would be compared;
* `bisimilar_instanceFields` — where nothing is hidden, equal graphs agree in all fields;
* `hiddenGraph` — two objects that differ in a hidden field;
* `comparesInherited_iff` — **an answer tells about all fields** of the objects of a class exactly if
  the class hides nothing.
-/

namespace TestExecutor

/-- Types with the instance fields that they declare, and the chains of their base types. -/
structure ClassHierarchy (T F : Type) where
  kind : T → TypeKind
  baseType : T → Option T
  depth : T → ℕ
  depth_lt : ∀ t b, baseType t = some b → depth b < depth t
  declaredFields : T → List F
  declared_once : ∀ t t' f, f ∈ declaredFields t → f ∈ declaredFields t' → t = t'
  isPrivate : F → Bool
  name : F → String
  isDelegate : F → Bool

namespace ClassHierarchy

variable {T F : Type} (H : ClassHierarchy T F)

/-! ### Base types and fields -/

/-- The first base types of a type, nearest first. -/
def basesUpTo : ℕ → T → List T
  | 0, _ => []
  | n + 1, t => (H.baseType t).elim [] fun b => b :: basesUpTo n b

/-- All base types. -/
def baseTypes (t : T) : List T := H.basesUpTo (H.depth t) t

theorem basesUpTo_of_depth_le (n : ℕ) : ∀ m t, H.depth t ≤ n → H.depth t ≤ m →
    H.basesUpTo n t = H.basesUpTo m t := by
  induction n with
  | zero =>
      intro m t hn _
      cases hbase : H.baseType t with
      | none => cases m <;> simp [basesUpTo, hbase]
      | some b => exact absurd (H.depth_lt t b hbase) (by omega)
  | succ n ih =>
      intro m t hn hm
      cases hbase : H.baseType t with
      | none => cases m <;> simp [basesUpTo, hbase]
      | some b =>
          have hlt := H.depth_lt t b hbase
          cases m with
          | zero => exact absurd hlt (by omega)
          | succ m => simp [basesUpTo, hbase, ih m b (by omega) (by omega)]

/-- The base types are the base type and its base types. -/
theorem baseTypes_eq (t : T) :
    H.baseTypes t = (H.baseType t).elim [] fun b => b :: H.baseTypes b := by
  show H.basesUpTo (H.depth t) t = _
  rw [H.basesUpTo_of_depth_le (H.depth t) (H.depth t + 1) t (le_refl _) (Nat.le_succ _), basesUpTo]
  cases hbase : H.baseType t with
  | none => rfl
  | some b =>
      have hlt := H.depth_lt t b hbase
      show b :: H.basesUpTo (H.depth t) b = b :: H.basesUpTo (H.depth b) b
      rw [H.basesUpTo_of_depth_le (H.depth t) (H.depth b) b (le_of_lt hlt) (le_refl _)]

theorem depth_lt_of_mem {b t : T} (h : b ∈ H.baseTypes t) : H.depth b < H.depth t := by
  have hupTo : ∀ n t, b ∈ H.basesUpTo n t → H.depth b < H.depth t := by
    intro n
    induction n with
    | zero => exact fun t hmem => absurd hmem List.not_mem_nil
    | succ n ih =>
        intro t hmem
        cases hbase : H.baseType t with
        | none => simp [basesUpTo, hbase] at hmem
        | some b' =>
            have hlt := H.depth_lt t b' hbase
            rw [basesUpTo, hbase] at hmem
            rcases List.mem_cons.mp hmem with rfl | hmem
            · exact hlt
            · exact (ih b' hmem).trans hlt
  exact hupTo (H.depth t) t h

/-- `GetFields(Public | NonPublic | Instance)`. -/
def getFields (t : T) : List F :=
  H.declaredFields t
    ++ (H.baseTypes t).flatMap fun b => (H.declaredFields b).filter fun f => !H.isPrivate f

/-- The fields that an object has. -/
def instanceFields (t : T) : List F := H.declaredFields t ++ (H.baseTypes t).flatMap H.declaredFields

/-- What reflection tells about the types. -/
def typeInfo : TypeInfo T F := ⟨H.kind, H.getFields, H.name, H.isDelegate⟩

/-- Reflection with the private fields of base types. -/
def fullTypeInfo : TypeInfo T F := ⟨H.kind, H.instanceFields, H.name, H.isDelegate⟩

/-- No base type declares a private field that would be compared. -/
def HidesNothing (t : T) : Prop :=
  ∀ b ∈ H.baseTypes t, ∀ f ∈ H.declaredFields b, H.isPrivate f = true → ¬H.typeInfo.IsCompared f

variable {H}

theorem getFields_subset {t : T} {f : F} (hf : f ∈ H.getFields t) : f ∈ H.instanceFields t := by
  rcases List.mem_append.mp hf with hf | hf
  · exact List.mem_append_left _ hf
  · obtain ⟨b, hb, hf⟩ := List.mem_flatMap.mp hf
    exact List.mem_append_right _ (List.mem_flatMap.mpr ⟨b, hb, List.mem_of_mem_filter hf⟩)

/-- A class that hides nothing lists every field that is to be compared. -/
theorem HidesNothing.mem_getFields {t : T} (h : H.HidesNothing t) {f : F}
    (hf : f ∈ H.instanceFields t) (hc : H.typeInfo.IsCompared f) : f ∈ H.getFields t := by
  rcases List.mem_append.mp hf with hf | hf
  · exact List.mem_append_left _ hf
  · obtain ⟨b, hb, hf⟩ := List.mem_flatMap.mp hf
    refine List.mem_append_right _ (List.mem_flatMap.mpr ⟨b, hb, List.mem_filter.mpr ⟨hf, ?_⟩⟩)
    cases hprivate : H.isPrivate f with
    | false => rfl
    | true => exact absurd hc (h b hb f hf hprivate)

/-- Private fields of base types are not listed. -/
theorem not_mem_getFields {b t : T} {f : F} (hb : b ∈ H.baseTypes t) (hf : f ∈ H.declaredFields b)
    (hprivate : H.isPrivate f = true) : f ∉ H.getFields t := by
  intro hmem
  rcases List.mem_append.mp hmem with hmem | hmem
  · have heq : b = t := H.declared_once b t f hf hmem
    have hlt := H.depth_lt_of_mem hb
    rw [heq] at hlt
    exact absurd hlt (Nat.lt_irrefl _)
  · obtain ⟨b', -, hmem⟩ := List.mem_flatMap.mp hmem
    have hpublic := List.of_mem_filter hmem
    rw [hprivate] at hpublic
    cases hpublic

/-! ### What an answer tells -/

variable {N P : Type} {G : ObjectGraph N T F P}

/-- The graph in which all fields are listed. -/
def withInstanceFields (H : ClassHierarchy T F) (G : ObjectGraph N T F P)
    (hG : G.toTypeInfo = H.typeInfo) : ObjectGraph N T F P :=
  { G with
    toTypeInfo := H.fullTypeInfo
    inPlace_valueType := fun n t hn ht => by
      have hkind : G.kind = H.kind := congrArg TypeInfo.kind hG
      show (H.kind t).IsValueType
      rw [← hkind]
      exact G.inPlace_valueType n t hn ht }

variable [DecidableEq N] [DecidableEq T] [DecidableEq P] {E : EqualityMethods G} {x y : N}

/-- **All state is compared** where no class hides any: equal graphs agree in all fields, at all
positions. -/
theorem bisimilar_instanceFields (hG : G.toTypeInfo = H.typeInfo) (h : ∀ t, H.HidesNothing t)
    (hfaithful : IsFaithful E (ComparedFrom G x y)) {fuel : ℕ}
    (hrun : ObjectsComparer.equals E fuel x y = some true) :
    (H.withInstanceFields G hG).Bisimilar x y := by
  refine ⟨G.Bisimilar, fun a b hab => ?_, (comparer_correct hfaithful hrun).mp rfl⟩
  have hkind : ∀ t, (H.withInstanceFields G hG).kind t = G.kind t :=
    fun t => (congrFun (congrArg TypeInfo.kind hG) t).symm
  have hlisted : ∀ {t f}, f ∈ H.instanceFields t → H.fullTypeInfo.IsCompared f →
      f ∈ G.getFields t ∧ G.IsCompared f := by
    intro t f hf hc
    have hfields : G.getFields = H.getFields := congrArg TypeInfo.getFields hG
    rw [hfields, hG]
    exact ⟨(h t).mem_getFields hf hc, hc⟩
  cases hab.matches with
  | null ha hb => exact .null ha hb
  | same hsame => exact .same hsame
  | atom ha hb ht hp => exact .atom ha hb ((hkind _).symm ▸ ht) hp
  | array ha hb ht hdims helements => exact .array ha hb ((hkind _).trans ht) hdims helements
  | object ha hb ht hvalues =>
      refine .object ha hb ((hkind _).symm ▸ ht) fun f hf hc => ?_
      obtain ⟨hf, hc⟩ := hlisted hf hc
      exact hvalues f hf hc

/-- In every graph, with methods that take nothing for what differs from it: if two objects of the
class are found to be equal, the values of all of their fields are alike, except for delegates and
thread ids. -/
def ComparesInherited (H : ClassHierarchy T F) (c : T) : Prop :=
  ∀ (N P : Type) (_ : DecidableEq N) (_ : DecidableEq P) (G : ObjectGraph N T F P)
    (E : EqualityMethods G) (x y : N) (fuel : ℕ), Finite N → G.toTypeInfo = H.typeInfo →
    IsFaithful E (ComparedFrom G x y) → G.getType x = some c → G.getType y = some c →
    ObjectsComparer.equals E fuel x y = some true →
    ∀ f ∈ H.instanceFields c, G.IsCompared f → G.Bisimilar (G.getValue f x) (G.getValue f y)

omit [DecidableEq N] [DecidableEq P] in
theorem HidesNothing.comparesInherited {c : T} (hc : H.kind c = .object) (h : H.HidesNothing c) :
    H.ComparesInherited c := by
  intro N P _ _ G E x y fuel _ hG hfaithful hx hy hrun f hf hcompared
  have hbisimilar : G.Bisimilar x y := (comparer_correct hfaithful hrun).mp rfl
  have hkind : G.kind c = .object := (congrFun (congrArg TypeInfo.kind hG) c).trans hc
  have hlisted : f ∈ G.getFields c := by
    rw [congrArg TypeInfo.getFields hG]
    exact h.mem_getFields hf (hG ▸ hcompared)
  exact hbisimilar.matches.field ObjectGraph.Bisimilar.refl hx (Or.inl hkind) hlisted hcompared

/-! ### Objects that differ in a hidden field -/

local instance neZero_three : NeZero 3 := ⟨by decide⟩

section Hidden

variable [DecidableEq F]

/-- Null, and two objects of a class with null in all fields but one, which of the second object
refers to the first. -/
def hiddenGraph (H : ClassHierarchy T F) (c : T) (hidden : F) : ObjectGraph (Fin 3) T F Unit where
  toTypeInfo := H.typeInfo
  getType n := if n = 0 then none else some c
  payload _ := ()
  array _ := ⟨[(0, 0)], [], rfl⟩
  getValue f n := if f = hidden ∧ n = 2 then 1 else 0
  inPlace _ := false
  inPlace_valueType _ _ := nofun

/-- No class overrides `Equals` or `GetHashCode`. -/
def hiddenMethods (H : ClassHierarchy T F) (c : T) (hidden : F) :
    EqualityMethods (H.hiddenGraph c hidden) :=
  defaultMethods _ (fun _ => []) nofun

variable {c : T} {hidden : F}

omit [DecidableEq T] in
theorem hiddenGraph_getValue {f : F} (hf : f ≠ hidden) (n : Fin 3) :
    (H.hiddenGraph c hidden).getValue f n = 0 := if_neg fun h => hf h.1

omit [DecidableEq T] in
theorem hiddenGraph_bisimilar (hc : H.kind c = .object) (hlisted : hidden ∉ H.getFields c) :
    (H.hiddenGraph c hidden).Bisimilar 1 2 := by
  refine .of_matches (.object rfl rfl (Or.inl hc) fun f hf _ => ?_)
  have hne : f ≠ hidden := fun heq => hlisted (heq ▸ hf)
  rw [hiddenGraph_getValue hne, hiddenGraph_getValue hne]
  exact .refl 0

omit [DecidableEq T] in
theorem hiddenGraph_differ :
    ¬(H.hiddenGraph c hidden).Bisimilar ((H.hiddenGraph c hidden).getValue hidden 1)
      ((H.hiddenGraph c hidden).getValue hidden 2) := by
  have hnull : (H.hiddenGraph c hidden).getValue hidden 1 = 0 := if_neg fun h => absurd h.2 (by decide)
  have hfirst : (H.hiddenGraph c hidden).getValue hidden 2 = 1 := if_pos ⟨rfl, rfl⟩
  rw [hnull, hfirst]
  intro h
  cases h.matches.getType_eq

/-- The objects are found to be equal, if the class does not list the field. -/
theorem hiddenGraph_equals (hc : H.kind c = .object) (hlisted : hidden ∉ H.getFields c) :
    ∃ fuel, ObjectsComparer.equals (H.hiddenMethods c hidden) fuel 1 2 = some true := by
  have hacc : ∀ n, Acc (StructHolds (H.hiddenGraph c hidden)) n := by
    intro n
    refine .intro n fun m hholds => ?_
    obtain ⟨t, f, htype, hstruct, -⟩ := hholds
    have hclass : c = t := by
      by_cases hn : n = 0
      · subst hn
        cases htype
      · exact Option.some.inj ((if_neg hn).symm.trans htype)
    have hkind : H.kind t = .struct := hstruct
    rw [← hclass, hc] at hkind
    cases hkind
  have hrespects : RespectsGraph (H.hiddenMethods c hidden) 1 2 :=
    respectsGraph_of_overrides nofun nofun nofun nofun hacc
  obtain ⟨fuel, b, hrun, hb⟩ := hrespects.decidesEquality
  obtain rfl : b = true := hb.mpr (hiddenGraph_bisimilar hc hlisted)
  exact ⟨fuel, hrun⟩

/-- **Inherited state is compared** for objects of a class exactly if none of its base types declares
a private field, other than delegates and thread ids. -/
theorem comparesInherited_iff (hc : H.kind c = .object) :
    H.ComparesInherited c ↔ H.HidesNothing c := by
  constructor
  · intro hcompares b hb f hf hprivate hcompared
    have hlisted := not_mem_getFields hb hf hprivate
    obtain ⟨fuel, hrun⟩ := hiddenGraph_equals hc hlisted
    have hinstance : f ∈ H.instanceFields c :=
      List.mem_append_right _ (List.mem_flatMap.mpr ⟨b, hb, hf⟩)
    exact hiddenGraph_differ (hcompares _ _ _ _ (H.hiddenGraph c f) (H.hiddenMethods c f) 1 2 fuel
      inferInstance rfl (isFaithful_of_overrides nofun _) rfl rfl hrun f hinstance hcompared)
  · exact fun h => h.comparesInherited hc

end Hidden

/-! ### A class with a delegate and a class with a secret -/

/-- `class B { private Action handler; public object value; } class D : B { private object own; }` -/
def openHierarchy : ClassHierarchy Bool (Fin 3) where
  kind _ := .object
  baseType derived := if derived then some false else none
  depth derived := derived.toNat
  depth_lt := by decide
  declaredFields derived := if derived then [2] else [0, 1]
  declared_once := by decide
  isPrivate f := decide (f ≠ 1)
  name f := if f = 0 then "handler" else if f = 1 then "value" else "own"
  isDelegate f := decide (f = 0)

/-- The derived class hides nothing: the private field of its base is a delegate. -/
theorem comparesInherited_iff_derived :
    (openHierarchy.ComparesInherited true ↔ openHierarchy.HidesNothing true)
      ∧ openHierarchy.baseTypes true = [false] ∧ openHierarchy.HidesNothing true := by
  refine ⟨comparesInherited_iff rfl, rfl, fun b hb f hf hprivate hcompared => ?_⟩
  obtain rfl : b = false := List.mem_singleton.mp hb
  rcases List.mem_pair.mp hf with rfl | rfl
  · cases hcompared.1
  · cases hprivate

/-- `class B { private object secret; public object value; } class D : B { private object own; }` -/
def secretHierarchy : ClassHierarchy Bool (Fin 3) where
  kind _ := .object
  baseType derived := if derived then some false else none
  depth derived := derived.toNat
  depth_lt := by decide
  declaredFields derived := if derived then [2] else [0, 1]
  declared_once := by decide
  isPrivate f := decide (f ≠ 1)
  name f := if f = 0 then "secret" else if f = 1 then "value" else "own"
  isDelegate _ := false

/-- Objects of the derived class are found to be equal though their secrets differ. -/
theorem secret_not_comparesInherited : ¬secretHierarchy.ComparesInherited true
    ∧ ObjectsComparer.equals (secretHierarchy.hiddenMethods true 0) 2 1 2 = some true
    ∧ ¬(secretHierarchy.hiddenGraph true 0).Bisimilar
      ((secretHierarchy.hiddenGraph true 0).getValue 0 1)
      ((secretHierarchy.hiddenGraph true 0).getValue 0 2) := by
  have hrun : ObjectsComparer.equals (secretHierarchy.hiddenMethods true 0) 2 1 2 = some true := by
    decide +kernel
  refine ⟨fun hcompares => ?_, hrun, hiddenGraph_differ⟩
  exact hiddenGraph_differ (hcompares _ _ _ _ (secretHierarchy.hiddenGraph true 0)
    (secretHierarchy.hiddenMethods true 0) 1 2 2 inferInstance rfl (isFaithful_of_overrides nofun _)
    rfl rfl hrun 0 (by decide) (by decide +kernel))

end ClassHierarchy

end TestExecutor
