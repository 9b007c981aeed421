import Mathlib.Algebra.GroupWithZero.Nat
import Mathlib.Data.List.Infix
import TestExecutor.Library.Bisimulation
import TestExecutor.Library.Forall2

/-!
# Object graphs

What the comparison of results reads of the heap, and when two objects are alike.

* `TypeKind`, `TypeInfo` — what reflection tells about types and fields;
* `ArrayObject` — arrays of any rank and bounds;
* `ObjectGraph` — null, primitives, strings, enums, arrays, objects and structs, which may be boxed
  or stored in place, with any sharing and cycles;
* `Matches`, `matching` — what two nodes must have in common;
* `ObjectGraph.Bisimilar` — graphs that nothing tells apart.
-/

namespace TestExecutor

open TestExecutor.Library

/-- Kinds of types, as the comparison tells them apart. -/
inductive TypeKind
  | primitive
  | pointer
  | string
  | enum
  | array
  | object
  | struct
  deriving DecidableEq, Repr

namespace TypeKind

/-- `type.IsPrimitive || type == typeof(Pointer) || type == typeof(string) || type.IsEnum`. -/
def IsAtom (k : TypeKind) : Prop := k = primitive ∨ k = pointer ∨ k = string ∨ k = enum

instance (k : TypeKind) : Decidable k.IsAtom := by unfold IsAtom; infer_instance

def IsValueType (k : TypeKind) : Prop := k = primitive ∨ k = enum ∨ k = struct

/-- An object with fields. -/
def HasFields (k : TypeKind) : Prop := k = object ∨ k = struct

/-- Every kind is compared in one of three ways. -/
theorem cases (k : TypeKind) : k.IsAtom ∨ k = array ∨ k.HasFields := by
  cases k <;> simp [IsAtom, HasFields]

theorem not_isAtom_array : ¬array.IsAtom := by decide

theorem HasFields.not_isAtom {k : TypeKind} (h : k.HasFields) : ¬k.IsAtom := by
  rcases h with rfl | rfl <;> decide

theorem HasFields.ne_array {k : TypeKind} (h : k.HasFields) : k ≠ array := by
  rcases h with rfl | rfl <;> decide

end TypeKind

/-- `s.Contains(pattern, StringComparison.OrdinalIgnoreCase)` for a pattern in lower case. -/
def ContainsIgnoreCase (s pattern : String) : Prop := pattern.toList <:+: s.toLower.toList

instance (s pattern : String) : Decidable (ContainsIgnoreCase s pattern) := by
  unfold ContainsIgnoreCase
  infer_instance

/-- Reflection: `GetFields` for public and private instance fields, and for a field its name and
whether its type is one of delegates. -/
structure TypeInfo (T F : Type) where
  kind : T → TypeKind
  getFields : T → List F
  name : F → String
  isDelegate : F → Bool

/-- The fields that are compared. -/
def TypeInfo.IsCompared {T F : Type} (info : TypeInfo T F) (f : F) : Prop :=
  info.isDelegate f = false ∧ ¬ContainsIgnoreCase (info.name f) "threadid"

instance {T F : Type} (info : TypeInfo T F) : DecidablePred info.IsCompared := fun f => by
  unfold TypeInfo.IsCompared
  infer_instance

/-- An array: length and lower bound of each dimension, and the elements in the order in which they
are enumerated. -/
structure ArrayObject (N : Type) where
  dimensions : List (ℕ × ℤ)
  elements : List N
  size : elements.length = (dimensions.map Prod.fst).prod

/-- A heap with the values that its fields and array elements hold.  A node without a type is null;
a node that is stored in place gets a new box each time it is read. -/
structure ObjectGraph (N T F P : Type) extends TypeInfo T F where
  getType : N → Option T
  payload : N → P
  array : N → ArrayObject N
  getValue : F → N → N
  inPlace : N → Bool
  inPlace_valueType : ∀ n t, inPlace n = true → getType n = some t → (kind t).IsValueType

namespace ObjectGraph

variable {N T F P : Type} (G : ObjectGraph N T F P)

/-- `ReferenceEquals`. -/
def ReferenceEquals (x y : N) : Prop := x = y ∧ G.inPlace x = false

instance [DecidableEq N] (x y : N) : Decidable (G.ReferenceEquals x y) := by
  unfold ReferenceEquals
  infer_instance

/-- The values of the compared fields of two objects. -/
def fieldPairs (t : T) (x y : N) : List (N × N) :=
  ((G.getFields t).filter fun f => G.IsCompared f).map fun f => (G.getValue f x, G.getValue f y)

theorem mem_fieldPairs {t : T} {x y : N} {p : N × N} : p ∈ G.fieldPairs t x y
    ↔ ∃ f ∈ G.getFields t, G.IsCompared f ∧ (G.getValue f x, G.getValue f y) = p := by
  unfold fieldPairs
  simp only [List.mem_map, List.mem_filter, decide_eq_true_eq, and_assoc]

/-! ### Bisimilar nodes -/

/-- Both null, or the same object, or equal values of one type, or arrays of one type, lengths and
lower bounds with related elements, or objects of one type with related values in every field that
is compared. -/
inductive Matches (R : N → N → Prop) (x y : N) : Prop
  | null (hx : G.getType x = none) (hy : G.getType y = none)
  | same (h : G.ReferenceEquals x y)
  | atom {t : T} (hx : G.getType x = some t) (hy : G.getType y = some t) (ht : (G.kind t).IsAtom)
      (h : G.payload x = G.payload y)
  | array {t : T} (hx : G.getType x = some t) (hy : G.getType y = some t)
      (ht : G.kind t = .array) (hdims : (G.array x).dimensions = (G.array y).dimensions)
      (h : List.Forall₂ R (G.array x).elements (G.array y).elements)
  | object {t : T} (hx : G.getType x = some t) (hy : G.getType y = some t)
      (ht : (G.kind t).HasFields)
      (h : ∀ f ∈ G.getFields t, G.IsCompared f → R (G.getValue f x) (G.getValue f y))

variable {G}

theorem Matches.mono {R S : N → N → Prop} (hRS : ∀ a b, R a b → S a b) {x y : N}
    (h : G.Matches R x y) : G.Matches S x y := by
  cases h with
  | null hx hy => exact .null hx hy
  | same h => exact .same h
  | atom hx hy ht h => exact .atom hx hy ht h
  | array hx hy ht hdims h => exact .array hx hy ht hdims (h.imp hRS)
  | object hx hy ht h => exact .object hx hy ht fun f hf hc => hRS _ _ (h f hf hc)

theorem Matches.refl {R : N → N → Prop} (hR : ∀ a, R a a) (x : N) : G.Matches R x x := by
  cases hx : G.getType x with
  | none => exact .null hx hx
  | some t =>
      rcases (G.kind t).cases with ht | ht | ht
      · exact .atom hx hx ht rfl
      · exact .array hx hx ht rfl (List.forall₂_same.mpr fun a _ => hR a)
      · exact .object hx hx ht fun f _ _ => hR _

theorem Matches.symm {R : N → N → Prop} {x y : N} (h : G.Matches R x y) :
    G.Matches (fun a b => R b a) y x := by
  cases h with
  | null hx hy => exact .null hy hx
  | same h =>
      obtain ⟨rfl, hplace⟩ := h
      exact .same ⟨rfl, hplace⟩
  | atom hx hy ht h => exact .atom hy hx ht h.symm
  | array hx hy ht hdims h => exact .array hy hx ht hdims.symm h.flip
  | object hx hy ht h => exact .object hy hx ht h

/-- Nodes that match have the same type. -/
theorem Matches.getType_eq {R : N → N → Prop} {x y : N} (h : G.Matches R x y) :
    G.getType x = G.getType y := by
  cases h with
  | null hx hy => rw [hx, hy]
  | same h => rw [h.1]
  | atom hx hy _ _ => rw [hx, hy]
  | array hx hy _ _ _ => rw [hx, hy]
  | object hx hy _ _ => rw [hx, hy]

section Inversion

variable {R : N → N → Prop} (hR : ∀ a, R a a) {x y : N} {t : T} (hx : G.getType x = some t)
  (h : G.Matches R x y)

include hR hx h

omit hR in
theorem Matches.payload_eq (ht : (G.kind t).IsAtom) : G.payload x = G.payload y := by
  cases h with
  | null hx' _ => rw [hx] at hx'; cases hx'
  | same h => rw [h.1]
  | atom _ _ _ h => exact h
  | array hx' _ ht' _ _ =>
      obtain rfl := Option.some.inj (hx.symm.trans hx')
      rw [ht'] at ht
      exact absurd ht TypeKind.not_isAtom_array
  | object hx' _ ht' _ =>
      obtain rfl := Option.some.inj (hx.symm.trans hx')
      exact absurd ht ht'.not_isAtom

theorem Matches.array_eq (ht : G.kind t = .array) :
    (G.array x).dimensions = (G.array y).dimensions
      ∧ List.Forall₂ R (G.array x).elements (G.array y).elements := by
  cases h with
  | null hx' _ => rw [hx] at hx'; cases hx'
  | same h =>
      obtain ⟨rfl, -⟩ := h
      exact ⟨rfl, List.forall₂_same.mpr fun a _ => hR a⟩
  | atom hx' _ ht' _ =>
      obtain rfl := Option.some.inj (hx.symm.trans hx')
      rw [ht] at ht'
      exact absurd ht' TypeKind.not_isAtom_array
  | array _ _ _ hdims h => exact ⟨hdims, h⟩
  | object hx' _ ht' _ =>
      obtain rfl := Option.some.inj (hx.symm.trans hx')
      exact absurd ht ht'.ne_array

theorem Matches.field (ht : (G.kind t).HasFields) {f : F} (hf : f ∈ G.getFields t)
    (hc : G.IsCompared f) : R (G.getValue f x) (G.getValue f y) := by
  cases h with
  | null hx' _ => rw [hx] at hx'; cases hx'
  | same h =>
      obtain ⟨rfl, -⟩ := h
      exact hR _
  | atom hx' _ ht' _ =>
      obtain rfl := Option.some.inj (hx.symm.trans hx')
      exact absurd ht' ht.not_isAtom
  | array hx' _ ht' _ _ =>
      obtain rfl := Option.some.inj (hx.symm.trans hx')
      exact absurd ht' ht.ne_array
  | object hx' _ _ h =>
      obtain rfl := Option.some.inj (hx.symm.trans hx')
      exact h f hf hc

end Inversion

/-- Matching composes, if equal nodes are related. -/
theorem Matches.trans {R S : N → N → Prop} (hR : ∀ a, R a a) (hS : ∀ a, S a a) {x y z : N}
    (h : G.Matches R x y) (h' : G.Matches S y z) :
    G.Matches (fun a c => ∃ b, R a b ∧ S b c) x z := by
  cases h with
  | null hx hy =>
      have hz : G.getType z = none := by rw [← h'.getType_eq, hy]
      exact .null hx hz
  | same h =>
      obtain ⟨rfl, -⟩ := h
      exact h'.mono fun a c hac => ⟨a, hR a, hac⟩
  | @atom t hx hy ht h =>
      have hz : G.getType z = some t := by rw [← h'.getType_eq, hy]
      exact .atom hx hz ht (h.trans (h'.payload_eq hy ht))
  | @array t hx hy ht hdims h =>
      have hz : G.getType z = some t := by rw [← h'.getType_eq, hy]
      obtain ⟨hdims', h'⟩ := h'.array_eq hS hy ht
      exact .array hx hz ht (hdims.trans hdims') (forall₂_comp h h')
  | @object t hx hy ht h =>
      have hz : G.getType z = some t := by rw [← h'.getType_eq, hy]
      exact .object hx hz ht fun f hf hc => ⟨_, h f hf hc, h'.field hS hy ht hf hc⟩

variable (G)

/-- Object graphs as states whose successors are what they refer to. -/
def matching : Matching N where
  next := ⟨G.Matches, fun _ _ hRS _ _ h => h.mono hRS⟩
  refl _ hR x := Matches.refl hR x
  symm _ _ _ h := h.symm
  trans _ _ hR hS _ _ _ h h' := h.trans hR hS h'

/-- **Bisimilar nodes**: some relation holds between them, and related nodes match. -/
def Bisimilar (x y : N) : Prop := ∃ R : N → N → Prop, (∀ a b, R a b → G.Matches R a b) ∧ R x y

theorem bisimilar_iff {x y : N} : G.Bisimilar x y ↔ G.matching.Bisimilar x y := Iff.rfl

variable {G}

theorem Bisimilar.matches {x y : N} (h : G.Bisimilar x y) : G.Matches G.Bisimilar x y :=
  Matching.Bisimilar.next (G.bisimilar_iff.mp h)

theorem Bisimilar.of_matches {x y : N} (h : G.Matches G.Bisimilar x y) : G.Bisimilar x y :=
  G.bisimilar_iff.mpr (Matching.Bisimilar.of_next h)

theorem Bisimilar.refl (x : N) : G.Bisimilar x x := Matching.Bisimilar.refl G.matching x

theorem Bisimilar.symm {x y : N} (h : G.Bisimilar x y) : G.Bisimilar y x :=
  G.bisimilar_iff.mpr (Matching.Bisimilar.symm (G.bisimilar_iff.mp h))

end ObjectGraph

end TestExecutor
