import Mathlib.Data.List.FinRange
import TestExecutor.Library.BlockCopy

/-!
# Values as bytes

`UnsafeUtils`: objects to bytes and back, in a 64-bit process.

* `Primitive`, `ValueType` — primitive types, constructed generic value types with their layout, and
  `Nullable` of one;
* `ValueType.Value` — their values;
* `Marshalling` — the types that are left to the marshaller of the runtime;
* `objectToBytes`, `bytesToObject` — the two directions;
* `valueToBytes`, `bytesToValue` — with the loops over the fields of generic value types.
-/

namespace TestExecutor

open TestExecutor.Library

/-! ### Types and values -/

inductive Primitive
  | bool
  | byte
  | sbyte
  | short
  | ushort
  | int
  | uint
  | long
  | ulong
  | float
  | double
  | char
  | intPtr
  | uintPtr
  deriving DecidableEq, Repr

/-- `nativeSize`. -/
def nativeSize : ℕ := 8

namespace Primitive

/-- `internalSizeOf`. -/
def size : Primitive → ℕ
  | bool | byte | sbyte => 1
  | short | ushort | char => 2
  | int | uint | float => 4
  | long | ulong | double => 8
  | intPtr | uintPtr => nativeSize

/-- How many values there are. -/
def bound (p : Primitive) : ℕ := if p = bool then 2 else 256 ^ p.size

theorem bound_le (p : Primitive) : p.bound ≤ 256 ^ p.size := by cases p <;> decide

theorem size_pos (p : Primitive) : 0 < p.size := by cases p <;> decide

theorem bound_pos (p : Primitive) : 0 < p.bound := by cases p <;> decide

/-- Has a case of its own in `ObjectToBytes`. -/
def IsDirect (p : Primitive) : Prop := p ≠ bool ∧ p ≠ intPtr ∧ p ≠ uintPtr

instance : DecidablePred IsDirect := fun p => by
  unfold IsDirect
  infer_instance

end Primitive

/-- A value by its bits. -/
structure PrimitiveValue (p : Primitive) where
  bits : ℕ
  lt : bits < p.bound

theorem PrimitiveValue.ext_bits {p : Primitive} {v w : PrimitiveValue p} (h : v.bits = w.bits) :
    v = w := by
  cases v
  cases w
  cases h
  rfl

structure InstanceField where
  isPublic : Bool
  offset : ℕ

/-- A public static field; those of other types than primitive ones are left out. -/
structure StaticField where
  type : Primitive
  value : PrimitiveValue type
  isLiteral : Bool
  offset : ℕ

/-- Primitive types, constructed generic structs, and `Nullable` of one of these. -/
inductive ValueType
  | primitive (p : Primitive)
  | generic (size n : ℕ) (field : Fin n → InstanceField) (fieldType : Fin n → ValueType)
      (statics : List StaticField)
  | nullable (size valueOffset : ℕ) (underlying : ValueType)

namespace ValueType

/-- `internalSizeOf`. -/
def size : ValueType → ℕ
  | primitive p => p.size
  | generic size _ _ _ _ => size
  | nullable size _ _ => size

def Value : ValueType → Type
  | primitive p => PrimitiveValue p
  | generic _ n _ fieldType _ => (i : Fin n) → (fieldType i).Value
  | nullable _ _ underlying => Option underlying.Value

/-- `default(T)`. -/
def defaultValue : (t : ValueType) → t.Value
  | primitive p => (⟨0, p.bound_pos⟩ : PrimitiveValue p)
  | generic _ _ _ fieldType _ => fun i => (fieldType i).defaultValue
  | nullable _ _ _ => none

end ValueType

/-- The exceptions of `UnsafeUtils` and of what it calls. -/
inductive UnsafeException
  | net (e : NetException)
  | indexOutOfRange
  | marshalling
  /-- `GetValue` of an object that does not have the field. -/
  | wrongTarget
  | constField
  | unexpectedObject
  | unexpectedFieldCount (count : ℕ)
  | unexpectedType
  deriving DecidableEq, Repr

/-- What is left to the runtime: the layout of structs and enums that are not generic, with `S` for
their values, `T` for their types, and that of the primitive types that have no case of their own; and
`Activator.CreateInstance`, which runs a constructor without parameters if the type has one. -/
structure Marshalling (S T : Type) where
  sizeOf : T → ℕ
  toBytes : S → Except UnsafeException (List UInt8)
  primitiveToBytes : (p : Primitive) → PrimitiveValue p → Except UnsafeException (List UInt8)
  toStructure : T → List UInt8 → Except UnsafeException S
  createInstance : (t : ValueType) → t.Value

variable {S T : Type} (rt : Marshalling S T)

/-! ### Primitive values -/

/-- `BitConverter.GetBytes`, or the marshaller. -/
def primitiveToBytes (p : Primitive) (v : PrimitiveValue p) : Except UnsafeException (List UInt8) :=
  if p.IsDirect then .ok (leBytes p.size v.bits) else rt.primitiveToBytes p v

/-- What comes from `BitConverter` when there are not enough bytes, or from `span[0]`. -/
def tooShort : Primitive → UnsafeException
  | .byte | .sbyte => .indexOutOfRange
  | _ => .net .argumentOutOfRange

/-- `span[0]`, or `BitConverter.ToInt16` and so on; any number but zero is true. -/
def bytesToPrimitive (p : Primitive) (bytes : List UInt8) : Except UnsafeException (PrimitiveValue p) :=
  if bytes.length < p.size then .error (tooShort p)
  else .ok ⟨if p = .bool then min 1 (leNat (bytes.take p.size)) else leNat (bytes.take p.size), by
    have hlt := leNat_lt (bytes.take p.size)
    have hpow : 256 ^ (bytes.take p.size).length ≤ 256 ^ p.size :=
      Nat.pow_le_pow_right (by decide) (List.length_take_le p.size bytes)
    unfold Primitive.bound
    split
    · exact lt_of_le_of_lt (min_le_left _ _) (by decide)
    · exact lt_of_lt_of_le hlt hpow⟩

/-- The bytes of a value make the value. -/
theorem bytesToPrimitive_leBytes {p : Primitive} (v : PrimitiveValue p) :
    bytesToPrimitive p (leBytes p.size v.bits) = .ok v := by
  have hlt := v.lt
  have htake : leNat ((leBytes p.size v.bits).take p.size) = v.bits := by
    rw [List.take_of_length_le (le_of_eq (leBytes_length _ _)),
      leNat_leBytes_of_lt (lt_of_lt_of_le hlt p.bound_le)]
  rw [bytesToPrimitive, if_neg (by rw [leBytes_length]; exact lt_irrefl _)]
  refine congrArg Except.ok (PrimitiveValue.ext_bits ?_)
  show (if p = .bool then _ else _) = v.bits
  rw [htake]
  split
  · rename_i hbool
    rw [Primitive.bound, if_pos hbool] at hlt
    omega
  · rfl

/-! ### Generic value types -/

/-- `bytes[start..stop]`. -/
def subArray (bytes : List UInt8) (start stop : ℤ) : Except UnsafeException (List UInt8) :=
  if 0 ≤ start ∧ start ≤ stop ∧ stop ≤ bytes.length then
    .ok ((bytes.drop start.toNat).take (stop - start).toNat)
  else .error (.net .argumentOutOfRange)

/-- `Array.Copy` of all of the bytes of a field. -/
def copyField (fieldBytes array : List UInt8) (offset : ℕ) : Except UnsafeException (List UInt8) :=
  (arrayCopy fieldBytes 0 array offset fieldBytes.length).mapError .net

/-- `LayoutUtils.GetFieldOffset`. -/
def StaticField.getFieldOffset (f : StaticField) : Except UnsafeException ℕ :=
  if f.isLiteral then .error .constField else .ok f.offset

/-- The instance fields that `GetFields()` lists, which come before the static ones. -/
def publicFields {n : ℕ} (field : Fin n → InstanceField) : List (Fin n) :=
  (List.finRange n).filter fun i => (field i).isPublic

/-- What the value of a field is asked of: a struct, or an object of another type. -/
inductive FieldTarget {n : ℕ} (fieldType : Fin n → ValueType)
  | struct (v : (i : Fin n) → (fieldType i).Value)
  | other

/-- `field.GetValue(target)`. -/
def FieldTarget.getValue {n : ℕ} {fieldType : Fin n → ValueType} (i : Fin n) :
    FieldTarget fieldType → Except UnsafeException (fieldType i).Value
  | struct v => .ok (v i)
  | other => .error .wrongTarget

/-- The loop of `StructToBytes` over static fields. -/
def staticsToBytes (array : List UInt8) (statics : List StaticField) :
    Except UnsafeException (List UInt8) :=
  statics.foldlM (fun array f => do
    let fieldBytes ← primitiveToBytes rt f.type f.value
    let offset ← f.getFieldOffset
    copyField fieldBytes array offset) array

/-- `ObjectToBytes` of a boxed value, and `StructToBytes` of a generic one.  There, the value of a
field is asked of the type of the struct, and not of the struct. -/
def valueToBytes : (t : ValueType) → t.Value → Except UnsafeException (List UInt8)
  | .primitive p, v => primitiveToBytes rt p v
  | .generic size _ field fieldType statics, _ => do
      let array ← (publicFields field).foldlM (fun array i => do
        let value ← (FieldTarget.other : FieldTarget fieldType).getValue i
        let fieldBytes ← valueToBytes (fieldType i) value
        copyField fieldBytes array (field i).offset) (List.replicate size 0)
      staticsToBytes rt array statics
  | .nullable _ _ underlying, v =>
      match v with
      | none => .ok (List.replicate nativeSize 0)
      | some v => valueToBytes underlying v

/-- What `BytesToObject` returns for a value type: a value, or the number zero. -/
inductive DecodedValue (t : ValueType)
  | boxed (v : t.Value)
  | zero

/-- The value that a field of this type gets from `SetValue`. -/
def DecodedValue.unbox : {t : ValueType} → DecodedValue t → Except UnsafeException t.Value
  | _, boxed v => .ok v
  | .nullable _ _ (.primitive .int), zero => .ok (some (⟨0, by decide⟩ : PrimitiveValue .int))
  | _, zero => .error (.net .argument)

/-- The fields of `Nullable`: `hasValue`, which is private, and `value`, which is internal. -/
def nullableFields (valueOffset : ℕ) (i : Fin 2) : InstanceField :=
  if i = 0 then ⟨false, 0⟩ else ⟨false, valueOffset⟩

/-- The loop of `BytesToStruct` over static fields, which does not change the object. -/
def bytesToStatics (bytes : List UInt8) : List StaticField → Except UnsafeException Unit
  | [] => pure ()
  | f :: statics => do
      let offset ← f.getFieldOffset
      let fieldBytes ← subArray bytes offset (offset + f.type.size - 1)
      let _ ← bytesToPrimitive f.type fieldBytes
      bytesToStatics bytes statics

/-- `BytesToObject` for these types, with `BytesToStruct` and `BytesToNullable`. -/
def bytesToValue : (t : ValueType) → List UInt8 → Except UnsafeException (DecodedValue t)
  | .primitive p, bytes => (bytesToPrimitive p bytes).map .boxed
  | .generic size n field fieldType statics, bytes => do
      let obj ← (publicFields field).foldlM (fun obj i => do
        let offset := (field i).offset
        let fieldBytes ← subArray bytes offset (offset + (fieldType i).size - 1)
        let value ← bytesToValue (fieldType i) fieldBytes
        let value ← value.unbox
        pure (Function.update obj i value))
        (rt.createInstance (.generic size n field fieldType statics) : (i : Fin n) → _)
      bytesToStatics bytes statics
      pure (.boxed obj)
  | .nullable size valueOffset underlying, bytes => do
      let fields := publicFields (nullableFields valueOffset)
      if fields.length ≠ 2 then throw (.unexpectedFieldCount fields.length)
      let hasValueOffset := (nullableFields valueOffset 0).offset
      let hasValueBytes ← subArray bytes hasValueOffset (hasValueOffset + size - 1)
      let hasValue ← bytesToPrimitive .bool hasValueBytes
      if hasValue.bits ≠ 0 then
        let valueFieldOffset := (nullableFields valueOffset 1).offset
        let valueBytes ← subArray bytes valueFieldOffset (valueFieldOffset + underlying.size - 1)
        let value ← bytesToValue underlying valueBytes
        match value with
        | .boxed v => pure (.boxed (some v))
        | .zero => pure .zero
      else pure .zero

/-! ### Objects -/

/-- Null, boxed values, structs and enums of types that are not generic, pointers and the rest. -/
inductive Obj (S : Type)
  | null
  | boxed (t : ValueType) (v : t.Value)
  | struct (s : S)
  | pointer (address : PrimitiveValue .intPtr)
  | other

/-- The types of objects. -/
inductive ObjType (T : Type)
  | value (t : ValueType)
  | enum (underlying : Primitive)
  | struct (t : T)
  | pointer
  | reference

/-- `internalSizeOf`. -/
def internalSizeOf : ObjType T → ℕ
  | .value t => t.size
  | .enum underlying => underlying.size
  | .struct t => rt.sizeOf t
  | .pointer | .reference => nativeSize

/-- `ObjectToBytes`. -/
def objectToBytes : Obj S → Except UnsafeException (List UInt8)
  | .null => .ok (List.replicate nativeSize 0)
  | .boxed t v => valueToBytes rt t v
  | .struct s => rt.toBytes s
  | .pointer _ | .other => .error .unexpectedObject

/-- A box; `Nullable` has none of its own. -/
def box : (t : ValueType) → t.Value → Obj S
  | .primitive p, v => .boxed (.primitive p) v
  | .generic size n field fieldType statics, v => .boxed (.generic size n field fieldType statics) v
  | .nullable _ _ underlying, v =>
      match v with
      | none => .null
      | some v => box underlying v

def DecodedValue.toObj : {t : ValueType} → DecodedValue t → Obj S
  | t, boxed v => box t v
  | _, zero => .boxed (.primitive .int) (⟨0, by decide⟩ : PrimitiveValue .int)

/-- `BytesToObject`. -/
def bytesToObject (bytes : List UInt8) : ObjType T → Except UnsafeException (Obj S)
  | .value t => (bytesToValue rt t bytes).map DecodedValue.toObj
  | .enum underlying => (bytesToValue rt (.primitive underlying) bytes).map DecodedValue.toObj
  | .struct t => (rt.toStructure t bytes).map .struct
  | .pointer => (bytesToPrimitive .intPtr bytes).map .pointer
  | .reference => if bytes.all fun b => b = 0 then .ok .null else .error .unexpectedType

/-- No type that is not generic. -/
def noMarshalling : Marshalling Empty Empty where
  sizeOf _ := 0
  toBytes s := s.elim
  primitiveToBytes _ _ := .error .marshalling
  toStructure t := t.elim
  createInstance t := t.defaultValue

end TestExecutor
