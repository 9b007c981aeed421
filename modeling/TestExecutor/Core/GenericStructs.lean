import TestExecutor.Core.ValueBytes

/-!
# Generic value types

* `ValueType.WellFormed` — fields that lie inside of their type, apart from each other;
* `ValueType.HasImage` — bytes with the bytes of each field at its offset;
* `RoundTrips` — a value goes to its bytes and back;
* `IsBlank` — a struct without public fields in which everything is zero, as in a new one;
* `roundTrips_iff` — **these are the only values** that do.
-/

namespace TestExecutor

open TestExecutor.Library

namespace ValueType

def IsPrimitive : ValueType → Prop
  | primitive _ => True
  | _ => False

def IsNullable : ValueType → Prop
  | nullable _ _ _ => True
  | _ => False

/-- The instance fields lie inside of the type and do not overlap; nothing is `Nullable` twice. -/
def WellFormed : ValueType → Prop
  | primitive _ => True
  | generic size _ field fieldType _ =>
      (∀ i, (field i).offset + (fieldType i).size ≤ size)
        ∧ (∀ i j, i ≠ j → (field i).offset + (fieldType i).size ≤ (field j).offset
          ∨ (field j).offset + (fieldType j).size ≤ (field i).offset)
        ∧ ∀ i, (fieldType i).WellFormed
  | nullable size valueOffset underlying =>
      1 ≤ valueOffset ∧ valueOffset + underlying.size ≤ size ∧ ¬underlying.IsNullable
        ∧ underlying.WellFormed

/-- As many bytes as the type has, and those of each field at its offset; an empty `Nullable` has
`hasValue = false` and the default value. -/
def HasImage : (t : ValueType) → t.Value → List UInt8 → Prop
  | primitive p, v, bytes => bytes = leBytes p.size (show PrimitiveValue p from v).bits
  | generic size n field fieldType _, v, bytes => bytes.length = size
      ∧ ∀ i : Fin n, (fieldType i).HasImage (v i)
        ((bytes.drop (field i).offset).take (fieldType i).size)
  | nullable size valueOffset underlying, v, bytes => bytes.length = size
      ∧ match v with
        | none => bytes[0]? = some 0 ∧ underlying.HasImage underlying.defaultValue
            ((bytes.drop valueOffset).take underlying.size)
        | some v => bytes[0]? = some 1 ∧ underlying.HasImage v
            ((bytes.drop valueOffset).take underlying.size)

theorem take_drop_zeros {offset size n : ℕ} (h : offset + size ≤ n) :
    ((List.replicate n (0 : UInt8)).drop offset).take size = List.replicate size 0 := by
  rw [List.drop_replicate, List.take_replicate, Nat.min_eq_left (by omega)]

/-- Default values have zero bytes. -/
theorem hasImage_defaultValue {t : ValueType} (h : t.WellFormed) :
    t.HasImage t.defaultValue (List.replicate t.size 0) := by
  induction t with
  | primitive p => exact (leBytes_zero p.size).symm
  | generic size n field fieldType statics ih =>
      obtain ⟨hinside, -, hfields⟩ := h
      refine ⟨List.length_replicate, fun i => ?_⟩
      show (fieldType i).HasImage _ (((List.replicate size 0).drop _).take _)
      rw [take_drop_zeros (hinside i)]
      exact ih i (hfields i)
  | nullable size valueOffset underlying ih =>
      obtain ⟨hpos, hinside, -, hunderlying⟩ := h
      refine ⟨List.length_replicate, ?_, ?_⟩
      · show (List.replicate size (0 : UInt8))[0]? = some 0
        rw [List.getElem?_replicate, if_pos (by omega)]
      · show underlying.HasImage _ (((List.replicate size 0).drop _).take _)
        rw [take_drop_zeros hinside]
        exact ih hunderlying

theorem leBytes_eq_zeros {p : Primitive} {v : PrimitiveValue p}
    (h : List.replicate p.size 0 = leBytes p.size v.bits) : v = ⟨0, p.bound_pos⟩ := by
  have hlt : v.bits < 256 ^ p.size := lt_of_lt_of_le v.lt p.bound_le
  have hbits : leNat (leBytes p.size v.bits) = leNat (leBytes p.size 0) := by
    rw [leBytes_zero, ← h]
  rw [leNat_leBytes_of_lt hlt, leNat_leBytes, Nat.zero_mod] at hbits
  exact PrimitiveValue.ext_bits hbits

/-- Only they have. -/
theorem eq_defaultValue_of_hasImage {t : ValueType} (h : t.WellFormed) {v : t.Value}
    (himage : t.HasImage v (List.replicate t.size 0)) : v = t.defaultValue := by
  induction t with
  | primitive p => exact leBytes_eq_zeros himage
  | generic size n field fieldType statics ih =>
      obtain ⟨hinside, -, hfields⟩ := h
      funext i
      have hi := himage.2 i
      rw [show (ValueType.generic size n field fieldType statics).size = size from rfl,
        take_drop_zeros (hinside i)] at hi
      exact ih i (hfields i) hi
  | nullable size valueOffset underlying ih =>
      cases v with
      | none => rfl
      | some v =>
          obtain ⟨hpos, hinside, -, -⟩ := h
          have hsome : (List.replicate size (0 : UInt8))[0]? = some 1 := himage.2.1
          rw [List.getElem?_replicate, if_pos (by omega)] at hsome
          cases hsome

end ValueType

variable {S T : Type} (rt : Marshalling S T)

/-- A struct, not `Nullable`, that has no public field, with zero in all fields, where a new struct
has zero in all fields as well. -/
def IsBlank : (t : ValueType) → t.Value → Prop
  | .generic size n field fieldType statics, v => (∀ i, (field i).isPublic = false) ∧ statics = []
      ∧ v = (ValueType.generic size n field fieldType statics).defaultValue
      ∧ rt.createInstance (.generic size n field fieldType statics) = v
  | _, _ => False

/-- **To bytes and back**: the bytes are those of the fields at their offsets, and what is made from
them is the same value. -/
def RoundTrips (t : ValueType) (v : t.Value) : Prop :=
  ∃ bytes, objectToBytes rt (box t v) = .ok bytes ∧ t.HasImage v bytes
    ∧ bytesToObject rt bytes (.value t) = .ok (box t v)

/-! ### What fails -/

variable {n : ℕ} {field : Fin n → InstanceField} {fieldType : Fin n → ValueType}
  {statics : List StaticField} {size : ℕ}

/-- Public instance fields cannot be read, since their values are asked of the type. -/
theorem valueToBytes_public {i : Fin n} (hi : (field i).isPublic = true)
    (v : (ValueType.generic size n field fieldType statics).Value) :
    valueToBytes rt (.generic size n field fieldType statics) v = .error .wrongTarget := by
  have hmem : i ∈ publicFields field := List.mem_filter.mpr ⟨List.mem_finRange i, hi⟩
  rw [valueToBytes]
  cases hfields : publicFields field with
  | nil => rw [hfields] at hmem; cases hmem
  | cons j rest => rfl

/-- Bytes up to the last one are not enough for a primitive value. -/
theorem bytesToPrimitive_short {p : Primitive} {bytes fieldBytes : List UInt8} {offset : ℕ}
    (h : subArray bytes offset (offset + p.size - 1) = .ok fieldBytes) :
    bytesToPrimitive p fieldBytes = .error (tooShort p) := by
  unfold subArray at h
  split at h
  · obtain rfl := Except.ok.inj h
    have hpos := p.size_pos
    refine if_pos ?_
    rw [List.length_take]
    omega
  · cases h

theorem bytesToStatics_cons (bytes : List UInt8) (f : StaticField) (statics : List StaticField) :
    ∃ e, bytesToStatics bytes (f :: statics) = .error e := by
  show ∃ e, (f.getFieldOffset >>= _) = Except.error e
  cases hoffset : f.getFieldOffset with
  | error e => exact ⟨e, rfl⟩
  | ok offset =>
      show ∃ e, (subArray bytes offset (offset + f.type.size - 1) >>= _) = Except.error e
      cases hbytes : subArray bytes offset (offset + f.type.size - 1) with
      | error e => exact ⟨e, rfl⟩
      | ok fieldBytes =>
          show ∃ e, (bytesToPrimitive f.type fieldBytes >>= _) = Except.error e
          rw [bytesToPrimitive_short hbytes]
          exact ⟨tooShort f.type, rfl⟩

/-- `GetFields()` finds no field of `Nullable`. -/
theorem bytesToValue_nullable (bytes : List UInt8) (size valueOffset : ℕ) (underlying : ValueType) :
    bytesToValue rt (.nullable size valueOffset underlying) bytes
      = .error (.unexpectedFieldCount 0) := rfl

/-! ### What is left -/

theorem publicFields_eq_nil (h : ∀ i, (field i).isPublic = false) : publicFields field = [] := by
  refine List.filter_eq_nil_iff.mpr fun i _ => ?_
  rw [h i]
  decide

theorem valueToBytes_private (h : ∀ i, (field i).isPublic = false)
    (v : (ValueType.generic size n field fieldType []).Value) :
    valueToBytes rt (.generic size n field fieldType []) v = .ok (List.replicate size 0) := by
  rw [valueToBytes, publicFields_eq_nil h]
  rfl

/-- Without public fields, what is made from bytes is a new struct. -/
theorem bytesToValue_private (h : ∀ i, (field i).isPublic = false) (bytes : List UInt8) :
    bytesToValue rt (.generic size n field fieldType []) bytes
      = .ok (.boxed (rt.createInstance (.generic size n field fieldType []))) := by
  rw [bytesToValue, publicFields_eq_nil h]
  rfl

theorem bytesToValue_statics (h : ∀ i, (field i).isPublic = false) (f : StaticField)
    (bytes : List UInt8) :
    ∃ e, bytesToValue rt (.generic size n field fieldType (f :: statics)) bytes = .error e := by
  obtain ⟨e, he⟩ := bytesToStatics_cons bytes f statics
  rw [bytesToValue, publicFields_eq_nil h]
  refine ⟨e, ?_⟩
  show (bytesToStatics bytes (f :: statics) >>= _) = Except.error e
  rw [he]
  rfl

/-- **Values of generic value types** go to their bytes and back exactly if they are blank. -/
theorem roundTrips_iff {t : ValueType} (ht : t.WellFormed) (hgeneric : ¬t.IsPrimitive) (v : t.Value) :
    RoundTrips rt t v ↔ IsBlank rt t v := by
  cases t with
  | primitive p => exact absurd trivial hgeneric
  | nullable size valueOffset underlying =>
      refine iff_of_false (fun h => ?_) id
      obtain ⟨bytes, -, -, hback⟩ := h
      rw [bytesToObject, bytesToValue_nullable] at hback
      cases hback
  | generic size n field fieldType statics =>
      by_cases hpublic : ∃ i, (field i).isPublic = true
      · obtain ⟨i, hi⟩ := hpublic
        refine iff_of_false (fun h => ?_) fun h => ?_
        · obtain ⟨bytes, hbytes, -⟩ := h
          have herror : objectToBytes rt (box (.generic size n field fieldType statics) v)
              = .error .wrongTarget := valueToBytes_public rt hi v
          rw [herror] at hbytes
          cases hbytes
        · have hprivate := h.1 i
          rw [hi] at hprivate
          cases hprivate
      · have hprivate : ∀ i, (field i).isPublic = false := fun i =>
          Bool.not_eq_true _ ▸ not_exists.mp hpublic i
        cases statics with
        | cons f statics =>
            refine iff_of_false (fun h => ?_) fun h => absurd h.2.1 (List.cons_ne_nil f statics)
            obtain ⟨bytes, -, -, hback⟩ := h
            obtain ⟨e, he⟩ : ∃ e, bytesToValue rt (.generic size n field fieldType (f :: statics)) bytes
              = .error e := bytesToValue_statics rt hprivate f bytes
            rw [bytesToObject, he] at hback
            cases hback
        | nil =>
            have hback : ∀ bytes, bytesToObject rt bytes (.value (.generic size n field fieldType []))
                = .ok (.boxed (.generic size n field fieldType [])
                  (rt.createInstance (.generic size n field fieldType []))) := by
              intro bytes
              rw [bytesToObject, bytesToValue_private rt hprivate]
              rfl
            constructor
            · intro h
              obtain ⟨bytes, hbytes, himage, hsame⟩ := h
              have hzeros : bytes = List.replicate size 0 :=
                Except.ok.inj (hbytes.symm.trans (valueToBytes_private rt hprivate v))
              rw [hzeros] at himage
              rw [hback bytes] at hsame
              exact ⟨hprivate, rfl, ValueType.eq_defaultValue_of_hasImage ht himage,
                eq_of_heq (Obj.boxed.inj (Except.ok.inj hsame)).2⟩
            · intro h
              obtain ⟨-, -, hdefault, hcreate⟩ := h
              refine ⟨_, valueToBytes_private rt hprivate v, ?_, ?_⟩
              · rw [hdefault]
                exact ValueType.hasImage_defaultValue ht
              · rw [hback, hcreate]
                rfl

/-! ### A pair and a handle -/

local instance pairType_neZero : NeZero 2 := ⟨by decide⟩

/-- An `int` and a `byte` in eight bytes. -/
def intAndByte (isPublic : Bool) : ValueType :=
  .generic 8 2 (fun i => if i = 0 then ⟨isPublic, 0⟩ else ⟨isPublic, 4⟩)
    (fun i => if i = 0 then .primitive .int else .primitive .byte) []

theorem intAndByte_wellFormed (isPublic : Bool) : (intAndByte isPublic).WellFormed := by
  refine ⟨?_, ?_, fun i => ?_⟩
  · show ∀ i : Fin 2, _
    cases isPublic <;> decide
  · show ∀ i j : Fin 2, _
    cases isPublic <;> decide
  · match i with
    | 0 => trivial
    | 1 => trivial

/-- `struct Pair<T> { public int first; public T second; }` with `byte` for `T`. -/
def pairType : ValueType := intAndByte true

/-- `struct Handle<T> { private int id; private T owner; }` with `byte` for `T`. -/
def handleType : ValueType := intAndByte false

/-- A pair of zeros does not come back, a handle of zeros does. -/
theorem roundTrips_iff_handle :
    (RoundTrips noMarshalling pairType pairType.defaultValue
      ↔ IsBlank noMarshalling pairType pairType.defaultValue)
    ∧ (RoundTrips noMarshalling handleType handleType.defaultValue
      ↔ IsBlank noMarshalling handleType handleType.defaultValue)
    ∧ IsBlank noMarshalling handleType handleType.defaultValue :=
  ⟨roundTrips_iff noMarshalling (intAndByte_wellFormed true) id _,
    roundTrips_iff noMarshalling (intAndByte_wellFormed false) id _,
    (by decide : ∀ i : Fin 2, _), rfl, rfl, rfl⟩

/-- `int?`, empty or not, and a pair of zeros. -/
theorem pair_not_roundTrips :
    objectToBytes noMarshalling (box pairType pairType.defaultValue) = .error .wrongTarget
    ∧ ¬RoundTrips noMarshalling pairType pairType.defaultValue
    ∧ ¬RoundTrips noMarshalling (.nullable 8 4 (.primitive .int)) (none : Option _)
    ∧ ¬RoundTrips noMarshalling (.nullable 8 4 (.primitive .int))
      (some (⟨5, by decide⟩ : PrimitiveValue .int)) := by
  refine ⟨rfl, fun h => ?_, fun h => ?_, fun h => ?_⟩ <;> obtain ⟨bytes, hbytes, -, hback⟩ := h
  · cases hbytes
  · cases hback
  · cases hback

end TestExecutor
