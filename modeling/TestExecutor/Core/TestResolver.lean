import TestExecutor.Core.TypesCache
import TestExecutor.Core.Reinterpret

/-!
# `TestResolver`

The objects of a test are made as its messages mention them: the first mention of an address makes
the object, and all later ones find it under its address.

* `Types`, `Clr` — the types of the runtime, and what is left to it;
* `Kind`, `Place`, `Value`, `Content` — what objects are, where they hold what;
* `Reference`, `Expr`, `Statement`, `IlTest` — the messages;
* `resolveReferenceType`, `instantiateExpression`, `resolveStatement`, `resolve` — the resolver.

Types are those that `ResolveType` would return without its cache; `CachedResolver` carries the cache
along.
-/

namespace TestExecutor.TestResolver

open TestExecutor.Library

/-- Exceptions of the runtime, its types, fields and methods, its structs and their types, and its
objects that no message describes. -/
structure Types where
  Err : Type
  Ty : Type
  Fld : Type
  Mth : Type
  S : Type
  T : Type
  Foreign : Type
  decTy : DecidableEq Ty
  decFld : DecidableEq Fld

attribute [instance] Types.decTy Types.decFld

/-! ### Objects and values -/

/-- Arrays of an element type and of a size, and objects of a type, which is a reference type. -/
inductive Kind (τ : Types)
  | array (elementType : τ.Ty) (size : Int32)
  | object (type : τ.Ty)

/-- The parts of an object. -/
inductive Cell (τ : Types)
  | field (f : τ.Fld)
  | element (index : Int32)
  deriving DecidableEq

/-- Static fields and the parts of objects; `O` names the objects. -/
inductive Place (τ : Types) (O : Type)
  | static (f : τ.Fld)
  | cell (object : O) (c : Cell τ)
  deriving DecidableEq

/-- Null and boxed values, strings, types, and other objects that were there before. -/
inductive Datum (τ : Types)
  | obj (o : Obj τ.S)
  | string (s : String)
  | type (t : τ.Ty)
  | foreign (o : τ.Foreign)

/-- What an expression evaluates to: a datum, or an object with an address. -/
inductive Value (τ : Types) (O : Type)
  | datum (d : Datum τ)
  | ref (object : O)

/-- What a part holds before a test writes it: a datum, or an object that the constructor has made for
this part. -/
inductive Initial (τ : Types)
  | datum (d : Datum τ)
  | inner (k : ℕ)

/-- What a place holds: a value, or one of the objects that the constructor of an object has made. -/
inductive Content (τ : Types) (O : Type)
  | value (v : Value τ O)
  | inner (object : O) (k : ℕ)

def Initial.content {τ : Types} {O : Type} (object : O) : Initial τ → Content τ O
  | datum d => .value (.datum d)
  | inner k => .inner object k

/-- What a value is assigned to: a field, or an element of an array of a type. -/
inductive Slot (τ : Types)
  | field (f : τ.Fld)
  | element (elementType : τ.Ty)

/-- What is left to the runtime. -/
structure Clr (τ : Types) where
  runtime : Runtime τ.Err τ.Ty
  marshalling : Marshalling τ.S τ.T
  objType : τ.Ty → ObjType τ.T
  /-- `Activator.CreateInstance`, with what the parts of the new object hold; a constructor changes
  nothing that was there before. -/
  createInstance : Kind τ → Except τ.Err (Cell τ → Initial τ)
  /-- What static fields hold. -/
  static : τ.Fld → Datum τ
  /-- The static and instance fields, public or not. -/
  getFields : τ.Ty → List τ.Fld
  fieldName : τ.Fld → String
  fieldType : τ.Fld → τ.Ty
  isStatic : τ.Fld → Bool
  /-- What `SetValue` makes of a datum, and whether it takes an object. -/
  convert : Slot τ → Datum τ → Except τ.Err (Datum τ)
  accepts : Slot τ → Kind τ → Except τ.Err Unit
  getMethod : τ.Ty → String → Except τ.Err (Option τ.Mth)

/-! ### Messages -/

structure ArrayInstance where
  elementTypeRepr : TypeRepr
  size : Int32
  address : Int32

structure ObjectInstance where
  typeRepr : TypeRepr
  address : Int32

/-- A mention of an address. -/
inductive Reference
  | array (i : ArrayInstance)
  | object (i : ObjectInstance)

def Reference.address : Reference → Int32
  | array i => i.address
  | object i => i.address

structure FieldRepr where
  typeRepr : TypeRepr
  name : String

/-- Constants; floating-point numbers by their bits. -/
inductive Const
  | bool (value : Bool)
  | char (value : Int32)
  | int8 (value : Int32)
  | int16 (value : Int32)
  | int32 (value : Int32)
  | int64 (value : Int64)
  | uint8 (value : UInt32)
  | uint16 (value : UInt32)
  | uint32 (value : UInt32)
  | uint64 (value : UInt64)
  | float (bits : UInt32)
  | double (bits : UInt64)
  | string (value : String)
  | null

mutual

/-- The messages that are instantiated.  `unexpected` is any other message of the schema, `unknown` one
of a type that is not in the schema. -/
inductive Expr
  | const (c : Const)
  | combine (sightType : TypeRepr) (slices : List SliceMessage)
  | array (i : ArrayInstance)
  | object (i : ObjectInstance)
  | ilType (type : TypeRepr)
  | unexpected
  | unknown (url : String)

inductive SliceMessage
  | mk (expr : Expr) (start stop pos : Int32)

end

inductive Statement
  | setObjectField (instance_ : ObjectInstance) (fieldRepr : FieldRepr) (value : Expr)
  | setArrayIndex (instance_ : ArrayInstance) (index : Int32) (value : Expr)
  | unexpected
  | unknown (url : String)

structure MethodCall where
  declType : TypeRepr
  name : String
  args : List Expr

structure IlTest where
  arrangeStmts : List Statement
  call : MethodCall
  expectedResult : Option Expr

/-- Why a test cannot be resolved. -/
inductive ResolverException (Err : Type)
  | type (e : ResolveException Err)
  | runtime (e : Err)
  | bytes (e : UnsafeException)
  | overflow
  | noDescriptor (url : String)
  | nullReference
  | invalidCast
  | indexOutOfRange
  | targetMismatch

/-! ### The resolver -/

section Resolver

variable {τ : Types} (clr : Clr τ)

/-- `ResolveType`. -/
def resolveType (typeRepr : TypeRepr) : Except (ResolverException τ.Err) τ.Ty :=
  (namedType clr.runtime typeRepr).mapError .type

/-- The kind that a mention names. -/
def Reference.kind : Reference → Except (ResolverException τ.Err) (Kind τ)
  | array i => (resolveType clr i.elementTypeRepr).map fun t => .array t i.size
  | object i => (resolveType clr i.typeRepr).map .object

/-- `ResolveField`; `none` is null. -/
def resolveField (declTypeRepr : TypeRepr) (fieldRepr : FieldRepr) :
    Except (ResolverException τ.Err) (Option τ.Fld) := do
  let declType ← resolveType clr declTypeRepr
  let fieldType ← resolveType clr fieldRepr.typeRepr
  return (clr.getFields declType).find? fun f =>
    clr.fieldType f = fieldType ∧ clr.fieldName f = fieldRepr.name

/-- `ResolveMethod`. -/
def resolveMethod (call : MethodCall) : Except (ResolverException τ.Err) (Option τ.Mth) := do
  let declType ← resolveType clr call.declType
  (clr.getMethod declType call.name).mapError .runtime

/-- A boxed number, cast to the width of its type. -/
def boxed (p : Primitive) (n : ℕ) : Datum τ :=
  .obj (.boxed (.primitive p) (⟨n % p.bound, Nat.mod_lt n p.bound_pos⟩ : PrimitiveValue p))

/-- The cases of constants. -/
def Const.datum : Const → Except (ResolverException τ.Err) (Datum τ)
  | bool value => .ok (boxed .bool value.toNat)
  | char value =>
      if 0 ≤ value ∧ value ≤ 65535 then .ok (boxed .char value.toUInt32.toNat) else .error .overflow
  | int8 value => .ok (boxed .sbyte value.toUInt32.toNat)
  | int16 value => .ok (boxed .short value.toUInt32.toNat)
  | int32 value => .ok (boxed .int value.toUInt32.toNat)
  | int64 value => .ok (boxed .long value.toUInt64.toNat)
  | uint8 value => .ok (boxed .byte value.toNat)
  | uint16 value => .ok (boxed .ushort value.toNat)
  | uint32 value => .ok (boxed .uint value.toNat)
  | uint64 value => .ok (boxed .ulong value.toNat)
  | float bits => .ok (boxed .float bits.toNat)
  | double bits => .ok (boxed .double bits.toNat)
  | string value => .ok (.string value)
  | null => .ok (.obj .null)

/-- The object as `ObjectToBytes` sees it. -/
def Value.toObj {O : Type} : Value τ O → Obj τ.S
  | datum (.obj o) => o
  | _ => .other

/-- `_instances`, the objects that were made, and what all places hold. -/
structure State (τ : Types) where
  instances : Dictionary Int32 ℕ
  objects : List (Kind τ)
  contents : Place τ ℕ → Content τ ℕ

/-- `Activator.CreateInstance` and `_instances.Add`. -/
def State.add (s : State τ) (address : Int32) (kind : Kind τ) (initial : Cell τ → Initial τ) :
    State τ where
  instances := s.instances.set address s.objects.length
  objects := s.objects ++ [kind]
  contents
    | .static f => s.contents (.static f)
    | .cell o c =>
        if o = s.objects.length then (initial c).content o else s.contents (.cell o c)

/-- `ResolveReferenceType`. -/
def resolveReferenceType (s : State τ) (r : Reference) :
    Except (ResolverException τ.Err) (ℕ × State τ) :=
  match s.instances.lookup r.address with
  | some o => .ok (o, s)
  | none => do
      let kind ← r.kind clr
      let initial ← (clr.createInstance kind).mapError .runtime
      return (s.objects.length, s.add r.address kind initial)

mutual

/-- `InstantiateExpression`. -/
def instantiateExpression (s : State τ) : Expr → Except (ResolverException τ.Err) (Value τ ℕ × State τ)
  | .const c => do
      let d ← c.datum
      return (.datum d, s)
  | .combine sightType slices => do
      let type ← resolveType clr sightType
      let (slices, s) ← instantiateSlices s slices
      let o ← (reinterpretCombine clr.marshalling (clr.objType type) slices).mapError .bytes
      return (.datum (.obj o), s)
  | .array i => do
      let (o, s) ← resolveReferenceType clr s (.array i)
      return (.ref o, s)
  | .object i => do
      let (o, s) ← resolveReferenceType clr s (.object i)
      return (.ref o, s)
  | .ilType type => do
      let t ← resolveType clr type
      return (.datum (.type t), s)
  | .unexpected => return (.datum (.obj .null), s)
  | .unknown url => .error (.noDescriptor url)

def instantiateSlice (s : State τ) :
    SliceMessage → Except (ResolverException τ.Err) (Slice τ.S × State τ)
  | .mk expr start stop pos => do
      let (v, s) ← instantiateExpression s expr
      return (⟨v.toObj, start, stop, pos⟩, s)

def instantiateSlices (s : State τ) :
    List SliceMessage → Except (ResolverException τ.Err) (List (Slice τ.S) × State τ)
  | [] => return ([], s)
  | slice :: slices => do
      let (v, s) ← instantiateSlice s slice
      let (vs, s) ← instantiateSlices s slices
      return (v :: vs, s)

end

def instantiateExpressions (s : State τ) :
    List Expr → Except (ResolverException τ.Err) (List (Value τ ℕ) × State τ)
  | [] => return ([], s)
  | e :: es => do
      let (v, s) ← instantiateExpression clr s e
      let (vs, s) ← instantiateExpressions s es
      return (v :: vs, s)

/-- A value on its way into a slot; `kind` is that of an object. -/
def assign {O : Type} (kind : O → Option (Kind τ)) (slot : Slot τ) :
    Value τ O → Except (ResolverException τ.Err) (Value τ O)
  | .datum d => ((clr.convert slot d).mapError .runtime).map .datum
  | .ref o =>
      match kind o with
      | none => .error .targetMismatch
      | some k => ((clr.accepts slot k).mapError .runtime).map fun _ => .ref o

def State.write (s : State τ) (place : Place τ ℕ) (v : Value τ ℕ) : State τ :=
  { s with contents := Function.update s.contents place (.value v) }

/-- The place that `field.SetValue` writes, of an object of the declaring type. -/
def fieldPlace {O : Type} (kind : O → Option (Kind τ)) (o : O) (f : τ.Fld) :
    Except (ResolverException τ.Err) (Place τ O) :=
  if clr.isStatic f then .ok (.static f)
  else
    match kind o with
    | some (.object t) =>
        if f ∈ clr.getFields t then .ok (.cell o (.field f)) else .error .targetMismatch
    | _ => .error .targetMismatch

/-- `(Array)o`: the element type and the size. -/
def asArray {O : Type} (kind : O → Option (Kind τ)) (o : O) :
    Except (ResolverException τ.Err) (τ.Ty × Int32) :=
  match kind o with
  | some (.array t size) => .ok (t, size)
  | _ => .error .invalidCast

/-- The place that `Array.SetValue` writes. -/
def elementPlace {O : Type} (o : O) (array : τ.Ty × Int32) (index : Int32) :
    Except (ResolverException τ.Err) (Place τ O) :=
  if 0 ≤ index ∧ index < array.2 then .ok (.cell o (.element index)) else .error .indexOutOfRange

/-- What the objects of a state are. -/
def State.kind (s : State τ) (o : ℕ) : Option (Kind τ) := s.objects[o]?

/-- `field.SetValue(resolvedObj, value)`. -/
def setField (s : State τ) (o : ℕ) (f : τ.Fld) (v : Value τ ℕ) :
    Except (ResolverException τ.Err) (State τ) := do
  let place ← fieldPlace clr s.kind o f
  let v ← assign clr s.kind (.field f) v
  return s.write place v

/-- `resolvedArr.SetValue(v, index)`. -/
def setElement (s : State τ) (o : ℕ) (array : τ.Ty × Int32) (index : Int32) (v : Value τ ℕ) :
    Except (ResolverException τ.Err) (State τ) := do
  let place ← elementPlace o array index
  let v ← assign clr s.kind (.element array.1) v
  return s.write place v

/-- One round of the loop over `ArrangeStmts`. -/
def resolveStatement (s : State τ) : Statement → Except (ResolverException τ.Err) (State τ)
  | .setObjectField objInstance fieldRepr value => do
      let (resolvedObj, s) ← resolveReferenceType clr s (.object objInstance)
      let (v, s) ← instantiateExpression clr s value
      match ← resolveField clr objInstance.typeRepr fieldRepr with
      | none => .error .nullReference
      | some f => setField clr s resolvedObj f v
  | .setArrayIndex arrInstance index value => do
      let (resolvedArr, s) ← resolveReferenceType clr s (.array arrInstance)
      let array ← asArray s.kind resolvedArr
      let (v, s) ← instantiateExpression clr s value
      setElement clr s resolvedArr array index v
  | .unexpected => return s
  | .unknown url => .error (.noDescriptor url)

/-- `DispatchTestResult`, with the objects that were made and what they hold. -/
structure DispatchTestResult (τ : Types) where
  method : Option τ.Mth
  args : List (Value τ ℕ)
  expectedValue : Value τ ℕ
  objects : List (Kind τ)
  contents : Place τ ℕ → Content τ ℕ

/-- Before a test, nothing is made. -/
def State.start : State τ where
  instances := Dictionary.empty
  objects := []
  contents
    | .static f => .value (.datum (clr.static f))
    | .cell _ _ => .value (.datum (.obj .null))

/-- `Resolve`. -/
def resolve (test : IlTest) : Except (ResolverException τ.Err) (DispatchTestResult τ) := do
  let s ← test.arrangeStmts.foldlM (resolveStatement clr) (State.start clr)
  let method ← resolveMethod clr test.call
  let (args, s) ← instantiateExpressions clr s test.call.args
  match test.expectedResult with
  | none => .error .nullReference
  | some expectedResult => do
      let (expectedValue, s) ← instantiateExpression clr s expectedResult
      return ⟨method, args, expectedValue, s.objects, s.contents⟩

end Resolver

end TestExecutor.TestResolver
