import CloverVM.ObjectModel.ObjectStore

/-!
# Objects as ordered maps

What objects are for: each is a map from names to values that remembers the
order its names came in, with what may be done to each name.  An operation is
answered from the map; where the values are kept does not show, except that
the slots run out.
-/

namespace CloverVM.ObjectModel.ObjectStore

open CloverVM.Collections
open CloverVM.ObjectModel
open CloverVM.ObjectModel.ShapeTable

variable {V : Type}

abbrev Properties (V : Type) := OrderedMap String (Option V)

/-- What an object has under a name. -/
def lookup (m : Properties V) (name : String) : Option V :=
  (m.find (· == ·) name).join

/-- What a descriptor says of a name, whatever its slot. -/
structure Attributes where
  flags : DescriptorFlags := {}
  specialKind : DescriptorSpecialKind := .none
deriving DecidableEq, Repr

namespace Attributes

def of (info : DescriptorInfo) : Attributes where
  flags := info.flags
  specialKind := info.specialKind

/-- A value can be stored under the name, and the name can be deleted. -/
def writable (a : Attributes) (nativeLayout : NativeLayout) : Bool :=
  if a.flags.specialMutate then
    a.specialKind = .moduleBuiltins ∧ nativeLayout = .moduleObject
  else !a.flags.readOnly

/-- Storing under the name changes the class. -/
def changesClass (a : Attributes) : Bool :=
  a.flags.specialMutate ∧ a.specialKind = .shapeClass

def hasSpecialFlag (a : Attributes) : Bool :=
  a.flags.specialRead || a.flags.specialMutate

end Attributes

/-- The attributes of the names that are present and of those that come
back. -/
def attributesOf (s : Shape) (name : String) : Option Attributes :=
  (s.lookupDescriptorIncludingLatent name).info?.map Attributes.of

/-- The properties of an object.  A name that has attributes and is not among
the properties was deleted, and gets its attributes back when it is added
again. -/
structure Record (V : Type) where
  nativeLayout : NativeLayout
  isImmutable : Bool
  disallowAttributeUpdates : Bool
  disallowAttributeAddDelete : Bool
  inlineSlotCapacity : Nat
  slotCount : Nat
  properties : Properties V
  attributes : String → Option Attributes

/-- What an operation does to the properties of one object. -/
inductive Effect (V : Type) where
  | nothing
  | insert (name : String) (value : V) (flags : DescriptorFlags)
  | write (name : String) (value : V)
  | erase (name : String)
  | clone

namespace Effect

/-- What the operation returns. -/
def succeeds : Effect V → Bool
  | nothing => false
  | _ => true

def properties (m : Properties V) : Effect V → Properties V
  | nothing => m
  | insert name value _ => m ++ [(name, some value)]
  | write name value => m.set (· == ·) name (some value)
  | erase name => m.erase (· == ·) name
  | clone => m

end Effect

namespace Record

/-- The attributes of a name that is present. -/
def present (r : Record V) (name : String) : Option Attributes :=
  if r.properties.holds (· == ·) name then r.attributes name else none

/-! ## Answers -/

def insertion (r : Record V) (name : String) (value : V)
    (flags : DescriptorFlags) : Effect V :=
  if (r.present name).isSome ∨ r.disallowAttributeAddDelete then .nothing
  else .insert name value flags

def deletion (r : Record V) (name : String) : Effect V :=
  match r.present name with
  | none => .nothing
  | some a =>
      if r.disallowAttributeAddDelete ∨ ¬ a.writable r.nativeLayout then
        .nothing
      else .erase name

section Class

-- the layout of the instances of a value, when it is a class object
variable (instanceNativeLayoutId : V → Option NativeLayout)

/-- Between classes whose instances have the same layout. -/
def classChange (r : Record V) (value : V) : Effect V :=
  if ¬ r.isImmutable ∧
      (r.nativeLayout = .instanceObject ∨ r.nativeLayout = .moduleObject) ∧
      instanceNativeLayoutId value = some r.nativeLayout then .clone
  else .nothing

def assignment (r : Record V) (name : String) (value : V) : Effect V :=
  match r.present name with
  | none => r.insertion name value {}
  | some a =>
      if r.disallowAttributeUpdates then .nothing
      else if a.changesClass then r.classChange instanceNativeLayoutId value
      else if a.writable r.nativeLayout then .write name value
      else .nothing

def answer (r : Record V) : AttributeOperation V → Effect V
  | .add name value => r.insertion name value {}
  | .define name value flags => r.insertion name value flags
  | .set name value => r.assignment instanceNativeLayoutId name value
  | .delete name => r.deletion name
  | .changeClass value => r.classChange instanceNativeLayoutId value

end Class

/-! ## Effects -/

/-- A name without attributes gets those it comes with, and a slot. -/
def after (r : Record V) (e : Effect V) : Record V :=
  { r with
    properties := e.properties r.properties
    attributes :=
      match e with
      | .insert name _ flags =>
          Function.update r.attributes name
            (some ((r.attributes name).getD { flags }))
      | .erase name =>
          match r.attributes name with
          | some a =>
              if a.flags.stableSlot then r.attributes
              else Function.update r.attributes name none
          | none => r.attributes
      | _ => r.attributes
    slotCount :=
      match e with
      | .insert name _ _ =>
          if (r.attributes name).isSome then r.slotCount else r.slotCount + 1
      | _ => r.slotCount }

/-- The assertion that an effect fails: the attributes of a new name have no
special flag, and there is a slot for it. -/
def failure (r : Record V) : Effect V → Option Failure
  | .insert name _ flags =>
      if (r.attributes name).isSome then none
      else if Attributes.hasSpecialFlag { flags } then
        some .specialFlagsNeedKind
      else if r.slotCount < r.inlineSlotCapacity + overflowSlotMax then none
      else some (.assertion .overflowCapacityFits)
  | _ => none

/-- The properties that an object starts with; `__class__` and `__dict__`
have no slot. -/
def make (kind : RootKind) (isImmutable : Bool) (nativeLayout : NativeLayout)
    (values : String → Option V) : Record V where
  nativeLayout := nativeLayout
  isImmutable := isImmutable
  disallowAttributeUpdates := kind.shape.disallowAttributeUpdates
  disallowAttributeAddDelete := kind.shape.disallowAttributeAddDelete
  inlineSlotCapacity := kind.shape.inlineSlotCapacity
  slotCount := kind.shape.nextSlotIndex
  properties := kind.shape.present.map fun d =>
    (d.1, d.2.storageLocation.bind fun _ => values d.1)
  attributes := attributesOf kind.shape

end Record

/-! ## The store -/

/-- The classes, each with whether its root shape is immutable, and the
objects. -/
structure Store (V : Type) where
  classes : List (RootKind × Bool) := []
  records : List (Record V) := []

namespace Store

def makeRoot (s : Store V) (kind : RootKind) (isImmutable : Bool) :
    Except Failure (Bool × Store V) :=
  if isImmutable = true ∧ ¬ (kind.shape.disallowAttributeUpdates = true ∧
      kind.shape.disallowAttributeAddDelete = true) then
    .error .shapeFlagsAreValid
  else .ok (true, { s with classes := s.classes ++ [(kind, isImmutable)] })

def makeObject (s : Store V) (cls : Nat) (values : String → Option V) :
    Except Failure (Bool × Store V) :=
  match s.classes[cls]? with
  | none => .error .pointerIsValid
  | some (kind, isImmutable) =>
      match nativeLayoutOf kind with
      | none => .error .pointerIsValid
      | some nativeLayout =>
          if kind.shape.inlineSlotCapacity ≤ uint16Max then
            .ok (true,
              { s with
                records := s.records ++
                  [Record.make kind isImmutable nativeLayout values] })
          else .error .inlineSlotCountFits

variable (instanceNativeLayoutId : V → Option NativeLayout)

def step (s : Store V) : Operation V → Except Failure (Bool × Store V)
  | .makeRoot kind _ isImmutable => s.makeRoot kind isImmutable
  | .makeObject cls values => s.makeObject cls values
  | .on o op =>
      match s.records[o]? with
      | none => .error .pointerIsValid
      | some r =>
          let e := r.answer instanceNativeLayoutId op
          match r.failure e with
          | some f => .error f
          | none =>
              .ok (e.succeeds,
                { s with records := s.records.set o (r.after e) })

def run (s : Store V) : List (Operation V) → Except Failure (List Bool × Store V)
  | [] => .ok ([], s)
  | op :: ops => do
      let (result, s) ← s.step instanceNativeLayoutId op
      let (results, s) ← s.run ops
      return (result :: results, s)

end Store

/-! ## The store of a world -/

/-- What `get_own_property` finds. -/
def ownValue (w : World V) (o : Nat) (name : String) : Option V :=
  (w.storage o).ownValue name

/-- The present names in their order, with their values. -/
def properties (w : World V) (o : Nat) : Properties V :=
  (w.shapeOf o).present.map fun d => (d.1, ownValue w o d.1)

def recordOf (w : World V) (o : Nat) : Record V where
  nativeLayout := (w.objects o).nativeLayout
  isImmutable := (w.shapes.get (w.objects o).shape).isImmutable
  disallowAttributeUpdates := (w.shapeOf o).disallowAttributeUpdates
  disallowAttributeAddDelete := (w.shapeOf o).disallowAttributeAddDelete
  inlineSlotCapacity := (w.shapeOf o).inlineSlotCapacity
  slotCount := (w.shapeOf o).nextSlotIndex
  properties := properties w o
  attributes := attributesOf (w.shapeOf o)

def storeOf (w : World V) : Store V where
  classes := w.classes.map fun c => (c.1, (w.shapes.get c.2).isImmutable)
  records := (List.range w.objectCount).map (recordOf w)

end CloverVM.ObjectModel.ObjectStore
