import CloverVM.Collections.OrderedMap
import CloverVM.ObjectModel.ShapeTable
import CloverVM.ObjectModel.SlotObject
import CloverVM.Runtime.BuiltinException

/-!
# Objects that share shapes

The attributes of objects, each of which points to a shape of the table.  An
instance initializes its inline slots as they are first written, any other
object has all of them from the start.
-/

namespace CloverVM.ObjectModel.ObjectStore

open CloverVM.Collections
open CloverVM.ObjectModel
open CloverVM.ObjectModel.ShapeTable
open CloverVM.Runtime

/-- The layouts for which `native_layout_has_slots` holds. -/
inductive NativeLayout where
  | instanceObject
  | classObject
  | function
  | slice
  | moduleObject
  | moduleLoaderObject
  | moduleSpecObject
  | exception
  | stopIteration
deriving DecidableEq, Repr

/-- The layout of the instances that start with a root shape. -/
def nativeLayoutOf : RootKind → Option NativeLayout
  | .inlineValue => none
  | .classObject => some .classObject
  | .defaultInstance .. => some .instanceObject
  | .exception => some .exception
  | .stopIteration => some .stopIteration
  | .module => some .moduleObject
  | .function => some .function
  | .moduleSpec => some .moduleSpecObject
  | .moduleLoader => some .moduleLoaderObject
  | .slice => some .slice

/-- An instance initializes its inline slots in order, and counts them in its
native layout word.  Reserved slots, which no descriptor leads to, are
`none`. -/
structure Object (V : Type) where
  nativeLayout : NativeLayout
  shape : Nat
  inlineSlotCapacity : Nat
  initializedSlotCount : Nat
  inlineSlots : Nat → Option V
  overflowStorage : Option (OverflowSlots V) := none

/-- A class is known by the kind and the number of its root shape. -/
structure World (V : Type) where
  shapes : Shapes V
  classes : List (RootKind × Nat) := []
  objects : Nat → Object V
  objectCount : Nat := 0
  pendingException : Option BuiltinException := none

variable {V : Type}

/-- The slots of an object, under a shape. -/
def Object.storage (o : Object V) (shape : Shape) : SlotObject V where
  shape := shape
  inlineSlots := o.inlineSlots
  overflowStorage := o.overflowStorage

def Object.withStorage (o : Object V) (storage : SlotObject V) : Object V :=
  { o with
    inlineSlots := storage.inlineSlots
    overflowStorage := storage.overflowStorage }

def World.setObject (w : World V) (o : Nat) (object : Object V) : World V :=
  { w with objects := Function.update w.objects o object }

def World.shapeOf (w : World V) (o : Nat) : Shape :=
  (w.shapes.get (w.objects o).shape).shape

def World.storage (w : World V) (o : Nat) : SlotObject V :=
  (w.objects o).storage (w.shapeOf o)

def World.setStorage (w : World V) (o : Nat) (storage : SlotObject V) :
    World V :=
  w.setObject o ((w.objects o).withStorage storage)

def uint16Max : Nat := 65535

/-! ## Storage -/

/-- An inline slot is used after it was initialized. -/
def Object.assertInitialized (o : Object V) (location : StorageLocation) :
    Except Failure Unit :=
  if location.kind = .inline ∧
      o.initializedSlotCount ≤ location.physicalIdx then
    .error .slotIsInitialized
  else .ok ()

def readStorageLocation (w : World V) (o : Nat) (location : StorageLocation) :
    Except Failure (Option V) := do
  (w.objects o).assertInitialized location
  lift ((w.storage o).readStorageLocation location)

def writeStorageLocation (w : World V) (o : Nat) (location : StorageLocation)
    (value : Option V) : Except Failure (World V) := do
  (w.objects o).assertInitialized location
  let storage ← lift ((w.storage o).writeStorageLocation location value)
  return w.setStorage o storage

/-- An instance initializes its slots up to the one that is written. -/
def initializeInlineSlot (w : World V) (o physicalIdx : Nat) (value : V) :
    Except Failure (World V) :=
  let object := w.objects o
  if physicalIdx < uint16Max ∧ physicalIdx < object.inlineSlotCapacity then
    .ok (w.setObject o
      { object with
        initializedSlotCount := physicalIdx + 1
        inlineSlots := fun i =>
          if i = physicalIdx then some value
          else if object.initializedSlotCount ≤ i ∧ i < physicalIdx then none
          else object.inlineSlots i })
  else .error .slotIsAllocated

def writeEmptyStorageLocation (w : World V) (o : Nat)
    (location : StorageLocation) (value : V) : Except Failure (World V) :=
  let object := w.objects o
  if location.kind = .inline ∧ object.nativeLayout = .instanceObject ∧
      object.initializedSlotCount ≤ location.physicalIdx then
    initializeInlineSlot w o location.physicalIdx value
  else do
    object.assertInitialized location
    let storage ← lift
      ((w.storage o).writeEmptyStorageLocation location value)
    return w.setStorage o storage

/-- `Object::set_shape`, without the validity cells of classes and modules. -/
def setShape (w : World V) (o newShape : Nat) : Except Failure (World V) :=
  let object := w.objects o
  if (w.shapes.get object.shape).isImmutable ∧ object.shape ≠ newShape then
    .error .shapeIsMutable
  else do
    let storage ← lift
      ((w.storage o).setShape (w.shapes.get newShape).shape)
    return w.setObject o { object.withStorage storage with shape := newShape }

/-- The body that `add_own_property` and `define_own_property` share. -/
def insertOwnProperty (w : World V) (o : Nat) (name : String) (value : V)
    (flags : DescriptorFlags) : Except Failure (Bool × World V) :=
  let currentShape := (w.objects o).shape
  if ((w.shapeOf o).lookupPresentDescriptor name).isSome then .ok (false, w)
  else if (w.shapeOf o).disallowAttributeAddDelete then .ok (false, w)
  else do
    let (nextShape, shapes) ←
      w.shapes.deriveTransition currentShape name .add flags
    let w ← setShape { w with shapes } o nextShape
    match (w.shapes.get nextShape).shape.resolvePresentProperty name with
    | none => .error (.assertion .locationIsFound)
    | some newLocation =>
        let w ← writeEmptyStorageLocation w o newLocation value
        return (true, w)

def addOwnProperty (w : World V) (o : Nat) (name : String) (value : V) :
    Except Failure (Bool × World V) :=
  insertOwnProperty w o name value {}

def defineOwnProperty (w : World V) (o : Nat) (name : String) (value : V)
    (descriptorFlags : DescriptorFlags) : Except Failure (Bool × World V) :=
  insertOwnProperty w o name value descriptorFlags

/-- `AttributeWriteDescriptor`, with the plan of one that is found. -/
inductive WriteDescriptor where
  | notFound
  | disallowed
  | readOnly
  | changeClass
  | storeExisting (location : Option StorageLocation)
deriving DecidableEq, Repr

def lookupExistingOwnPropertyWriteDescriptor (w : World V) (o : Nat)
    (name : String) : Except Failure WriteDescriptor :=
  let shape := w.shapeOf o
  match shape.lookupPresentDescriptor name with
  | none => .ok .notFound
  | some info =>
      if shape.disallowAttributeUpdates then .ok .disallowed
      else if info.flags.specialMutate then
        match info.specialKind with
        | .moduleBuiltins =>
            if (w.objects o).nativeLayout = .moduleObject then
              .ok (.storeExisting info.storageLocation)
            else .ok .disallowed
        | .shapeClass => .ok .changeClass
        | .slotDict => .ok .readOnly
        | .none => .error .unreachable
      else if info.flags.readOnly then .ok .readOnly
      else .ok (.storeExisting info.storageLocation)

/-- `AttributeDeleteDescriptor`, with the plan of one that is found. -/
inductive DeleteDescriptor where
  | notFound
  | disallowed
  | readOnly
  | deleteOwnProperty (nextShape : Nat) (location : Option StorageLocation)
deriving DecidableEq, Repr

/-- The lookup derives the next shape. -/
def lookupExistingOwnPropertyDeleteDescriptor (w : World V) (o : Nat)
    (name : String) : Except Failure (DeleteDescriptor × World V) :=
  let shape := w.shapeOf o
  let found (info : DescriptorInfo) := do
    let (nextShape, shapes) ←
      w.shapes.deriveTransition (w.objects o).shape name .delete {}
    return (DeleteDescriptor.deleteOwnProperty nextShape info.storageLocation,
      { w with shapes })
  if shape.disallowAttributeAddDelete then .ok (.disallowed, w)
  else
    match shape.lookupPresentDescriptor name with
    | none => .ok (.notFound, w)
    | some info =>
        if info.flags.specialMutate then
          match info.specialKind with
          | .moduleBuiltins =>
              if (w.objects o).nativeLayout = .moduleObject then found info
              else .ok (.disallowed, w)
          | .shapeClass => .ok (.readOnly, w)
          | .slotDict => .ok (.readOnly, w)
          | .none => .error .unreachable
        else if info.flags.readOnly then .ok (.readOnly, w)
        else found info

section Class

-- the layout of the instances of a value, when it is a class object
variable (instanceNativeLayoutId : V → Option NativeLayout)

def classAssignmentUnsupported : BuiltinException :=
  { typeName := "TypeError"
    message := "__class__ assignment only supported for mutable types or " ++
      "ModuleType subclasses" }

def classAssignmentNotClass : BuiltinException :=
  { typeName := "TypeError"
    message := "__class__ assignment requires a class object" }

def storeAttrChangeClass (w : World V) (o : Nat) (value : V) :
    Except Failure (Bool × World V) :=
  let object := w.objects o
  let refuse (e : BuiltinException) :=
    Except.ok (false, { w with pendingException := some e })
  if (w.shapes.get object.shape).isImmutable then
    refuse classAssignmentUnsupported
  else if object.nativeLayout ≠ .instanceObject ∧
      object.nativeLayout ≠ .moduleObject then
    refuse classAssignmentUnsupported
  else
    match instanceNativeLayoutId value with
    | none => refuse classAssignmentNotClass
    | some layout =>
        if layout ≠ object.nativeLayout then
          refuse classAssignmentUnsupported
        else do
          let (clonedShape, shapes) ←
            w.shapes.cloneWithClass object.shape value
          let w ← setShape { w with shapes } o clonedShape
          return (true, w)

/-- What `store_attr_from_plan` does for an existing property. -/
def storeExisting (w : World V) (o : Nat) (location : Option StorageLocation)
    (value : V) : Except Failure (Bool × World V) :=
  match location with
  | none => .error (.assertion .locationIsFound)
  | some location => do
      let w ← writeStorageLocation w o location (some value)
      return (true, w)

def setOwnProperty (w : World V) (o : Nat) (name : String) (value : V) :
    Except Failure (Bool × World V) := do
  match (← lookupExistingOwnPropertyWriteDescriptor w o name) with
  | .storeExisting location => storeExisting w o location value
  | .changeClass => storeAttrChangeClass instanceNativeLayoutId w o value
  | .notFound => addOwnProperty w o name value
  | .disallowed => .ok (false, w)
  | .readOnly => .ok (false, w)

def deleteOwnProperty (w : World V) (o : Nat) (name : String) :
    Except Failure (Bool × World V) := do
  let (descriptor, w) ← lookupExistingOwnPropertyDeleteDescriptor w o name
  match descriptor with
  | .deleteOwnProperty nextShape location =>
      match location with
      | none => .error (.assertion .locationIsFound)
      | some location => do
          let w ← setShape w o nextShape
          let w ← writeStorageLocation w o location none
          return (true, w)
  | _ => .ok (false, w)

/-- An operation on the attributes of an object. -/
inductive AttributeOperation (V : Type) where
  | add (name : String) (value : V)
  | define (name : String) (value : V) (flags : DescriptorFlags)
  | set (name : String) (value : V)
  | delete (name : String)
  | changeClass (value : V)

def applyAttribute (w : World V) (o : Nat) :
    AttributeOperation V → Except Failure (Bool × World V)
  | .add name value => addOwnProperty w o name value
  | .define name value flags => defineOwnProperty w o name value flags
  | .set name value => setOwnProperty instanceNativeLayoutId w o name value
  | .delete name => deleteOwnProperty w o name
  | .changeClass value =>
      storeAttrChangeClass instanceNativeLayoutId w o value

/-! ## Runs -/

inductive Operation (V : Type) where
  | makeRoot (kind : RootKind) (classValue : V) (isImmutable : Bool)
  | makeObject (cls : Nat) (values : String → Option V)
  | on (o : Nat) (op : AttributeOperation V)

/-- A new class, with the root shape of its instances. -/
def makeRoot (w : World V) (kind : RootKind) (classValue : V)
    (isImmutable : Bool) : Except Failure (Bool × World V) :=
  if isImmutable = true ∧ ¬ (kind.shape.disallowAttributeUpdates = true ∧
      kind.shape.disallowAttributeAddDelete = true) then
    .error .shapeFlagsAreValid
  else
    let (root, shapes) :=
      w.shapes.allocate { classValue, shape := kind.shape, isImmutable }
    .ok (true, { w with shapes, classes := w.classes ++ [(kind, root)] })

/-- The inline slots of a new object: those of the present descriptors have
values. -/
def initialSlots (kind : RootKind) (values : String → Option V) (i : Nat) :
    Option V :=
  (kind.shape.present.find? fun d =>
    d.2.storageLocation = some ⟨i, .inline⟩).bind fun d => values d.1

/-- Only an instance starts without initialized slots. -/
def newObject (kind : RootKind) (root : Nat) (nativeLayout : NativeLayout)
    (values : String → Option V) : Object V where
  nativeLayout := nativeLayout
  shape := root
  inlineSlotCapacity := kind.shape.inlineSlotCapacity
  initializedSlotCount :=
    if nativeLayout = .instanceObject then 0
    else kind.shape.inlineSlotCapacity
  inlineSlots := initialSlots kind values

def makeObject (w : World V) (cls : Nat) (values : String → Option V) :
    Except Failure (Bool × World V) :=
  match w.classes[cls]? with
  | none => .error .pointerIsValid
  | some (kind, root) =>
      match nativeLayoutOf kind with
      | none => .error .pointerIsValid
      | some nativeLayout =>
          if kind.shape.inlineSlotCapacity ≤ uint16Max then
            .ok (true,
              { w with
                objects := Function.update w.objects w.objectCount
                  (newObject kind root nativeLayout values)
                objectCount := w.objectCount + 1 })
          else .error .inlineSlotCountFits

def step (w : World V) : Operation V → Except Failure (Bool × World V)
  | .makeRoot kind classValue isImmutable =>
      makeRoot w kind classValue isImmutable
  | .makeObject cls values => makeObject w cls values
  | .on o op =>
      if o < w.objectCount then applyAttribute instanceNativeLayoutId w o op
      else .error .pointerIsValid

/-- A run, with what each operation returned. -/
def run (w : World V) : List (Operation V) → Except Failure (List Bool × World V)
  | [] => .ok ([], w)
  | op :: ops => do
      let (result, w) ← step instanceNativeLayoutId w op
      let (results, w) ← run w ops
      return (result :: results, w)

end Class

end CloverVM.ObjectModel.ObjectStore
