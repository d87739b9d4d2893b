import CloverVM.ObjectModel.ClassObject
import CloverVM.ObjectModel.SlotObject

/-!
# Module objects

A module keeps its globals in the slots of its shape.  Two validity cells
stand for what a lookup in the module relies on: the globals cell for the
shape of the module, and the builtins cell for the shape, for `__builtins__`
and for the shape of the module that `__builtins__` names.  The builtins cell
is attached to that module, which invalidates it when its own shape changes.

Cells and cloned shapes are numbered in the order in which they are made.
-/

namespace CloverVM.BuiltinTypes.ModuleObject

open CloverVM.ObjectModel

def modulePredefinedSlotName : Nat := 0
def modulePredefinedSlotBuiltins : Nat := 1
def modulePredefinedSlotCount : Nat := 2
def moduleInlineStorageSlotCount : Nat := 256

def moduleBuiltinsDescriptorFlags : DescriptorFlags :=
  { stableSlot := true, specialMutate := true }

def nameLocation : StorageLocation := ⟨modulePredefinedSlotName, .inline⟩

def builtinsLocation : StorageLocation :=
  ⟨modulePredefinedSlotBuiltins, .inline⟩

def dunderNameInfo : DescriptorInfo :=
  { storageLocation := some nameLocation, flags := { stableSlot := true } }

def dunderBuiltinsInfo : DescriptorInfo :=
  { storageLocation := some builtinsLocation
    flags := moduleBuiltinsDescriptorFlags, specialKind := .moduleBuiltins }

/-- `install_module_instance_root_shape`. -/
def moduleRootShape : Shape :=
  { present :=
      [("__class__", dunderClassInfo), ("__dict__", dunderDictInfo),
        ("__name__", dunderNameInfo), ("__builtins__", dunderBuiltinsInfo)]
    nextSlotIndex := modulePredefinedSlotCount
    inlineSlotCapacity := moduleInlineStorageSlotCount }

/-- The names whose descriptor has no slot. -/
def reserved (name : String) : Bool :=
  name = "__class__" ∨ name = "__dict__"

/-- A value as the module code tells values apart: modules, classes by whether
their instances have the layout of modules, and the rest. -/
inductive GlobalValue (M O : Type) where
  | module (m : M)
  | classObject (moduleLayout : Bool) (object : O)
  | other (object : O)
deriving DecidableEq, Repr

structure ModuleObject (M O : Type) where
  object : SlotObject (GlobalValue M O)
  moduleGlobalsValidityCell : Option Nat := none
  moduleBuiltinsValidityCell : Option Nat := none
  attachedDependentLookupValidityCells : List Nat := []

/-- A module with its name and its `__builtins__`, none for the builtins
module itself.  The constructor then stores `__doc__` and the rest as ordinary
attributes. -/
def ModuleObject.make {M O : Type} (name : GlobalValue M O)
    (builtins : Option (GlobalValue M O)) : ModuleObject M O :=
  { object :=
      { shape := moduleRootShape
        inlineSlots := fun i =>
          if i = modulePredefinedSlotName then some name
          else if i = modulePredefinedSlotBuiltins then builtins
          else none } }

/-- The modules of a program, the cells that are valid, and the number of the
next cell or cloned shape. -/
structure World (M O : Type) where
  modules : M → ModuleObject M O
  globalBuiltinsModule : M
  isValid : Nat → Bool := fun _ => false
  nextObject : Nat := 0

namespace World

variable {M O : Type} [DecidableEq M]

def update (w : World M O) (m : M) (mo : ModuleObject M O) : World M O :=
  { w with modules := fun k => if k = m then mo else w.modules k }

/-! ## Validity cells -/

/-- A new cell, which is valid. -/
def makeCell (w : World M O) : World M O :=
  { w with
    isValid := fun k => decide (k = w.nextObject) || w.isValid k
    nextObject := w.nextObject + 1 }

def invalidateModuleBuiltinsBindingValidityCell (w : World M O) (m : M) :
    World M O :=
  let mo := w.modules m
  { w.update m { mo with moduleBuiltinsValidityCell := none } with
    isValid := fun k =>
      !decide (mo.moduleBuiltinsValidityCell = some k) && w.isValid k }

/-- The attached cells, the globals cell and the builtins cell. -/
def invalidateModuleLookupValidityCells (w : World M O) (m : M) : World M O :=
  let mo := w.modules m
  { w.update m { object := mo.object } with
    isValid := fun k =>
      !decide (k ∈ mo.attachedDependentLookupValidityCells) &&
        !decide (mo.moduleGlobalsValidityCell = some k) &&
        !decide (mo.moduleBuiltinsValidityCell = some k) && w.isValid k }

def attachDependentLookupValidityCell (w : World M O) (m : M) (cell : Nat) :
    World M O :=
  let mo := w.modules m
  w.update m
    { mo with
      attachedDependentLookupValidityCells :=
        ClassObject.attachCell w.isValid
          mo.attachedDependentLookupValidityCells cell }

def createModuleGlobalsValidityCellSlow (w : World M O) (m : M) :
    Nat × World M O :=
  (w.nextObject,
    w.makeCell.update m
      { w.modules m with moduleGlobalsValidityCell := some w.nextObject })

def getOrCreateModuleGlobalsValidityCell (w : World M O) (m : M) :
    Nat × World M O :=
  match (w.modules m).moduleGlobalsValidityCell with
  | some cell =>
      if w.isValid cell then (cell, w)
      else w.createModuleGlobalsValidityCellSlow m
  | none => w.createModuleGlobalsValidityCellSlow m

def getBuiltinsBinding (w : World M O) (m : M) : Option (GlobalValue M O) :=
  (w.modules m).object.get builtinsLocation

/-- The module that a binding of `__builtins__` names, none when it is no
module. -/
def builtinsOf (w : World M O) : Option (GlobalValue M O) → Option M
  | none => some w.globalBuiltinsModule
  | some (.module b) => some b
  | some _ => none

def createModuleBuiltinsValidityCellSlow (w : World M O) (m b : M) :
    Nat × World M O :=
  (w.nextObject,
    (w.makeCell.update m
      { w.modules m with
        moduleBuiltinsValidityCell := some w.nextObject
        }).attachDependentLookupValidityCell b w.nextObject)

/-- `get_module_builtins_lookup`: the builtins module and the cell for a
lookup in it, none when `__builtins__` is no module. -/
def getModuleBuiltinsLookup (w : World M O) (m : M) :
    Option (M × Nat) × World M O :=
  match w.builtinsOf (w.getBuiltinsBinding m) with
  | none => (none, w)
  | some b =>
      match (w.modules m).moduleBuiltinsValidityCell with
      | some cell =>
          if w.isValid cell then (some (b, cell), w)
          else
            let r := w.createModuleBuiltinsValidityCellSlow m b
            (some (b, r.1), r.2)
      | none =>
          let r := w.createModuleBuiltinsValidityCellSlow m b
          (some (b, r.1), r.2)

def setShape (w : World M O) (m : M) (newShape : Shape) :
    Except AssertionFailure (World M O) := do
  let mo := w.modules m
  let object ← mo.object.setShape newShape
  let w' := w.update m { mo with object }
  return if mo.object.shape = newShape then w'
    else w'.invalidateModuleLookupValidityCells m

def writeStorageLocation (w : World M O) (m : M) (loc : StorageLocation)
    (value : Option (GlobalValue M O)) :
    Except AssertionFailure (World M O) := do
  let mo := w.modules m
  let object ← mo.object.writeStorageLocation loc value
  return w.update m { mo with object }

def writeEmptyStorageLocation (w : World M O) (m : M) (loc : StorageLocation)
    (value : GlobalValue M O) : Except AssertionFailure (World M O) := do
  let mo := w.modules m
  let object ← mo.object.writeEmptyStorageLocation loc value
  return w.update m { mo with object }

/-- The shape and then the slot of a property that is new. -/
def storeAdded (w : World M O) (m : M) (nextShape : Shape)
    (location : StorageLocation) (value : GlobalValue M O) :
    Except AssertionFailure (World M O) := do
  let w ← w.setShape m nextShape
  w.writeEmptyStorageLocation m location value

/-- The shape and then the slot of a property that goes. -/
def clearDeleted (w : World M O) (m : M) (nextShape : Shape)
    (location : StorageLocation) : Except AssertionFailure (World M O) := do
  let w ← w.setShape m nextShape
  w.writeStorageLocation m location none

def ensureModuleBuiltinsDescriptorPresent (w : World M O) (m : M) :
    Except AssertionFailure (World M O) :=
  let s := (w.modules m).object.shape
  match s.resolvePresentProperty "__builtins__" with
  | some _ => .ok w
  | none => do
      let next ← s.deriveAddTransition "__builtins__"
        moduleBuiltinsDescriptorFlags
      w.setShape m next

def ensureModuleBuiltinsDescriptorAbsent (w : World M O) (m : M) :
    Except AssertionFailure (World M O) :=
  let s := (w.modules m).object.shape
  match s.resolvePresentProperty "__builtins__" with
  | none => .ok w
  | some _ => do
      let next ← s.deriveDeleteTransition "__builtins__"
      w.setShape m next

def setBuiltinsBinding (w : World M O) (m : M) (value : GlobalValue M O) :
    Except AssertionFailure (World M O) := do
  let w ← w.ensureModuleBuiltinsDescriptorPresent m
  let w ← w.writeStorageLocation m builtinsLocation (some value)
  return w.invalidateModuleBuiltinsBindingValidityCell m

def deleteBuiltinsBinding (w : World M O) (m : M) :
    Except AssertionFailure (World M O) := do
  let w ← w.writeStorageLocation m builtinsLocation none
  let w ← w.ensureModuleBuiltinsDescriptorAbsent m
  return w.invalidateModuleBuiltinsBindingValidityCell m

end World

end CloverVM.BuiltinTypes.ModuleObject
