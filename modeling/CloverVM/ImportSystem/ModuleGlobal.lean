import CloverVM.BuiltinTypes.ModuleObject

/-!
# Module globals

Loading, storing and deleting a global of a module.  Each operation first
resolves the name to a descriptor with a plan, then carries the plan out.  A
load looks in the module and then in its builtins; a store and a delete act on
the module alone.  Resolving may make a validity cell, which the descriptor
carries when the plan may be cached.
-/

namespace CloverVM.ImportSystem.ModuleGlobal

open CloverVM.ObjectModel
open CloverVM.BuiltinTypes.ModuleObject

/-- The module that owns a slot, and the slot. -/
structure ModuleGlobalSlotPlan (M : Type) where
  storageOwner : M
  storageLocation : StorageLocation
deriving DecidableEq, Repr

inductive ModuleGlobalReadPlan (M O : Type) where
  | slot (plan : ModuleGlobalSlotPlan M)
  | missing
  | uncacheableBuiltinsObject (object : Option (GlobalValue M O))

inductive ModuleGlobalMutationPlan (M : Type) where
  | storeExisting (plan : ModuleGlobalSlotPlan M)
  | addOwnProperty (nextShape : Shape) (storageLocation : StorageLocation)
  | deleteOwnProperty (nextShape : Shape) (storageLocation : StorageLocation)

structure ModuleGlobalReadDescriptor (M O : Type) where
  plan : ModuleGlobalReadPlan M O
  lookupValidityCell : Option Nat := none

/-- What a store or a delete resolves to.  Only a found store has a cell. -/
inductive ModuleGlobalMutationDescriptor (M : Type) where
  | found (plan : ModuleGlobalMutationPlan M)
      (lookupValidityCell : Option Nat)
  | notFound
  | readOnly
  | disallowed

variable {M O : Type} [DecidableEq M]

/-- `add_own_property`, with its assertion on the location. -/
def addOwnPropertyPlan (nextShape : Shape) (location : StorageLocation) :
    Except AssertionFailure (ModuleGlobalMutationPlan M) :=
  if location.kind = .inline then .ok (.addOwnProperty nextShape location)
  else .error .locationIsInline

/-! ## Resolving -/

def resolveModuleGlobalReadDescriptor (w : World M O) (m : M)
    (name : String) : ModuleGlobalReadDescriptor M O × World M O :=
  match (w.modules m).object.shape.resolvePresentProperty name with
  | some location =>
      let r := w.getOrCreateModuleGlobalsValidityCell m
      (⟨.slot ⟨m, location⟩, some r.1⟩, r.2)
  | none =>
      match w.getModuleBuiltinsLookup m with
      | (none, w') =>
          (⟨.uncacheableBuiltinsObject (w.getBuiltinsBinding m), none⟩, w')
      | (some (b, cell), w') =>
          match (w'.modules b).object.shape.resolvePresentProperty name with
          | none => (⟨.missing, none⟩, w')
          | some location => (⟨.slot ⟨b, location⟩, some cell⟩, w')

/-- The store into a present property.  A special descriptor without a slot
is read-only here. -/
def resolveStoreExisting (w : World M O) (m : M) (info : DescriptorInfo)
    (location : StorageLocation) :
    ModuleGlobalMutationDescriptor M × World M O :=
  if info.flags.specialMutate then
    match info.specialKind with
    | .moduleBuiltins =>
        (.found (.storeExisting ⟨m, location⟩) none,
          w.invalidateModuleBuiltinsBindingValidityCell m)
    | _ => (.readOnly, w)
  else if info.flags.readOnly then (.readOnly, w)
  else
    let r := w.getOrCreateModuleGlobalsValidityCell m
    (.found (.storeExisting ⟨m, location⟩) (some r.1), r.2)

def resolveModuleGlobalWriteDescriptor (w : World M O) (m : M)
    (name : String) :
    Except AssertionFailure
      (ModuleGlobalMutationDescriptor M × World M O) :=
  let s := (w.modules m).object.shape
  if s.disallowAttributeUpdates then .ok (.disallowed, w)
  else
    match s.lookupDescriptorIncludingLatent name with
    | .present info =>
        .ok (resolveStoreExisting w m info (info.locationOrFirst))
    | .latent info =>
        .ok (if info.flags.readOnly then .readOnly else .notFound, w)
    | .absent =>
        if s.disallowAttributeAddDelete then .ok (.disallowed, w)
        else do
          let next ← s.deriveAdded name
          let plan ← addOwnPropertyPlan next.1 next.2
          return (.found plan none, w)

def resolveModuleGlobalDeleteDescriptor (w : World M O) (m : M)
    (name : String) :
    Except AssertionFailure
      (ModuleGlobalMutationDescriptor M × World M O) :=
  let s := (w.modules m).object.shape
  if s.disallowAttributeAddDelete then .ok (.disallowed, w)
  else
    match s.lookupDescriptorIncludingLatent name with
    | .absent => .ok (.notFound, w)
    | .latent info =>
        .ok (if info.flags.readOnly then .readOnly else .notFound, w)
    | .present info =>
        if info.flags.specialMutate then
          match info.specialKind with
          | .moduleBuiltins => do
              let nextShape ← s.deriveDeleteTransition name
              return (.found (.deleteOwnProperty nextShape (info.locationOrFirst))
                none, w.invalidateModuleBuiltinsBindingValidityCell m)
          | _ => .ok (.readOnly, w)
        else if info.flags.readOnly then .ok (.readOnly, w)
        else do
          let nextShape ← s.deriveDeleteTransition name
          return (.found (.deleteOwnProperty nextShape (info.locationOrFirst)) none,
            w)

def loadModuleGlobalFromSlotPlan (w : World M O)
    (plan : ModuleGlobalSlotPlan M) :
    Except AssertionFailure (Option (GlobalValue M O)) :=
  (w.modules plan.storageOwner).object.readStorageLocation
    plan.storageLocation

def loadModuleGlobalFromPlan (w : World M O) :
    ModuleGlobalReadPlan M O →
      Except AssertionFailure (Option (GlobalValue M O))
  | .slot plan => loadModuleGlobalFromSlotPlan w plan
  | .missing => .ok none
  | .uncacheableBuiltinsObject _ => .ok none

def storeModuleGlobalFromStoreExistingPlan (w : World M O)
    (plan : ModuleGlobalSlotPlan M) (value : GlobalValue M O) :
    Except AssertionFailure (World M O) :=
  w.writeStorageLocation plan.storageOwner plan.storageLocation (some value)

/-- The world after the store, and whether it stored. -/
def storeModuleGlobalFromPlan (w : World M O) (m : M)
    (plan : ModuleGlobalMutationPlan M) (value : GlobalValue M O) :
    Except AssertionFailure (Bool × World M O) :=
  match plan with
  | .storeExisting plan => do
      let w ← storeModuleGlobalFromStoreExistingPlan w plan value
      return (true, w)
  | .addOwnProperty nextShape location => do
      let w ← w.storeAdded m nextShape location value
      return (true, w)
  | .deleteOwnProperty _ _ => .ok (false, w)

def deleteModuleGlobalFromPlan (w : World M O) (m : M)
    (plan : ModuleGlobalMutationPlan M) :
    Except AssertionFailure (Bool × World M O) :=
  match plan with
  | .deleteOwnProperty nextShape location => do
      let w ← w.clearDeleted m nextShape location
      return (true, w)
  | _ => .ok (false, w)

def loadModuleGlobal (w : World M O) (m : M) (name : String) :
    Except AssertionFailure (Option (GlobalValue M O) × World M O) := do
  let r := resolveModuleGlobalReadDescriptor w m name
  let value ← loadModuleGlobalFromPlan r.2 r.1.plan
  return (value, r.2)

def storeModuleGlobal (w : World M O) (m : M) (name : String)
    (value : GlobalValue M O) :
    Except AssertionFailure (Bool × World M O) := do
  let r ← resolveModuleGlobalWriteDescriptor w m name
  match r.1 with
  | .found plan _ => storeModuleGlobalFromPlan r.2 m plan value
  | _ => return (false, r.2)

def deleteModuleGlobal (w : World M O) (m : M) (name : String) :
    Except AssertionFailure (Bool × World M O) := do
  let r ← resolveModuleGlobalDeleteDescriptor w m name
  match r.1 with
  | .found plan _ => deleteModuleGlobalFromPlan r.2 m plan
  | _ => return (false, r.2)

end CloverVM.ImportSystem.ModuleGlobal
