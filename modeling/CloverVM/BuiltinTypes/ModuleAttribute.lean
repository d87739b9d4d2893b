import CloverVM.BuiltinTypes.ModuleObject

/-!
# Attributes of modules

Attribute stores and deletes whose receiver is a module.  They also change its
globals.  The paths are those of every object with slots; a module adds the
special descriptor of `__builtins__`, which invalidates the builtins cell while
the name is being resolved.

What the class of the receiver answers is the environment's: whether it has a
mutating descriptor of that name, whether the lookup may be cached, and later
whether the cell of the cached lookup is still valid.
-/

namespace CloverVM.BuiltinTypes.ModuleAttribute

open CloverVM.ObjectModel
open CloverVM.BuiltinTypes.ModuleObject

/-- The owner of the slot is the receiver. -/
inductive AttributeMutationPlan where
  | storeExisting (storageLocation : StorageLocation)
  | addOwnProperty (nextShape : Shape) (storageLocation : StorageLocation)
  | deleteOwnProperty (nextShape : Shape) (storageLocation : StorageLocation)
  | changeClass
deriving DecidableEq, Repr

inductive AttributeMutationDescriptor where
  | found (plan : AttributeMutationPlan)
  | notFound
  | readOnly
  | disallowed
deriving DecidableEq, Repr

/-- The class side of an attribute lookup.  `cellIsValid` says whether the
cell that an inline cache has kept for it is still valid. -/
structure ClassLookup where
  mutatingDescriptor : Bool := false
  blocked : Bool := false
  cellIsValid : Bool := true
deriving DecidableEq, Repr

variable {M O : Type} [DecidableEq M]

/-! ## Own properties -/

def lookupExistingOwnPropertyWriteDescriptor (w : World M O) (m : M)
    (name : String) : AttributeMutationDescriptor × World M O :=
  let s := (w.modules m).object.shape
  match s.lookupPresentDescriptor name with
  | none => (.notFound, w)
  | some info =>
      if s.disallowAttributeUpdates then (.disallowed, w)
      else if info.flags.specialMutate then
        match info.specialKind with
        | .moduleBuiltins =>
            (.found (.storeExisting info.locationOrFirst),
              w.invalidateModuleBuiltinsBindingValidityCell m)
        | .shapeClass => (.found .changeClass, w)
        | _ => (.readOnly, w)
      else if info.flags.readOnly then (.readOnly, w)
      else (.found (.storeExisting info.locationOrFirst), w)

def lookupExistingOwnPropertyDeleteDescriptor (w : World M O) (m : M)
    (name : String) :
    Except AssertionFailure (AttributeMutationDescriptor × World M O) :=
  let s := (w.modules m).object.shape
  if s.disallowAttributeAddDelete then .ok (.disallowed, w)
  else
    match s.lookupPresentDescriptor name with
    | none => .ok (.notFound, w)
    | some info =>
        if info.flags.specialMutate then
          match info.specialKind with
          | .moduleBuiltins => do
              let nextShape ← s.deriveDeleteTransition name
              return (.found (.deleteOwnProperty nextShape
                info.locationOrFirst),
                w.invalidateModuleBuiltinsBindingValidityCell m)
          | _ => .ok (.readOnly, w)
        else if info.flags.readOnly then .ok (.readOnly, w)
        else do
          let nextShape ← s.deriveDeleteTransition name
          return (.found (.deleteOwnProperty nextShape info.locationOrFirst),
            w)

/-- `store_attr_change_class`: only a class whose instances have the layout of
modules will do. -/
def storeAttrChangeClass (w : World M O) (m : M) (value : GlobalValue M O) :
    Except AssertionFailure (Bool × World M O) :=
  match value with
  | .classObject true _ => do
      let nextShape := (w.modules m).object.shape.cloneWithClass w.nextObject
      let w ← ({ w with nextObject := w.nextObject + 1 } : World M O).setShape
        m nextShape
      return (true, w)
  | _ => .ok (false, w)

def storeAttrFromPlan (w : World M O) (m : M) (plan : AttributeMutationPlan)
    (value : GlobalValue M O) :
    Except AssertionFailure (Bool × World M O) :=
  match plan with
  | .changeClass => storeAttrChangeClass w m value
  | .storeExisting location => do
      let w ← w.writeStorageLocation m location (some value)
      return (true, w)
  | .addOwnProperty nextShape location =>
      if location.kind = .inline then do
        let w ← w.storeAdded m nextShape location value
        return (true, w)
      else .error .locationIsInline
  | .deleteOwnProperty _ _ => .ok (false, w)

def deleteAttrFromPlan (w : World M O) (m : M)
    (plan : AttributeMutationPlan) :
    Except AssertionFailure (Bool × World M O) :=
  match plan with
  | .deleteOwnProperty nextShape location => do
      let w ← w.clearDeleted m nextShape location
      return (true, w)
  | _ => .ok (false, w)

def addOwnProperty (w : World M O) (m : M) (name : String)
    (value : GlobalValue M O) :
    Except AssertionFailure (Bool × World M O) :=
  let s := (w.modules m).object.shape
  match s.lookupPresentDescriptor name with
  | some _ => .ok (false, w)
  | none =>
      if s.disallowAttributeAddDelete then .ok (false, w)
      else do
        let next ← s.deriveAdded name
        let w ← w.storeAdded m next.1 next.2 value
        return (true, w)

/-- Also `SlotDict::set_item`, which takes the same steps. -/
def setOwnProperty (w : World M O) (m : M) (name : String)
    (value : GlobalValue M O) :
    Except AssertionFailure (Bool × World M O) :=
  match lookupExistingOwnPropertyWriteDescriptor w m name with
  | (.found plan, w') => storeAttrFromPlan w' m plan value
  | (.notFound, w') => addOwnProperty w' m name value
  | (_, w') => .ok (false, w')

/-- Also `SlotDict::del_item`. -/
def deleteOwnProperty (w : World M O) (m : M) (name : String) :
    Except AssertionFailure (Bool × World M O) := do
  let r ← lookupExistingOwnPropertyDeleteDescriptor w m name
  match r.1 with
  | .found plan => deleteAttrFromPlan r.2 m plan
  | _ => return (false, r.2)

def resolveAttrWriteDescriptor (w : World M O) (m : M) (name : String)
    (lookup : ClassLookup) : AttributeMutationDescriptor × World M O :=
  if lookup.mutatingDescriptor then (.disallowed, w)
  else
    match lookupExistingOwnPropertyWriteDescriptor w m name with
    | (.found plan, w') => (.found plan, w')
    | (own, w') =>
        if name = "__class__" then (.found .changeClass, w') else (own, w')

def resolveAttrDeleteDescriptor (w : World M O) (m : M) (name : String)
    (lookup : ClassLookup) :
    Except AssertionFailure (AttributeMutationDescriptor × World M O) :=
  if lookup.mutatingDescriptor then .ok (.disallowed, w)
  else lookupExistingOwnPropertyDeleteDescriptor w m name

def storeAttr (w : World M O) (m : M) (name : String)
    (value : GlobalValue M O) (lookup : ClassLookup) :
    Except AssertionFailure (Bool × World M O) :=
  match resolveAttrWriteDescriptor w m name lookup with
  | (.found plan, w') => storeAttrFromPlan w' m plan value
  | (.notFound, w') => addOwnProperty w' m name value
  | (_, w') => .ok (false, w')

def deleteAttr (w : World M O) (m : M) (name : String)
    (lookup : ClassLookup) : Except AssertionFailure (Bool × World M O) := do
  let r ← resolveAttrDeleteDescriptor w m name lookup
  match r.1 with
  | .found plan => deleteAttrFromPlan r.2 m plan
  | _ => return (false, r.2)

end CloverVM.BuiltinTypes.ModuleAttribute
