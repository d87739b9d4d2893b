import CloverVM.BuiltinTypes.ModuleAttribute
import CloverVM.ImportSystem.ModuleGlobal

/-!
# Inline caches of module globals

The instructions that load, store and delete a global, and those that store
and delete an attribute of a module.  A load and a store of a global each have
an inline cache, which matches as long as its validity cell is valid; a
matching cache is used without looking the name up again.

A program is any sequence of these instructions, of uncached stores and
deletes, and of `set_builtins_binding` and `delete_builtins_binding`.
-/

namespace CloverVM.ImportSystem.ModuleGlobalCache

open CloverVM.ObjectModel
open CloverVM.BuiltinTypes.ModuleObject
open CloverVM.BuiltinTypes.ModuleAttribute
open CloverVM.ImportSystem.ModuleGlobal

/-- Both caches of globals keep a cell and a slot. -/
structure ModuleGlobalInlineCache (M : Type) where
  lookupValidityCell : Option Nat := none
  slot : Option (ModuleGlobalSlotPlan M) := none
deriving DecidableEq, Repr

/-- `receiverShape` is none in an empty cache.  The class cell is the
environment's. -/
structure AttributeMutationInlineCache where
  receiverShape : Option Shape := none
  plan : AttributeMutationPlan := .changeClass
deriving DecidableEq, Repr

/-- The code that runs: the module it was defined in and the name in each
instruction. -/
structure Code (S M : Type) where
  definingModule : S → M
  name : S → String

structure State (S M O : Type) where
  world : World M O
  moduleGlobalReadCaches : S → ModuleGlobalInlineCache M := fun _ => {}
  moduleGlobalMutationCaches : S → ModuleGlobalInlineCache M := fun _ => {}
  attributeMutationCaches : S → AttributeMutationInlineCache := fun _ => {}

/-- What an instruction or a call leaves.  `notPresent` is the sentinel in the
accumulator. -/
inductive Outcome (M O : Type) where
  | value (v : GlobalValue M O)
  | notPresent
  | done
  | nameError
  | failed
deriving DecidableEq, Repr

inductive Operation (S M O : Type) where
  | ldaGlobal (site : S)
  | staGlobal (site : S) (value : GlobalValue M O)
  | delGlobal (site : S)
  | storeAttr (site : S) (receiver : M) (value : GlobalValue M O)
      (lookup : ClassLookup)
  | delAttr (site : S) (receiver : M) (lookup : ClassLookup)
  | loadModuleGlobal (m : M) (name : String)
  | storeModuleGlobal (m : M) (name : String) (value : GlobalValue M O)
  | deleteModuleGlobal (m : M) (name : String)
  | storeAttrUncached (m : M) (name : String) (value : GlobalValue M O)
      (lookup : ClassLookup)
  | deleteAttrUncached (m : M) (name : String) (lookup : ClassLookup)
  | setOwnProperty (m : M) (name : String) (value : GlobalValue M O)
  | deleteOwnProperty (m : M) (name : String)
  | setBuiltinsBinding (m : M) (value : GlobalValue M O)
  | deleteBuiltinsBinding (m : M)

variable {S M O : Type} [DecidableEq S] [DecidableEq M]

/-- `matches`, with the slot that a matching cache has. -/
def ModuleGlobalInlineCache.hit (c : ModuleGlobalInlineCache M)
    (isValid : Nat → Bool) : Option (ModuleGlobalSlotPlan M) :=
  match c.lookupValidityCell with
  | none => none
  | some cell => if isValid cell then c.slot else none

/-- `matches`, with the plan that a matching cache has. -/
def AttributeMutationInlineCache.hit (c : AttributeMutationInlineCache)
    (s : Shape) (lookup : ClassLookup) : Option AttributeMutationPlan :=
  if lookup.cellIsValid ∧ c.receiverShape = some s then some c.plan else none

namespace State

def setReadCache (st : State S M O) (site : S)
    (c : ModuleGlobalInlineCache M) : State S M O :=
  { st with
    moduleGlobalReadCaches := fun k =>
      if k = site then c else st.moduleGlobalReadCaches k }

def setMutationCache (st : State S M O) (site : S)
    (c : ModuleGlobalInlineCache M) : State S M O :=
  { st with
    moduleGlobalMutationCaches := fun k =>
      if k = site then c else st.moduleGlobalMutationCaches k }

def setAttributeCache (st : State S M O) (site : S)
    (c : AttributeMutationInlineCache) : State S M O :=
  { st with
    attributeMutationCaches := fun k =>
      if k = site then c else st.attributeMutationCaches k }

/-- Populates when the descriptor is cacheable. -/
def populateRead (st : State S M O) (site : S)
    (d : ModuleGlobalReadDescriptor M O) : State S M O :=
  match d.lookupValidityCell, d.plan with
  | some cell, .slot plan => st.setReadCache site ⟨some cell, some plan⟩
  | _, _ => st

def populateMutation (st : State S M O) (site : S)
    (plan : ModuleGlobalMutationPlan M) (cell : Option Nat) : State S M O :=
  match cell, plan with
  | some cell, .storeExisting plan =>
      st.setMutationCache site ⟨some cell, some plan⟩
  | _, _ => st

/-- An unblocked lookup is cacheable. -/
def populateAttribute (st : State S M O) (site : S) (s : Shape)
    (plan : AttributeMutationPlan) (lookup : ClassLookup) : State S M O :=
  if lookup.blocked then st else st.setAttributeCache site ⟨some s, plan⟩

def loaded : Option (GlobalValue M O) → Outcome M O
  | some v => .value v
  | none => .notPresent

def loadedOrNameError : Option (GlobalValue M O) → Outcome M O
  | some v => .value v
  | none => .nameError

def opLdaGlobalCacheMiss (code : Code S M) (st : State S M O) (site : S) :
    Except AssertionFailure (Outcome M O × State S M O) := do
  let r := resolveModuleGlobalReadDescriptor st.world
    (code.definingModule site) (code.name site)
  let st := ({ st with world := r.2 } : State S M O).populateRead site r.1
  let value ← loadModuleGlobalFromPlan st.world r.1.plan
  return (loadedOrNameError value, st)

/-- A matching cache loads without a check for a missing value. -/
def opLdaGlobal (code : Code S M) (st : State S M O) (site : S) :
    Except AssertionFailure (Outcome M O × State S M O) :=
  match (st.moduleGlobalReadCaches site).hit st.world.isValid with
  | none => opLdaGlobalCacheMiss code st site
  | some plan => do
      let value ← loadModuleGlobalFromSlotPlan st.world plan
      return (loaded value, st)

def doneOrNameError (ok : Bool) : Outcome M O :=
  if ok then .done else .nameError

def opStaGlobalCacheMiss (code : Code S M) (st : State S M O) (site : S)
    (value : GlobalValue M O) :
    Except AssertionFailure (Outcome M O × State S M O) := do
  let m := code.definingModule site
  let r ← resolveModuleGlobalWriteDescriptor st.world m (code.name site)
  match r.1 with
  | .found plan cell =>
      let st := ({ st with world := r.2 } : State S M O).populateMutation site
        plan cell
      let stored ← storeModuleGlobalFromPlan st.world m plan value
      return (doneOrNameError stored.1, { st with world := stored.2 })
  | _ => return (.nameError, { st with world := r.2 })

def opStaGlobal (code : Code S M) (st : State S M O) (site : S)
    (value : GlobalValue M O) :
    Except AssertionFailure (Outcome M O × State S M O) :=
  match (st.moduleGlobalMutationCaches site).hit st.world.isValid with
  | none => opStaGlobalCacheMiss code st site value
  | some plan => do
      let w ← storeModuleGlobalFromStoreExistingPlan st.world plan value
      return (.done, { st with world := w })

def opDelGlobal (code : Code S M) (st : State S M O) (site : S) :
    Except AssertionFailure (Outcome M O × State S M O) := do
  let deleted ← deleteModuleGlobal st.world (code.definingModule site)
    (code.name site)
  return (doneOrNameError deleted.1, { st with world := deleted.2 })

/-! ## Attributes -/

def doneOrFailed (ok : Bool) : Outcome M O :=
  if ok then .done else .failed

/-- The end of an operation that only changes the world. -/
def finish (st : State S M O) (r : Bool × World M O) :
    Outcome M O × State S M O :=
  (doneOrFailed r.1, { st with world := r.2 })

/-- An inline property is added by the plan that is cached, any other by
`add_own_property`. -/
def opStoreAttrAdd (st : State S M O) (site : S) (receiver : M)
    (name : String) (value : GlobalValue M O) :
    Except AssertionFailure (Outcome M O × State S M O) := do
  let s := (st.world.modules receiver).object.shape
  if s.disallowAttributeAddDelete then
    return (.failed, st)
  else
    let next ← s.deriveAdded name
    if next.2.kind = .inline then
      let w ← st.world.storeAdded receiver next.1 next.2 value
      let st := st.setAttributeCache site
        ⟨some s, .addOwnProperty next.1 next.2⟩
      return (.done, { st with world := w })
    else
      let r ← addOwnProperty st.world receiver name value
      return finish st r

def opStoreAttrCacheMiss (code : Code S M) (st : State S M O) (site : S)
    (receiver : M) (value : GlobalValue M O) (lookup : ClassLookup) :
    Except AssertionFailure (Outcome M O × State S M O) :=
  let s := (st.world.modules receiver).object.shape
  match resolveAttrWriteDescriptor st.world receiver (code.name site) lookup
    with
  | (.found plan, w) => do
      let st := ({ st with world := w } : State S M O).populateAttribute site
        s plan lookup
      let r ← storeAttrFromPlan st.world receiver plan value
      return finish st r
  | (.notFound, w) =>
      opStoreAttrAdd { st with world := w } site receiver (code.name site)
        value
  | (_, w) => .ok (.failed, { st with world := w })

/-- A matching cache writes the slot of an existing property without looking
at the descriptor. -/
def opStoreAttr (code : Code S M) (st : State S M O) (site : S) (receiver : M)
    (value : GlobalValue M O) (lookup : ClassLookup) :
    Except AssertionFailure (Outcome M O × State S M O) :=
  match (st.attributeMutationCaches site).hit
    (st.world.modules receiver).object.shape lookup with
  | some (.storeExisting location) => do
      let w ← st.world.writeStorageLocation receiver location (some value)
      return (.done, { st with world := w })
  | some (.addOwnProperty nextShape location) => do
      let w ← st.world.storeAdded receiver nextShape location value
      return (.done, { st with world := w })
  | _ => opStoreAttrCacheMiss code st site receiver value lookup

def opDelAttrCacheMiss (code : Code S M) (st : State S M O) (site : S)
    (receiver : M) (lookup : ClassLookup) :
    Except AssertionFailure (Outcome M O × State S M O) := do
  let s := (st.world.modules receiver).object.shape
  let r ← resolveAttrDeleteDescriptor st.world receiver (code.name site) lookup
  match r.1 with
  | .found plan =>
      let st := ({ st with world := r.2 } : State S M O).populateAttribute site
        s plan lookup
      let d ← deleteAttrFromPlan st.world receiver plan
      return (.done, { st with world := d.2 })
  | _ => return (.failed, { st with world := r.2 })

def opDelAttr (code : Code S M) (st : State S M O) (site : S) (receiver : M)
    (lookup : ClassLookup) :
    Except AssertionFailure (Outcome M O × State S M O) :=
  match (st.attributeMutationCaches site).hit
    (st.world.modules receiver).object.shape lookup with
  | some (.deleteOwnProperty nextShape location) => do
      let w ← st.world.clearDeleted receiver nextShape location
      return (.done, { st with world := w })
  | _ => opDelAttrCacheMiss code st site receiver lookup

/-- The modules as they are made, each with its name and its `__builtins__`,
before any code has run. -/
def start (name : M → GlobalValue M O)
    (builtins : M → Option (GlobalValue M O)) (machine : M) : State S M O :=
  { world :=
      { modules := fun m => .make (name m) (builtins m)
        globalBuiltinsModule := machine } }

def step (code : Code S M) (st : State S M O) :
    Operation S M O → Except AssertionFailure (Outcome M O × State S M O)
  | .ldaGlobal site => opLdaGlobal code st site
  | .staGlobal site value => opStaGlobal code st site value
  | .delGlobal site => opDelGlobal code st site
  | .storeAttr site receiver value lookup =>
      opStoreAttr code st site receiver value lookup
  | .delAttr site receiver lookup => opDelAttr code st site receiver lookup
  | .loadModuleGlobal m name => do
      let r ← loadModuleGlobal st.world m name
      return (loaded r.1, { st with world := r.2 })
  | .storeModuleGlobal m name value => do
      let r ← storeModuleGlobal st.world m name value
      return (doneOrNameError r.1, { st with world := r.2 })
  | .deleteModuleGlobal m name => do
      let r ← deleteModuleGlobal st.world m name
      return (doneOrNameError r.1, { st with world := r.2 })
  | .storeAttrUncached m name value lookup => do
      let r ← storeAttr st.world m name value lookup
      return finish st r
  | .deleteAttrUncached m name lookup => do
      let r ← deleteAttr st.world m name lookup
      return finish st r
  | .setOwnProperty m name value => do
      let r ← setOwnProperty st.world m name value
      return finish st r
  | .deleteOwnProperty m name => do
      let r ← deleteOwnProperty st.world m name
      return finish st r
  | .setBuiltinsBinding m value => do
      let w ← st.world.setBuiltinsBinding m value
      return (.done, { st with world := w })
  | .deleteBuiltinsBinding m => do
      let w ← st.world.deleteBuiltinsBinding m
      return (.done, { st with world := w })

def run (code : Code S M) (st : State S M O) :
    List (Operation S M O) →
      Except AssertionFailure (List (Outcome M O) × State S M O)
  | [] => .ok ([], st)
  | op :: ops => do
      let r ← step code st op
      let rest ← run code r.2 ops
      return (r.1 :: rest.1, rest.2)

end State

end CloverVM.ImportSystem.ModuleGlobalCache
