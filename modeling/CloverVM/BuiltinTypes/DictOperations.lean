import CloverVM.BuiltinTypes.DictProbe

/-!
# The operations of a dict

The operations of `dict.cpp` over the walks.  Each looks at the shape first: a
string key of a string-keyed dict takes the string path, every other request
makes the dict general and takes the general path.  An operation is `none` when
a walk over the table does not end.
-/

namespace CloverVM.BuiltinTypes.Dict

variable {K V T : Type} [DecidableEq K] [DecidableEq T]
variable (P : KeyProtocol K T)

/-- The exception of a request for a key that is not there. -/
inductive DictError where
  | keyError
deriving DecidableEq, Repr

/-- What an insertion does with the slot it found. -/
def storeAt (d : Dict K V) (hashIdx : Nat) (hash : Int) (key : K)
    (value : V) : Dict K V :=
  match d.slotAt hashIdx with
  | .entry idx => d.writeExisting idx value
  | _ => d.writeNewAtSlot hashIdx hash key value

def stringKeyedInsert (d : Dict K V) (key : K) (value : V) :
    Option (Dict K V) := do
  let d ← d.resizeGeneralIfNeeded
  let hash := P.hashValue key
  let hashIdx ← findEntryWithProvidedHash P d key hash
  return d.storeAt hashIdx hash key value

/-- The general store of `general_set_item` and `set_item_with_known_hash`. -/
def generalStore (d : Dict K V) (key : K) (value : V) (hash : Int) :
    Option (Dict K V) := do
  let d ← d.resizeGeneralIfNeeded
  let hashIdx ← findEntrySlotForGeneralInsert P d key hash
  return d.storeAt hashIdx hash key value

def generalSetItem (d : Dict K V) (key : K) (value : V) :
    Option (Dict K V) :=
  generalStore P d key value (P.hashValue key)

/-- Does the request take the string path? -/
def stringPath (d : Dict K V) (key : K) : Bool :=
  decide (d.shape = .stringKeyed) && P.isString key

def setItem (d : Dict K V) (key : K) (value : V) : Option (Dict K V) :=
  if stringPath P d key then stringKeyedInsert P d key value
  else generalSetItem P d.maybePromoteToGeneralShape key value

def setItemWithKnownHash (d : Dict K V) (key : K) (value : V) (hash : Int) :
    Option (Dict K V) :=
  if stringPath P d key then stringKeyedInsert P d key value
  else generalStore P d.maybePromoteToGeneralShape key value hash

/-- The entry a string path found, when its slot holds one. -/
def entryOfSlotAt (d : Dict K V) (hashIdx : Nat) : Option (Entry K V) :=
  match d.slotAt hashIdx with
  | .entry idx => d.entryAt idx
  | _ => none

def generalGetItemIfPresent (d : Dict K V) (key : K) :
    Option (Option V) := do
  let idx ← findEntryIndexForGeneralLookup P d key (P.hashValue key)
  return idx.bind fun idx => (d.entryAt idx).map Entry.value

def getItemIfPresent (d : Dict K V) (key : K) :
    Option (Dict K V × Option V) := do
  if stringPath P d key then
    let hashIdx ← findEntry P d key
    return (d, (d.entryOfSlotAt hashIdx).map Entry.value)
  else
    let d := d.maybePromoteToGeneralShape
    let value ← generalGetItemIfPresent P d key
    return (d, value)

def getItem (d : Dict K V) (key : K) :
    Option (Dict K V × Except DictError V) := do
  let (d, value) ← getItemIfPresent P d key
  match value with
  | some value => return (d, .ok value)
  | none => return (d, .error .keyError)

def getItemOrDefault (d : Dict K V) (key : K) (defaultValue : V) :
    Option (Dict K V × V) := do
  let (d, value) ← getItemIfPresent P d key
  return (d, value.getD defaultValue)

def generalContains (d : Dict K V) (key : K) : Option Bool := do
  let idx ← findEntryIndexForGeneralLookup P d key (P.hashValue key)
  return idx.isSome

def contains (d : Dict K V) (key : K) : Option (Dict K V × Bool) := do
  if stringPath P d key then
    let hashIdx ← findEntry P d key
    return (d, (d.slotAt hashIdx).isEntry)
  else
    let d := d.maybePromoteToGeneralShape
    let present ← generalContains P d key
    return (d, present)

/-! ## Deleting -/

/-- Takes out the entry a string path found. -/
def takeSlot (d : Dict K V) (hashIdx : Nat) : Dict K V × Option V :=
  match d.slotAt hashIdx with
  | .entry idx =>
      (d.deleteEntry hashIdx idx, (d.entryAt idx).map Entry.value)
  | _ => (d, none)

/-- Takes out the entry of a key on the general path.  The slot that the
lookup answered holds an entry, or the assertion of the source fails. -/
def generalPopItemIfPresent (d : Dict K V) (key : K) :
    Option (Dict K V × Option V) := do
  match ← findEntrySlotForGeneralLookup P d key (P.hashValue key) with
  | none => return (d, none)
  | some hashIdx =>
      let value := (d.entryOfSlotAt hashIdx).map Entry.value
      let d ← d.deleteEntryAtSlot hashIdx
      return (d, value)

def popItemIfPresent (d : Dict K V) (key : K) :
    Option (Dict K V × Option V) := do
  if stringPath P d key then
    let hashIdx ← findEntry P d key
    return d.takeSlot hashIdx
  else
    generalPopItemIfPresent P d.maybePromoteToGeneralShape key

def pop (d : Dict K V) (key : K) :
    Option (Dict K V × Except DictError V) := do
  let (d, value) ← popItemIfPresent P d key
  match value with
  | some value => return (d, .ok value)
  | none => return (d, .error .keyError)

def stringKeyedDelete (d : Dict K V) (key : K) :
    Option (Dict K V × Except DictError Unit) := do
  let hashIdx ← findEntry P d key
  match d.slotAt hashIdx with
  | .entry idx => return (d.deleteEntry hashIdx idx, .ok ())
  | _ => return (d, .error .keyError)

def generalDelItem (d : Dict K V) (key : K) :
    Option (Dict K V × Except DictError Unit) := do
  match ← findEntrySlotForGeneralLookup P d key (P.hashValue key) with
  | none => return (d, .error .keyError)
  | some hashIdx =>
      let d ← d.deleteEntryAtSlot hashIdx
      return (d, .ok ())

def delItem (d : Dict K V) (key : K) :
    Option (Dict K V × Except DictError Unit) :=
  if stringPath P d key then stringKeyedDelete P d key
  else generalDelItem P d.maybePromoteToGeneralShape key

def generalSetdefaultWithPresence (d : Dict K V) (key : K)
    (defaultValue : V) : Option (Dict K V × V × Bool) := do
  let hash := P.hashValue key
  let d ← d.resizeGeneralIfNeeded
  let hashIdx ← findEntrySlotForGeneralInsert P d key hash
  match d.entryOfSlotAt hashIdx with
  | some e => return (d, e.value, true)
  | none =>
      return (d.writeNewAtSlot hashIdx hash key defaultValue, defaultValue,
        false)

/-- `setdefault_with_presence`: the value, and whether it was there. -/
def setdefaultWithPresence (d : Dict K V) (key : K) (defaultValue : V) :
    Option (Dict K V × V × Bool) := do
  if stringPath P d key then
    let hashIdx ← findEntry P d key
    match d.entryOfSlotAt hashIdx with
    | some e => return (d, e.value, true)
    | none =>
        let d ← stringKeyedInsert P d key defaultValue
        return (d, defaultValue, false)
  else
    generalSetdefaultWithPresence P d.maybePromoteToGeneralShape key
      defaultValue

def setdefault (d : Dict K V) (key : K) (defaultValue : V) :
    Option (Dict K V × V) := do
  let (d, value, _) ← setdefaultWithPresence P d key defaultValue
  return (d, value)

/-! ## The whole dict -/

/-- The last valid entry, as the loop of `popitem` finds it. -/
def lastEntryIdx (d : Dict K V) : Option Nat :=
  (List.range d.entries.length).foldl
    (fun last idx => if (d.entryAt idx).isSome then some idx else last) none

/-- Takes out the last item.  The two `none` answers inside are the assertions
that there is a valid entry and that a slot refers to it. -/
def popitem (d : Dict K V) :
    Option (Dict K V × Except DictError (K × V)) := do
  if d.nValidEntries = 0 then
    return (d, .error .keyError)
  else
    let idx ← d.lastEntryIdx
    let last ← d.entryAt idx
    let hashIdx ← d.hashTable.findIdx? fun slot => decide (slot = .entry idx)
    let d ← d.deleteEntryAtSlot hashIdx
    return (d, .ok (last.key, last.value))

/-- A round of the copy constructor. -/
def copyEntry (acc : Dict K V) (entry : Option (Entry K V)) :
    Option (Dict K V) :=
  match entry with
  | some e => acc.copyStoredEntry e.key e.value e.hash
  | none => some acc

/-- The dict that the copy constructor fills. -/
def copyTarget (d : Dict K V) : Dict K V :=
  match d.shape with
  | .stringKeyed => empty
  | .general => (empty : Dict K V).promoteToGeneralShape

/-- The copy constructor. -/
def copy (d : Dict K V) : Option (Dict K V) :=
  d.entries.foldlM copyEntry d.copyTarget

/-- The loop of `update_from_dict` from entry `idx` on.  `other` gives the
dict that is read, which is a fixed one or the dict that is written. -/
def updateFromDictAt (other : Dict K V → Dict K V) :
    Nat → Nat → Dict K V → Option (Dict K V)
  | fuel, idx, d =>
      if idx < (other d).entries.length then
        match fuel with
        | 0 => none
        | fuel + 1 =>
            match (other d).entryAt idx with
            | none => updateFromDictAt other fuel (idx + 1) d
            | some e => do
                let d ← setItemWithKnownHash P d e.key e.value e.hash
                updateFromDictAt other fuel (idx + 1) d
      else
        some d

def updateFromDict (other : Dict K V → Dict K V) (d : Dict K V) :
    Option (Dict K V) :=
  updateFromDictAt P other (other d).entries.length 0 d

/-- `skip_dead_entries`. -/
def skipDeadEntries (d : Dict K V) : Nat → Nat → Nat
  | 0, idx => idx
  | fuel + 1, idx =>
      if idx < d.entries.length ∧ (d.entryAt idx).isNone then
        skipDeadEntries d fuel (idx + 1)
      else idx

/-- `++`: past the entry, and past the dead ones behind it. -/
def iteratorNext (d : Dict K V) (idx : Nat) : Nat :=
  d.skipDeadEntries d.entries.length (idx + 1)

/-- The items from an iterator position to the end. -/
def iterateFrom (d : Dict K V) : Nat → Nat → List (K × V)
  | 0, _ => []
  | fuel + 1, idx =>
      match d.entryAt idx with
      | some e => (e.key, e.value) :: iterateFrom d fuel (d.iteratorNext idx)
      | none => []

/-- Everything between `begin()` and `end()`. -/
def iterate (d : Dict K V) : List (K × V) :=
  d.iterateFrom d.entries.length (d.skipDeadEntries d.entries.length 0)

def size (d : Dict K V) : Nat := d.nValidEntries

end CloverVM.BuiltinTypes.Dict
