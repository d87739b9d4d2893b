import CloverVM.Collections.LinearProbe
import Mathlib.Data.List.DropRight

/-!
# The storage of a dict

A dict has a table of slots and an array of entries.  A slot is empty, a
tombstone, or the index of an entry; the entries stand in insertion order and a
deleted one stays behind as a dead entry until the table grows.  This file has
the data, the primitive steps on it (a new entry at a slot, a new value, a
deletion, growing, clearing) and the walks over the table, as `dict.h` and
`dict.cpp` have them.

An index into the entries is a natural number here.  The tables store it as an
`int32_t`, so the model speaks of tables that never had 2^31 entries.
-/

namespace CloverVM.BuiltinTypes

open CloverVM.Collections.LinearProbe

/-- What a dict learns about a key: the characters of a `str`, and for every
other key the answers of its own `__hash__` and `__eq__`. -/
structure KeyProtocol (K T : Type) where
  /-- The text of a key that converts to `String`. -/
  text : K → Option T
  stringHashNormalized : T → Int
  otherHash : K → Int
  otherEqual : K → K → Bool

namespace KeyProtocol

variable {K T : Type} [DecidableEq K] [DecidableEq T] (P : KeyProtocol K T)

/-- Does the key convert to `String`? -/
def isString (key : K) : Bool := (P.text key).isSome

/-- The hash helper: a string answers with its own hash. -/
def hashValue (key : K) : Int :=
  match P.text key with
  | some t => P.stringHashNormalized t
  | none => P.otherHash key

/-- The equality helper: two strings compare their text. -/
def testEqual (left right : K) : Bool :=
  match P.text left, P.text right with
  | some a, some b => decide (a = b)
  | _, _ => P.otherEqual left right

/-- Key equality as the probes see it: the same object, or equal. -/
def keyEqual (left right : K) : Bool :=
  decide (left = right) || P.testEqual left right

end KeyProtocol

/-! ## Data -/

/-- A cell of the hash table. -/
inductive Slot where
  | notPresent
  | tombstone
  | entry (idx : Nat)
deriving DecidableEq, Repr

/-- Does the slot hold the index of an entry? -/
def Slot.isEntry : Slot → Bool
  | .entry _ => true
  | _ => false

/-- An entry whose key is present. -/
structure Entry (K V : Type) where
  key : K
  value : V
  hash : Int
deriving DecidableEq, Repr

/-- The two shapes of an exact dict. -/
inductive DictShape where
  | stringKeyed
  | general
deriving DecidableEq, Repr

/-- A dict.  An invalidated entry, whose key is `not_present`, is `none`. -/
structure Dict (K V : Type) where
  shape : DictShape
  hashTable : List Slot
  entries : List (Option (Entry K V))
  nValidEntries : Nat
  tableGeneration : Nat
deriving DecidableEq, Repr

namespace Dict

variable {K V : Type}

def minTableSize : Nat := 16

/-- A dict as its constructor leaves it. -/
def empty : Dict K V :=
  { shape := .stringKeyed
    hashTable := List.replicate minTableSize .notPresent
    entries := []
    nValidEntries := 0
    tableGeneration := 0 }

/-- `hash_table[idx]`. -/
def slotAt (d : Dict K V) (idx : Nat) : Slot :=
  d.hashTable.getD idx .notPresent

/-- `entries[idx]`, when it is there and valid. -/
def entryAt (d : Dict K V) (idx : Nat) : Option (Entry K V) :=
  (d.entries[idx]?).join

/-- The live entries, oldest first. -/
def live (d : Dict K V) : List (Entry K V) := d.entries.filterMap id

/-- `static_cast<uint64_t>(hash) & (size - 1)`. -/
def maskHash (hash : Int) (size : Nat) : Nat :=
  (BitVec.ofInt 64 hash).toNat &&& (size - 1)

/-- The slot after `idx`, around the end of the table. -/
def nextIdx (d : Dict K V) (idx : Nat) : Nat :=
  (idx + 1) &&& (d.hashTable.length - 1)

/-- A walk over the table on behalf of one hash. -/
structure Probe where
  hash : Int
  hashIdx : Nat
  firstTombstoneIdx : Option Nat
  tableGeneration : Nat
deriving DecidableEq, Repr

def probeStart (d : Dict K V) (hash : Int) : Probe :=
  { hash := hash
    hashIdx := maskHash hash d.hashTable.length
    firstTombstoneIdx := none
    tableGeneration := d.tableGeneration }

def probeAdvance (d : Dict K V) (probe : Probe) : Probe :=
  { probe with hashIdx := d.nextIdx probe.hashIdx }

def probeRecordTombstone (probe : Probe) : Probe :=
  match probe.firstTombstoneIdx with
  | none => { probe with firstTombstoneIdx := some probe.hashIdx }
  | some _ => probe

def probeClearRecordedTombstone (probe : Probe) : Probe :=
  { probe with firstTombstoneIdx := none }

def probeRecordedTombstoneStillAvailable (d : Dict K V) (probe : Probe) :
    Bool :=
  match probe.firstTombstoneIdx with
  | none => false
  | some idx => decide (d.slotAt idx = .tombstone)

/-- The slot for a new entry when the walk ended at an empty slot: the first
tombstone it saw, if that is still one. -/
def probeWriteSlot (d : Dict K V) (probe : Probe) : Nat :=
  match probe.firstTombstoneIdx with
  | none => probe.hashIdx
  | some idx =>
      if d.slotAt idx = .tombstone then idx else probe.hashIdx

def writeNewAtSlot (d : Dict K V) (hashIdx : Nat) (hash : Int) (key : K)
    (value : V) : Dict K V :=
  { d with
    hashTable := d.hashTable.set hashIdx (.entry d.entries.length)
    entries := d.entries ++ [some { key := key, value := value, hash := hash }]
    nValidEntries := d.nValidEntries + 1 }

/-- Gives an entry a new value; key and hash stay. -/
def writeExisting (d : Dict K V) (entryIdx : Nat) (value : V) : Dict K V :=
  { d with
    entries := d.entries.modify entryIdx
      (Option.map fun e => { e with value := value }) }

/-- Kills the entry of a slot and leaves a tombstone there. -/
def deleteEntry (d : Dict K V) (hashIdx entryIdx : Nat) : Dict K V :=
  { d with
    hashTable := d.hashTable.set hashIdx .tombstone
    entries := d.entries.set entryIdx none
    nValidEntries := d.nValidEntries - 1 }

/-- `delete_entry_at_slot`, whose assertion asks for a slot with an entry. -/
def deleteEntryAtSlot (d : Dict K V) (hashIdx : Nat) : Option (Dict K V) :=
  match d.slotAt hashIdx with
  | .entry idx => some (d.deleteEntry hashIdx idx)
  | _ => none

def needsResizeForInsert (d : Dict K V) : Bool :=
  decide (d.entries.length > d.hashTable.length * 3 / 4)

def promoteToGeneralShape (d : Dict K V) : Dict K V :=
  { d with shape := .general, tableGeneration := d.tableGeneration + 1 }

def maybePromoteToGeneralShape (d : Dict K V) : Dict K V :=
  match d.shape with
  | .stringKeyed => d.promoteToGeneralShape
  | .general => d

def clear (d : Dict K V) : Dict K V :=
  { d with
    hashTable := List.replicate d.hashTable.length .notPresent
    entries := []
    nValidEntries := 0
    tableGeneration := d.tableGeneration + 1 }

/-- One round of the walk for an empty slot. -/
def emptySlotBody (table : List Slot) (hashIdx : Nat) : Nat ⊕ Nat :=
  if table.getD hashIdx .notPresent ≠ .notPresent then
    .inl ((hashIdx + 1) &&& (table.length - 1))
  else
    .inr hashIdx

/-- The first empty slot from the place of a hash. -/
def emptySlotFor (table : List Slot) (hash : Int) : Option Nat :=
  loop (emptySlotBody table) table.length (maskHash hash table.length)

/-- The compaction of `grow`, from entry `readIdx` on: live entries move down
to `writeIdx` and are placed in the new table. -/
def compactFrom (readIdx : Nat) : Nat → Nat → List Slot →
    List (Option (Entry K V)) →
    Option (Nat × List Slot × List (Option (Entry K V)))
  | 0, writeIdx, table, entries => some (writeIdx, table, entries)
  | remaining + 1, writeIdx, table, entries =>
      match (entries[readIdx]?).join with
      | none => compactFrom (readIdx + 1) remaining writeIdx table entries
      | some e => do
          let entries' :=
            if writeIdx ≠ readIdx then entries.set writeIdx (some e)
            else entries
          let hashIdx ← emptySlotFor table e.hash
          compactFrom (readIdx + 1) remaining (writeIdx + 1)
            (table.set hashIdx (.entry writeIdx)) entries'

/-- Doubles the table and drops the dead entries. -/
def grow (d : Dict K V) : Option (Dict K V) := do
  let (writeIdx, table, entries) ← compactFrom 0 d.entries.length 0
    (List.replicate (d.hashTable.length * 2) .notPresent) d.entries
  return { d with
    hashTable := table
    entries := entries.take writeIdx
    tableGeneration := d.tableGeneration + 1 }

def resizeGeneralIfNeeded (d : Dict K V) : Option (Dict K V) :=
  if d.needsResizeForInsert then d.grow else some d

/-- `copy_stored_entry`: a new entry with a hash that is known, in a table
without tombstones. -/
def copyStoredEntry (d : Dict K V) (key : K) (value : V) (hash : Int) :
    Option (Dict K V) := do
  let d ← d.resizeGeneralIfNeeded
  let hashIdx ← emptySlotFor d.hashTable hash
  return d.writeNewAtSlot hashIdx hash key value

end Dict

end CloverVM.BuiltinTypes
