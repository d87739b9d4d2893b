import CloverVM.BuiltinTypes.DictRefinement

/-!
# Re-entrant equality

The general walks stop for the equality helper, which runs the `__eq__` of a
key, and that may use the same dict before it answers.  This file runs a dict
step by step: operations in progress stand on a stack, the one on top walks,
and every one below waits for an answer.  While an operation waits, anything
may be called.  The helper's answers are free, and so is raising.

Hashing stays a function of the key, so an update of the dict from another one
is a sequence of stores.  The answers of the operations are left out, since
nothing is said about them here.
-/

namespace CloverVM.BuiltinTypes.Dict

open CloverVM.Collections
open CloverVM.Collections.LinearProbe

variable {K V T : Type} [DecidableEq K] [DecidableEq T]

/-- What a general operation does when its walk has ended. -/
inductive Pending (V : Type) where
  | setItem (value : V)
  | setdefault (defaultValue : V)
  | delItem
  | pop
  | lookup
deriving DecidableEq, Repr

/-- Is it one of the operations that check the load and may write a new
entry? -/
def Pending.inserts : Pending V → Bool
  | .setItem _ => true
  | .setdefault _ => true
  | _ => false

/-- The walk is under way, or waits for the helper's answer about a key. -/
inductive Phase (K : Type) where
  | probing
  | comparing (entryIdx : Nat) (candidate : K)
deriving DecidableEq, Repr

/-- A general operation in progress. -/
structure Frame (K V : Type) where
  op : Pending V
  key : K
  probe : Probe
  phase : Phase K
deriving DecidableEq, Repr

/-- A dict and the operations in progress on it, the innermost first. -/
structure Machine (K V : Type) where
  dict : Dict K V
  frames : List (Frame K V)
deriving DecidableEq, Repr

/-- What can happen next. -/
inductive Event (K V : Type) where
  | call (request : Request K V)
  | round
  | answer (equal : Bool)
  | raise
  /-- The dict is copied, and the run follows the copy. -/
  | copy

/-- The general operation that a request with a key starts. -/
def Request.pending : Request K V → Option (K × Pending V)
  | .setItem key value => some (key, .setItem value)
  | .delItem key => some (key, .delItem)
  | .getItem key => some (key, .lookup)
  | .getItemOrDefault key _ => some (key, .lookup)
  | .contains key => some (key, .lookup)
  | .pop key => some (key, .pop)
  | .popItemIfPresent key => some (key, .pop)
  | .setdefault key value => some (key, .setdefault value)
  | .setdefaultWithPresence key value => some (key, .setdefault value)
  | .popitem => none
  | .clear => none

namespace Machine

/-- No operation, and a dict as its constructor leaves it. -/
def start : Machine K V := { dict := empty, frames := [] }

/-- Code can call the dict when no walk is under way. -/
def mayCall (m : Machine K V) : Bool :=
  match m.frames with
  | [] => true
  | frame :: _ => decide (frame.phase ≠ .probing)

/-- Only insertions check the load of the table. -/
def checkLoad (op : Pending V) (d : Dict K V) : Option (Dict K V) :=
  if op.inserts then d.resizeGeneralIfNeeded else some d

/-- A general operation up to the start of its walk. -/
def enterGeneral (P : KeyProtocol K T) (m : Machine K V) (key : K)
    (op : Pending V) : Option (Machine K V) := do
  let d := m.dict.maybePromoteToGeneralShape
  let hash := P.hashValue key
  let d ← checkLoad op d
  let frame : Frame K V :=
    { op := op, key := key, probe := d.probeStart hash, phase := .probing }
  return { dict := d, frames := frame :: m.frames }

/-- A call.  The string path and the operations without a key run to their end
at once. -/
def call (P : KeyProtocol K T) (m : Machine K V) (request : Request K V) :
    Option (Machine K V) :=
  if m.mayCall then
    match request.pending with
    | none => (perform P m.dict request).map fun r => { m with dict := r.1 }
    | some (key, op) =>
        if stringPath P m.dict key then
          (perform P m.dict request).map fun r => { m with dict := r.1 }
        else m.enterGeneral P key op
  else none

/-- The end of an insertion's walk. -/
def finishInsert (d : Dict K V) (frame : Frame K V) (hashIdx : Nat) :
    Dict K V :=
  match frame.op with
  | .setItem value => d.storeAt hashIdx frame.probe.hash frame.key value
  | .setdefault defaultValue =>
      match d.entryOfSlotAt hashIdx with
      | some _ => d
      | none =>
          d.writeNewAtSlot hashIdx frame.probe.hash frame.key defaultValue
  | _ => d

/-- The end of a lookup's walk. -/
def finishLookup (d : Dict K V) (frame : Frame K V) :
    Option (Nat × Nat) → Option (Dict K V)
  | none => some d
  | some (hashIdx, _) =>
      match frame.op with
      | .delItem => d.deleteEntryAtSlot hashIdx
      | .pop => d.deleteEntryAtSlot hashIdx
      | _ => some d

/-- The walk of the operation on top goes on, or the operation ends. -/
def resumeInsert (d : Dict K V) (frame : Frame K V) (rest : List (Frame K V)) :
    Probe ⊕ Nat → Machine K V
  | .inl probe =>
      { dict := d
        frames := { frame with probe := probe, phase := .probing } :: rest }
  | .inr hashIdx => { dict := finishInsert d frame hashIdx, frames := rest }

def resumeLookup (d : Dict K V) (frame : Frame K V) (rest : List (Frame K V)) :
    Probe ⊕ Option (Nat × Nat) → Option (Machine K V)
  | .inl probe =>
      some
        { dict := d
          frames := { frame with probe := probe, phase := .probing } :: rest }
  | .inr found =>
      (finishLookup d frame found).map fun d => { dict := d, frames := rest }

/-- The operation on top stops for the equality helper. -/
def await (d : Dict K V) (frame : Frame K V) (rest : List (Frame K V))
    (entryIdx : Nat) (candidate : K) : Machine K V :=
  { dict := d
    frames := { frame with phase := .comparing entryIdx candidate } :: rest }

/-- A round of the walk on top. -/
def round (d : Dict K V) (frame : Frame K V) (rest : List (Frame K V)) :
    Option (Machine K V) :=
  if frame.op.inserts then
    match d.insertProbeStep frame.key frame.probe with
    | .advance probe => some (resumeInsert d frame rest (.inl probe))
    | .answer hashIdx => some (resumeInsert d frame rest (.inr hashIdx))
    | .compare idx candidate => some (await d frame rest idx candidate)
  else
    match d.lookupProbeStep frame.key frame.probe with
    | .advance probe => resumeLookup d frame rest (.inl probe)
    | .answer found => resumeLookup d frame rest (.inr found)
    | .compare idx candidate => some (await d frame rest idx candidate)

/-- The helper answers the operation on top. -/
def answer (d : Dict K V) (frame : Frame K V) (rest : List (Frame K V))
    (entryIdx : Nat) (candidate : K) (equal : Bool) : Option (Machine K V) :=
  if frame.op.inserts then
    some (resumeInsert d frame rest
      (d.insertAfterCompare frame.probe entryIdx candidate equal))
  else
    resumeLookup d frame rest
      (d.lookupAfterCompare frame.probe entryIdx candidate equal)

/-- One step.  It is `none` for an event that cannot happen now. -/
def step (P : KeyProtocol K T) (m : Machine K V) :
    Event K V → Option (Machine K V)
  | .call request => m.call P request
  | .round =>
      match m.frames with
      | frame :: rest =>
          match frame.phase with
          | .probing => round m.dict frame rest
          | .comparing _ _ => none
      | [] => none
  | .answer equal =>
      match m.frames with
      | frame :: rest =>
          match frame.phase with
          | .probing => none
          | .comparing idx candidate =>
              answer m.dict frame rest idx candidate equal
      | [] => none
  | .raise =>
      match m.frames with
      | frame :: rest =>
          match frame.phase with
          | .probing => none
          | .comparing _ _ => some { m with frames := rest }
      | [] => none
  | .copy =>
      if m.mayCall then m.dict.copy.map fun d => { dict := d, frames := [] }
      else none

/-- The state after a sequence of events. -/
def run (P : KeyProtocol K T) : List (Event K V) → Machine K V →
    Option (Machine K V)
  | [], m => some m
  | event :: events, m => (m.step P event).bind (run P events)

end Machine

/-- The representation invariant: every live entry is pointed to by exactly
one slot, no two live entries hold the same key object, the count is that of
the live entries, and there is an empty slot. -/
structure RepInvariant (d : Dict K V) : Prop where
  pointed : ∀ idx e, d.entryAt idx = some e →
    ∃! s, d.slotAt s = .entry idx
  identity : ∀ i j e f, d.entryAt i = some e → d.entryAt j = some f →
    e.key = f.key → i = j
  count : d.nValidEntries = d.live.length
  room : ∃ s < d.hashTable.length, d.slotAt s = .notPresent

/-- The walk has passed a slot that now holds the key object. -/
def KeyBehind (d : Dict K V) (probe : Probe) (key : K) : Prop :=
  ∃ i j, j < i ∧ i < d.hashTable.length ∧
    position d.hashTable.length (maskHash probe.hash d.hashTable.length) i =
      probe.hashIdx ∧
    ∃ idx e,
      d.slotAt (position d.hashTable.length
        (maskHash probe.hash d.hashTable.length) j) = .entry idx ∧
      d.entryAt idx = some e ∧ e.key = key

/-- A slot is left for the empty ones when the walk ends here: it writes over
the tombstone it recorded, or the table has another empty slot. -/
def LeavesRoom (d : Dict K V) (probe : Probe) : Prop :=
  d.probeRecordedTombstoneStillAvailable probe = true ∨
    ∃ s < d.hashTable.length, s ≠ probe.hashIdx ∧ d.slotAt s = .notPresent

/-- The condition on a step.  Only a round in which the walk of an insertion
comes to an empty slot has one: the key object was not stored behind the walk,
and the table is not used up. -/
def StepSafe (m : Machine K V) (event : Event K V) : Prop :=
  match event, m.frames with
  | .round, frame :: _ =>
      frame.phase = .probing → frame.op.inserts = true →
        m.dict.slotAt frame.probe.hashIdx = .notPresent →
        ¬ KeyBehind m.dict frame.probe frame.key ∧
          LeavesRoom m.dict frame.probe
  | _, _ => True

end CloverVM.BuiltinTypes.Dict
