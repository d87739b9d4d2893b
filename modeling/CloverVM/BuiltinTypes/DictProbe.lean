import CloverVM.BuiltinTypes.DictInvariant

/-!
# Probing a dict

The walks that look a key up, or look for the slot of a new one.  A round of a
general walk looks at one slot; at an entry with the right hash and another key
object it stops for the equality helper, and the code after the helper goes on
only when table, slot and entry are still what they were.  The rounds are
definitions of their own.  Here they are run with a helper that answers at
once; the string-keyed walk compares texts and never stops.
-/

namespace CloverVM.BuiltinTypes.Dict

open CloverVM.Collections.LinearProbe

variable {K V T : Type} [DecidableEq K] [DecidableEq T]

/-! ## One round -/

/-- What a round of a general walk comes to: another slot, the end, or a key
for the equality helper. -/
inductive ProbeStep (K α : Type) where
  | advance (probe : Probe)
  | answer (result : α)
  | compare (entryIdx : Nat) (candidate : K)

/-- The round of the walk for an insertion, which answers with a slot.  No slot
refers to a dead entry. -/
def insertProbeStep (d : Dict K V) (key : K) (probe : Probe) :
    ProbeStep K Nat :=
  match d.slotAt probe.hashIdx with
  | .notPresent => .answer (d.probeWriteSlot probe)
  | .tombstone => .advance (d.probeAdvance (probeRecordTombstone probe))
  | .entry idx =>
      match d.entryAt idx with
      | some e =>
          if e.hash = probe.hash then
            if e.key = key then .answer probe.hashIdx
            else .compare idx e.key
          else .advance (d.probeAdvance probe)
      | none => .advance (d.probeAdvance probe)

/-- The round of the walk for a lookup, which answers with the slot and the
entry it found. -/
def lookupProbeStep (d : Dict K V) (key : K) (probe : Probe) :
    ProbeStep K (Option (Nat × Nat)) :=
  match d.slotAt probe.hashIdx with
  | .notPresent => .answer none
  | .tombstone => .advance (d.probeAdvance probe)
  | .entry idx =>
      match d.entryAt idx with
      | some e =>
          if e.hash = probe.hash then
            if e.key = key then .answer (some (probe.hashIdx, idx))
            else .compare idx e.key
          else .advance (d.probeAdvance probe)
      | none => .advance (d.probeAdvance probe)

/-- Is the entry that was compared still where it was? -/
def entryStillMatches (d : Dict K V) (generation hashIdx entryIdx : Nat)
    (candidate : K) : Bool :=
  decide (d.tableGeneration = generation) &&
    decide (d.slotAt hashIdx = .entry entryIdx) &&
    (d.entryAt entryIdx).any fun e => decide (e.key = candidate)

/-- The walk for an insertion after the equality helper has answered. -/
def insertAfterCompare (d : Dict K V) (probe : Probe) (entryIdx : Nat)
    (candidate : K) (equal : Bool) : Probe ⊕ Nat :=
  if d.entryStillMatches probe.tableGeneration probe.hashIdx entryIdx
      candidate then
    let probe :=
      if d.probeRecordedTombstoneStillAvailable probe then probe
      else probeClearRecordedTombstone probe
    if equal then .inr probe.hashIdx else .inl (d.probeAdvance probe)
  else
    .inl (d.probeStart probe.hash)

/-- The walk for a lookup after the equality helper has answered. -/
def lookupAfterCompare (d : Dict K V) (probe : Probe) (entryIdx : Nat)
    (candidate : K) (equal : Bool) : Probe ⊕ Option (Nat × Nat) :=
  if d.entryStillMatches probe.tableGeneration probe.hashIdx entryIdx
      candidate then
    if equal then .inr (some (probe.hashIdx, entryIdx))
    else .inl (d.probeAdvance probe)
  else
    .inl (d.probeStart probe.hash)

/-- A round whose comparison is answered at once. -/
def settle {α : Type} (P : KeyProtocol K T) (key : K) (step : ProbeStep K α)
    (afterCompare : Nat → K → Bool → Probe ⊕ α) : Probe ⊕ α :=
  match step with
  | .advance probe => .inl probe
  | .answer result => .inr result
  | .compare idx candidate =>
      afterCompare idx candidate (P.testEqual candidate key)

def insertBody (P : KeyProtocol K T) (d : Dict K V) (key : K)
    (probe : Probe) : Probe ⊕ Nat :=
  settle P key (d.insertProbeStep key probe) (d.insertAfterCompare probe)

def lookupBody (P : KeyProtocol K T) (d : Dict K V) (key : K)
    (probe : Probe) : Probe ⊕ Option (Nat × Nat) :=
  settle P key (d.lookupProbeStep key probe) (d.lookupAfterCompare probe)

def findEntrySlotForGeneralInsert (P : KeyProtocol K T) (d : Dict K V)
    (key : K) (hash : Int) : Option Nat :=
  loop (insertBody P d key) d.hashTable.length (d.probeStart hash)

/-- The walk that `find_entry_index_for_general_lookup` and
`find_entry_slot_for_general_lookup` share. -/
def generalLookup (P : KeyProtocol K T) (d : Dict K V) (key : K)
    (hash : Int) : Option (Option (Nat × Nat)) :=
  loop (lookupBody P d key) d.hashTable.length (d.probeStart hash)

def findEntryIndexForGeneralLookup (P : KeyProtocol K T) (d : Dict K V)
    (key : K) (hash : Int) : Option (Option Nat) :=
  (generalLookup P d key hash).map (Option.map Prod.snd)

def findEntrySlotForGeneralLookup (P : KeyProtocol K T) (d : Dict K V)
    (key : K) (hash : Int) : Option (Option Nat) :=
  (generalLookup P d key hash).map (Option.map Prod.fst)

/-- The two indices of `find_entry_with_provided_hash`. -/
structure StringProbe where
  hashIdx : Nat
  tombstoneHashIdx : Option Nat

/-- A round of the string-keyed walk.  It compares the text of every entry. -/
def stringBody (P : KeyProtocol K T) (d : Dict K V) (key : K)
    (probe : StringProbe) : StringProbe ⊕ Nat :=
  match d.slotAt probe.hashIdx with
  | .notPresent => .inr (probe.tombstoneHashIdx.getD probe.hashIdx)
  | .tombstone =>
      .inl
        { hashIdx := d.nextIdx probe.hashIdx
          tombstoneHashIdx :=
            some (probe.tombstoneHashIdx.getD probe.hashIdx) }
  | .entry idx =>
      if (d.entryAt idx).any
          (fun e => decide (P.text key = P.text e.key)) then
        .inr probe.hashIdx
      else .inl { probe with hashIdx := d.nextIdx probe.hashIdx }

/-- The slot of a string key, or the slot where it would go. -/
def findEntryWithProvidedHash (P : KeyProtocol K T) (d : Dict K V) (key : K)
    (hash : Int) : Option Nat :=
  loop (stringBody P d key) d.hashTable.length
    { hashIdx := maskHash hash d.hashTable.length, tombstoneHashIdx := none }

def findEntry (P : KeyProtocol K T) (d : Dict K V) (key : K) : Option Nat :=
  findEntryWithProvidedHash P d key (P.hashValue key)

/-! ## What a walk finds -/

/-- A key protocol under which a dict makes sense: equality is an equivalence
and equal keys have equal hashes. -/
structure Lawful (P : KeyProtocol K T) : Prop where
  equivalence : Equivalence fun a b => P.keyEqual a b = true
  hashConsistent : ∀ a b, P.keyEqual a b = true →
    P.hashValue a = P.hashValue b

section Specs

variable (P : KeyProtocol K T) (d : Dict K V) (key : K)

/-- The slot leads to a live entry with an equal key. -/
def Hit (s idx : Nat) : Prop :=
  d.slotAt s = .entry idx ∧
    ∃ e, d.entryAt idx = some e ∧ P.keyEqual e.key key = true

/-- No live key is equal. -/
def Miss : Prop := ∀ e ∈ d.live, P.keyEqual e.key key = false

/-- A slot over which a walk for the key goes on. -/
def Passed (s : Nat) : Prop :=
  d.slotAt s = .tombstone ∨
    ∃ idx e, d.slotAt s = .entry idx ∧ d.entryAt idx = some e ∧
      P.keyEqual e.key key = false

/-- Where an insertion of the key may write: over the value of the equal key,
or a new entry at a free slot on the walk. -/
def InsertSlot (s : Nat) : Prop :=
  (∃ idx, Hit P d key s idx) ∨
    Miss P d key ∧ s < d.hashTable.length ∧
      (∀ idx, d.slotAt s ≠ .entry idx) ∧
      d.WalkReaches (P.hashValue key) s

/-- The place of a walk for the key after `i` rounds. -/
abbrev At (i s : Nat) : Prop :=
  Walked (Passed P d key) d.hashTable.length
    (maskHash (P.hashValue key) d.hashTable.length) i s

variable {P d key}

theorem Passed.occupied {s : Nat} (h : Passed P d key s) : d.Occupied s := by
  unfold Occupied
  rcases h with h | ⟨idx, e, h, _⟩
  · rw [h]
    exact fun h => Slot.noConfusion h
  · rw [h]
    exact fun h => Slot.noConfusion h

section Walks

variable {i s : Nat}

theorem At.lt (h : At P d key i s)
    (hroom : ∃ s < d.hashTable.length, d.slotAt s = .notPresent) :
    i < d.hashTable.length := by
  obtain ⟨free, hlt, hfree⟩ := hroom
  exact h.lt_size ⟨free, hlt, fun hp => hp.occupied hfree⟩

theorem At.place_lt (hwf : WellFormed P d) (h : At P d key i s) :
    s < d.hashTable.length := by
  rw [← h.place]
  exact position_lt _ _ hwf.length_pos

theorem At.next (hwf : WellFormed P d) (h : At P d key i s)
    (hp : Passed P d key s) : At P d key (i + 1) (d.nextIdx s) :=
  h.advance hwf.powerOfTwo hp

theorem At.walkReaches (h : At P d key i s) (hi : i < d.hashTable.length) :
    d.WalkReaches (P.hashValue key) s :=
  (h.reaches hi).mono (fun _ hq => hq.occupied)

/-- A walk that comes to an empty slot has seen every key that could be
equal. -/
theorem At.miss (hP : Lawful P) (hwf : WellFormed P d)
    (h : At P d key i s) (hs : d.slotAt s = .notPresent) : Miss P d key := by
  intro e he
  rw [← Bool.not_eq_true]
  intro heq
  obtain ⟨idx, hidx⟩ := mem_live_iff.mp he
  obtain ⟨q, hq⟩ := hwf.slotOfEntry idx e hidx
  have hreach := hwf.slot_spec hq hidx
  rw [hwf.storedHash idx e hidx, hP.hashConsistent _ _ heq] at hreach
  have hne : q ≠ s := by
    rintro rfl
    exact Slot.noConfusion (hs.symm.trans hq)
  rcases h.passed_of_reaches (fun hocc => hocc hs) hreach hne with
    htomb | ⟨idx', e', hq', he', hfalse⟩
  · exact Slot.noConfusion (hq.symm.trans htomb)
  · cases hq.symm.trans hq'
    cases hidx.symm.trans he'
    rw [heq] at hfalse
    exact Bool.noConfusion hfalse

end Walks

/-- The recorded tombstone of a walk is a free slot on it. -/
def RecordedFree (P : KeyProtocol K T) (d : Dict K V) (key : K)
    (tombstone : Option Nat) : Prop :=
  ∀ t, tombstone = some t →
    d.slotAt t = .tombstone ∧ d.WalkReaches (P.hashValue key) t

/-- The first tombstone recorded, or the empty slot at the end of the walk. -/
theorem insertSlot_of_miss (hwf : WellFormed P d) {i s : Nat}
    {tombstone : Option Nat} (h : At P d key i s)
    (hroom : ∃ s < d.hashTable.length, d.slotAt s = .notPresent)
    (hmiss : Miss P d key) (hs : d.slotAt s = .notPresent)
    (ht : RecordedFree P d key tombstone) :
    InsertSlot P d key (tombstone.getD s) := by
  rcases tombstone with _ | t
  · refine .inr ⟨hmiss, h.place_lt hwf, ?_, h.walkReaches (h.lt hroom)⟩
    intro idx hidx
    exact Slot.noConfusion (hs.symm.trans hidx)
  · obtain ⟨hslot, hreach⟩ := ht t rfl
    have hlt : t < d.hashTable.length := lt_of_occupied (by
      rw [hslot]
      exact fun h => Slot.noConfusion h)
    refine .inr ⟨hmiss, hlt, ?_, hreach⟩
    intro idx hidx
    exact Slot.noConfusion (hslot.symm.trans hidx)

theorem recordedFree_record {i s : Nat} (h : At P d key i s)
    (hroom : ∃ s < d.hashTable.length, d.slotAt s = .notPresent)
    (hs : d.slotAt s = .tombstone) {tombstone : Option Nat}
    (ht : RecordedFree P d key tombstone) :
    RecordedFree P d key (some (tombstone.getD s)) := by
  intro t heq
  cases heq
  rcases tombstone with _ | t
  · exact ⟨hs, h.walkReaches (h.lt hroom)⟩
  · exact ht t rfl

/-! ## The general walks -/

/-- The comparison of a candidate with the hash of the key. -/
theorem keyEqual_of_ne {candidate : K} (h : candidate ≠ key) :
    P.keyEqual candidate key = P.testEqual candidate key := by
  unfold KeyProtocol.keyEqual
  rw [decide_eq_false h, Bool.false_or]

theorem keyEqual_self (a : K) : P.keyEqual a a = true := by
  unfold KeyProtocol.keyEqual
  rw [decide_eq_true rfl, Bool.true_or]

theorem passed_of_hash_ne (hP : Lawful P) (hwf : WellFormed P d)
    {s idx : Nat} {e : Entry K V} (hs : d.slotAt s = .entry idx)
    (he : d.entryAt idx = some e) (hne : e.hash ≠ P.hashValue key) :
    Passed P d key s := by
  refine .inr ⟨idx, e, hs, he, ?_⟩
  rw [← Bool.not_eq_true]
  intro heq
  apply hne
  rw [hwf.storedHash idx e he]
  exact hP.hashConsistent _ _ heq

theorem entryStillMatches_self {generation s idx : Nat} {e : Entry K V}
    (hg : generation = d.tableGeneration) (hs : d.slotAt s = .entry idx)
    (he : d.entryAt idx = some e) :
    d.entryStillMatches generation s idx e.key = true := by
  unfold entryStillMatches
  rw [hg, hs, he]
  simp only [decide_true, Bool.true_and, Option.any_some]

/-- A walk for an insertion after `i` rounds. -/
structure InsertWalk (P : KeyProtocol K T) (d : Dict K V) (key : K) (i : Nat)
    (probe : Probe) : Prop where
  walk : At P d key i probe.hashIdx
  hash : probe.hash = P.hashValue key
  generation : probe.tableGeneration = d.tableGeneration
  tombstone : RecordedFree P d key probe.firstTombstoneIdx

theorem firstTombstoneIdx_record (probe : Probe) :
    (probeRecordTombstone probe).firstTombstoneIdx =
      some (probe.firstTombstoneIdx.getD probe.hashIdx) := by
  unfold probeRecordTombstone
  rcases h : probe.firstTombstoneIdx with _ | t
  · rfl
  · exact h

theorem probeRecordTombstone_rest (probe : Probe) :
    (probeRecordTombstone probe).hashIdx = probe.hashIdx ∧
      (probeRecordTombstone probe).hash = probe.hash ∧
      (probeRecordTombstone probe).tableGeneration =
        probe.tableGeneration := by
  unfold probeRecordTombstone
  split <;> exact ⟨rfl, rfl, rfl⟩

omit [DecidableEq K] [DecidableEq T] in
theorem probeWriteSlot_eq {probe : Probe}
    (h : RecordedFree P d key probe.firstTombstoneIdx) :
    d.probeWriteSlot probe =
      probe.firstTombstoneIdx.getD probe.hashIdx := by
  unfold probeWriteSlot
  rcases ht : probe.firstTombstoneIdx with _ | t
  · rfl
  · show (if d.slotAt t = .tombstone then t else probe.hashIdx) = t
    exact if_pos (h t ht).1

omit [DecidableEq T] in
/-- Nothing has happened to the table while the helper ran. -/
theorem insertAfterCompare_self {probe : Probe} {idx : Nat} {e : Entry K V}
    (hg : probe.tableGeneration = d.tableGeneration)
    (ht : RecordedFree P d key probe.firstTombstoneIdx)
    (hs : d.slotAt probe.hashIdx = .entry idx)
    (he : d.entryAt idx = some e) (equal : Bool) :
    d.insertAfterCompare probe idx e.key equal =
      if equal then .inr probe.hashIdx else .inl (d.probeAdvance probe) := by
  have hkeep : (if d.probeRecordedTombstoneStillAvailable probe then probe
      else probeClearRecordedTombstone probe) = probe := by
    rcases probe with ⟨hash, hashIdx, _ | t, generation⟩
    · rfl
    · rw [if_pos]
      exact decide_eq_true (ht t rfl).1
  unfold insertAfterCompare
  rw [if_pos (entryStillMatches_self hg hs he), hkeep]

theorem insertBody_spec (hP : Lawful P) (hwf : WellFormed P d)
    (hroom : ∃ s < d.hashTable.length, d.slotAt s = .notPresent) (i : Nat)
    (probe : Probe) (h : InsertWalk P d key i probe) :
    (∃ probe', insertBody P d key probe = .inl probe' ∧
      InsertWalk P d key (i + 1) probe') ∨
      ∃ s, insertBody P d key probe = .inr s ∧ InsertSlot P d key s := by
  have hadvance : Passed P d key probe.hashIdx →
      InsertWalk P d key (i + 1) (d.probeAdvance probe) := fun hp =>
    { walk := h.walk.next hwf hp
      hash := h.hash
      generation := h.generation
      tombstone := h.tombstone }
  unfold insertBody insertProbeStep
  rcases hs : d.slotAt probe.hashIdx with _ | _ | idx
  · -- an empty slot ends the walk
    refine .inr ⟨_, rfl, ?_⟩
    rw [probeWriteSlot_eq h.tombstone]
    exact insertSlot_of_miss hwf h.walk hroom (h.walk.miss hP hwf hs) hs
      h.tombstone
  · -- a tombstone is recorded
    obtain ⟨hidx, hhash, hgen⟩ := probeRecordTombstone_rest probe
    refine .inl ⟨_, rfl, ?_⟩
    exact
      { walk := by
          show At P d key (i + 1) (d.nextIdx (probeRecordTombstone probe).hashIdx)
          rw [hidx]
          exact h.walk.next hwf (.inl hs)
        hash := hhash.trans h.hash
        generation := hgen.trans h.generation
        tombstone := by
          show RecordedFree P d key
            (probeRecordTombstone probe).firstTombstoneIdx
          rw [firstTombstoneIdx_record]
          exact recordedFree_record h.walk hroom hs h.tombstone }
  · obtain ⟨e, he, _⟩ := hwf.entryOfSlot _ idx hs
    simp only [he]
    by_cases hhash : e.hash = probe.hash
    · rw [if_pos hhash]
      by_cases hkey : e.key = key
      · rw [if_pos hkey]
        refine .inr ⟨_, rfl, .inl ⟨idx, hs, e, he, ?_⟩⟩
        rw [hkey]
        exact keyEqual_self key
      · -- another key object: the helper decides
        rw [if_neg hkey]
        show (∃ probe', d.insertAfterCompare probe idx e.key
          (P.testEqual e.key key) = .inl probe' ∧ _) ∨
          ∃ s, d.insertAfterCompare probe idx e.key
            (P.testEqual e.key key) = .inr s ∧ _
        rw [insertAfterCompare_self h.generation h.tombstone hs he,
          ← keyEqual_of_ne hkey]
        by_cases hequal : P.keyEqual e.key key = true
        · rw [if_pos hequal]
          exact .inr ⟨_, rfl, .inl ⟨idx, hs, e, he, hequal⟩⟩
        · rw [if_neg hequal]
          exact .inl ⟨_, rfl, hadvance
            (.inr ⟨idx, e, hs, he, Bool.not_eq_true _ ▸ hequal⟩)⟩
    · rw [if_neg hhash]
      exact .inl ⟨_, rfl, hadvance
        (passed_of_hash_ne hP hwf hs he (h.hash ▸ hhash))⟩

/-- The slot of the equal key, or a free slot when no live key is equal. -/
theorem findEntrySlotForGeneralInsert_spec (hP : Lawful P)
    (hwf : WellFormed P d)
    (hroom : ∃ s < d.hashTable.length, d.slotAt s = .notPresent) (key : K) :
    ∃ s, findEntrySlotForGeneralInsert P d key (P.hashValue key) = some s ∧
      InsertSlot P d key s :=
  loop_spec (fun _ _ h => h.walk.lt hroom)
    (insertBody_spec hP hwf hroom) _ 0 _ (by omega)
    { walk := walked_start (maskHash_lt _ hwf.length_pos)
      hash := rfl
      generation := rfl
      tombstone := fun _ h => nomatch h }

/-- A walk for a lookup after `i` rounds. -/
structure LookupWalk (P : KeyProtocol K T) (d : Dict K V) (key : K) (i : Nat)
    (probe : Probe) : Prop where
  walk : At P d key i probe.hashIdx
  hash : probe.hash = P.hashValue key
  generation : probe.tableGeneration = d.tableGeneration

/-- What a lookup answers. -/
def LookupAnswer (P : KeyProtocol K T) (d : Dict K V) (key : K) :
    Option (Nat × Nat) → Prop
  | some (s, idx) => Hit P d key s idx
  | none => Miss P d key

theorem lookupBody_spec (hP : Lawful P) (hwf : WellFormed P d) (i : Nat)
    (probe : Probe) (h : LookupWalk P d key i probe) :
    (∃ probe', lookupBody P d key probe = .inl probe' ∧
      LookupWalk P d key (i + 1) probe') ∨
      ∃ r, lookupBody P d key probe = .inr r ∧ LookupAnswer P d key r := by
  have hadvance : Passed P d key probe.hashIdx →
      LookupWalk P d key (i + 1) (d.probeAdvance probe) := fun hp =>
    { walk := h.walk.next hwf hp
      hash := h.hash
      generation := h.generation }
  unfold lookupBody lookupProbeStep
  rcases hs : d.slotAt probe.hashIdx with _ | _ | idx
  · exact .inr ⟨_, rfl, h.walk.miss hP hwf hs⟩
  · exact .inl ⟨_, rfl, hadvance (.inl hs)⟩
  · obtain ⟨e, he, _⟩ := hwf.entryOfSlot _ idx hs
    simp only [he]
    by_cases hhash : e.hash = probe.hash
    · rw [if_pos hhash]
      by_cases hkey : e.key = key
      · rw [if_pos hkey]
        refine .inr ⟨_, rfl, hs, e, he, ?_⟩
        rw [hkey]
        exact keyEqual_self key
      · rw [if_neg hkey]
        show (∃ probe', d.lookupAfterCompare probe idx e.key
          (P.testEqual e.key key) = .inl probe' ∧ _) ∨
          ∃ r, d.lookupAfterCompare probe idx e.key
            (P.testEqual e.key key) = .inr r ∧ _
        unfold lookupAfterCompare
        rw [if_pos (entryStillMatches_self h.generation hs he),
          ← keyEqual_of_ne hkey]
        by_cases hequal : P.keyEqual e.key key = true
        · rw [if_pos hequal]
          exact .inr ⟨_, rfl, hs, e, he, hequal⟩
        · rw [if_neg hequal]
          exact .inl ⟨_, rfl, hadvance
            (.inr ⟨idx, e, hs, he, Bool.not_eq_true _ ▸ hequal⟩)⟩
    · rw [if_neg hhash]
      exact .inl ⟨_, rfl, hadvance
        (passed_of_hash_ne hP hwf hs he (h.hash ▸ hhash))⟩

/-- The entry of the equal key, or none when there is none. -/
theorem generalLookup_spec (hP : Lawful P) (hwf : WellFormed P d)
    (hroom : ∃ s < d.hashTable.length, d.slotAt s = .notPresent) (key : K) :
    ∃ r, generalLookup P d key (P.hashValue key) = some r ∧
      LookupAnswer P d key r :=
  loop_spec (fun _ _ h => h.walk.lt hroom) (lookupBody_spec hP hwf) _ 0 _
    (by omega)
    { walk := walked_start (maskHash_lt _ hwf.length_pos)
      hash := rfl
      generation := rfl }

/-- On two strings key equality is equality of the texts. -/
theorem keyEqual_strings {a b : K} (ha : P.isString a = true)
    (hb : P.isString b = true) :
    P.keyEqual a b = true ↔ P.text b = P.text a := by
  unfold KeyProtocol.isString at ha hb
  obtain ⟨s, hs⟩ := Option.isSome_iff_exists.mp ha
  obtain ⟨t, ht⟩ := Option.isSome_iff_exists.mp hb
  unfold KeyProtocol.keyEqual KeyProtocol.testEqual
  rw [hs, ht, Bool.or_eq_true, decide_eq_true_iff, decide_eq_true_iff,
    Option.some_inj]
  constructor
  · rintro (rfl | h)
    · exact Option.some.inj (ht.symm.trans hs)
    · exact h.symm
  · exact fun h => .inr h.symm

/-- A string-keyed walk after `i` rounds. -/
structure StringWalk (P : KeyProtocol K T) (d : Dict K V) (key : K) (i : Nat)
    (probe : StringProbe) : Prop where
  walk : At P d key i probe.hashIdx
  tombstone : RecordedFree P d key probe.tombstoneHashIdx

theorem stringBody_spec (hP : Lawful P) (hwf : WellFormed P d)
    (hshape : d.shape = .stringKeyed) (hkey : P.isString key = true)
    (hroom : ∃ s < d.hashTable.length, d.slotAt s = .notPresent) (i : Nat)
    (probe : StringProbe) (h : StringWalk P d key i probe) :
    (∃ probe', stringBody P d key probe = .inl probe' ∧
      StringWalk P d key (i + 1) probe') ∨
      ∃ s, stringBody P d key probe = .inr s ∧ InsertSlot P d key s := by
  unfold stringBody
  rcases hs : d.slotAt probe.hashIdx with _ | _ | idx
  · exact .inr ⟨_, rfl, insertSlot_of_miss hwf h.walk hroom
      (h.walk.miss hP hwf hs) hs h.tombstone⟩
  · refine .inl ⟨_, rfl, ?_⟩
    exact
      { walk := h.walk.next hwf (.inl hs)
        tombstone := recordedFree_record h.walk hroom hs h.tombstone }
  · obtain ⟨e, he, _⟩ := hwf.entryOfSlot _ idx hs
    simp only [he, Option.any_some]
    have hiff := keyEqual_strings (hwf.stringKeys hshape idx e he) hkey
    by_cases htext : P.text key = P.text e.key
    · rw [if_pos (decide_eq_true htext)]
      exact .inr ⟨_, rfl, .inl ⟨idx, hs, e, he, hiff.mpr htext⟩⟩
    · rw [if_neg (by rw [decide_eq_true_iff]; exact htext)]
      have hfalse : P.keyEqual e.key key = false := by
        rw [← Bool.not_eq_true]
        exact fun heq => htext (hiff.mp heq)
      refine .inl ⟨_, rfl, ?_⟩
      exact
        { walk := h.walk.next hwf (.inr ⟨idx, e, hs, he, hfalse⟩)
          tombstone := h.tombstone }

/-- The slot of a string key in a string-keyed dict, or where it would go. -/
theorem findEntry_spec (hP : Lawful P) (hwf : WellFormed P d)
    (hshape : d.shape = .stringKeyed) (hkey : P.isString key = true)
    (hroom : ∃ s < d.hashTable.length, d.slotAt s = .notPresent) :
    ∃ s, findEntry P d key = some s ∧ InsertSlot P d key s :=
  loop_spec (fun _ _ h => h.walk.lt hroom)
    (stringBody_spec hP hwf hshape hkey hroom) _ 0 _ (by omega)
    { walk := walked_start (maskHash_lt _ hwf.length_pos)
      tombstone := fun _ h => nomatch h }

end Specs

end CloverVM.BuiltinTypes.Dict
