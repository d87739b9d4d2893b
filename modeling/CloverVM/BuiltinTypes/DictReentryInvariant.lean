import CloverVM.BuiltinTypes.DictReentry

/-!
# What holds while operations are in progress

A dict stays sound under each step on its storage, and an operation that waits
may rely on what its walk has seen as long as the generation is the one it
started in.  The rounds of a walk, and the code after an answer, are analysed
here once, in terms of the slot they end at.
-/

namespace CloverVM.BuiltinTypes.Dict

open CloverVM.Collections
open CloverVM.Collections.LinearProbe

variable {K V T : Type}

theorem items_eq_of_split {d : Dict K V} {e : Entry K V}
    {before after : List (Option (Entry K V))}
    (h : d.entries = before ++ some e :: after) :
    d.items = itemsOf before ++ (e.key, e.value) :: itemsOf after := by
  unfold items
  rw [live_eq_of_split h, List.map_append, List.map_cons]
  rfl

variable [DecidableEq K]

/-- Identity of key objects. -/
def sameKey (a b : K) : Bool := decide (a = b)

/-- The storage is well formed, holds no key object twice and has an empty
slot. -/
structure Sound (P : KeyProtocol K T) (d : Dict K V) : Prop where
  wellFormed : WellFormed P d
  distinct : OrderedMap.Distinct sameKey d.items
  room : ∃ s < d.hashTable.length, d.slotAt s = .notPresent

section Sound

variable {P : KeyProtocol K T} {d : Dict K V}

/-- Two live entries with one key object are one entry. -/
theorem Sound.identity (h : Sound P d) {i j : Nat} {e f : Entry K V}
    (he : d.entryAt i = some e) (hf : d.entryAt j = some f)
    (hkey : e.key = f.key) : i = j := by
  have hd := h.distinct
  unfold OrderedMap.Distinct items live at hd
  rw [List.pairwise_map, List.pairwise_filterMap,
    List.pairwise_iff_getElem] at hd
  have hne : ∀ i j (e f : Entry K V), d.entryAt i = some e →
      d.entryAt j = some f → e.key = f.key → ¬ i < j := by
    intro i j e f he hf hkey hlt
    obtain ⟨hi, hie⟩ := List.getElem?_eq_some_iff.mp (entryAt_eq_some.mp he)
    obtain ⟨hj, hjf⟩ := List.getElem?_eq_some_iff.mp (entryAt_eq_some.mp hf)
    have := hd i j hi hj hlt e hie f hjf
    rw [hkey] at this
    unfold sameKey at this
    rw [decide_eq_true rfl] at this
    exact Bool.noConfusion this
  have h₁ := hne i j e f he hf hkey
  have h₂ := hne j i f e hf he hkey.symm
  omega

theorem Sound.repInvariant (h : Sound P d) : RepInvariant d := by
  refine
    { pointed := ?_
      identity := fun i j e f he hf hkey => h.identity he hf hkey
      count := h.wellFormed.count
      room := h.room }
  intro idx e he
  obtain ⟨s, hs⟩ := h.wellFormed.slotOfEntry idx e he
  exact ⟨s, hs, fun t ht => h.wellFormed.slotUnique t s idx ht hs⟩

theorem Sound.live_lt (h : Sound P d) :
    d.live.length < d.hashTable.length := by
  obtain ⟨s, hs, hfree⟩ := h.room
  rw [← h.wellFormed.entrySlots]
  apply Nat.lt_of_le_of_ne (List.countP_le_length)
  intro hall
  have := List.countP_eq_length.mp hall _ (List.getElem_mem hs)
  unfold slotAt at hfree
  rw [List.getD_eq_getElem _ _ hs] at hfree
  rw [hfree] at this
  exact Bool.noConfusion this

theorem sound_empty : Sound P (empty : Dict K V) :=
  { wellFormed := wellFormed_empty
    distinct := List.Pairwise.nil
    room := ⟨0, Nat.zero_lt_succ _, rfl⟩ }

theorem sound_clear (h : Sound P d) : Sound P d.clear :=
  { wellFormed := wellFormed_clear h.wellFormed
    distinct := List.Pairwise.nil
    room := ⟨0, (wellFormed_clear h.wellFormed).length_pos,
      getD_replicate_notPresent _ _⟩ }

theorem sound_maybePromote (h : Sound P d) :
    Sound P d.maybePromoteToGeneralShape := by
  have hwf := wellFormed_maybePromoteToGeneralShape h.wellFormed
  unfold maybePromoteToGeneralShape at *
  split
  · exact
      { wellFormed := wellFormed_promoteToGeneralShape h.wellFormed
        distinct := h.distinct
        room := h.room }
  · exact h

theorem sound_writeExisting (h : Sound P d) {idx : Nat} {e : Entry K V}
    (he : d.entryAt idx = some e) (value : V) :
    Sound P (d.writeExisting idx value) := by
  obtain ⟨before, after, hsplit, rfl⟩ := entries_split he
  have hd := h.distinct
  rw [items_eq_of_split hsplit] at hd
  refine
    { wellFormed := wellFormed_writeExisting h.wellFormed he value
      distinct := ?_
      room := h.room }
  unfold items
  rw [live_writeExisting value hsplit, List.map_append, List.map_cons]
  exact hd.replace value

theorem sound_deleteEntry (h : Sound P d) {s idx : Nat}
    (hs : d.slotAt s = .entry idx) : Sound P (d.deleteEntry s idx) := by
  obtain ⟨e, he, _⟩ := h.wellFormed.entryOfSlot s idx hs
  obtain ⟨before, after, hsplit, rfl⟩ := entries_split he
  have hd := h.distinct
  rw [items_eq_of_split hsplit] at hd
  obtain ⟨q, hq, hfree⟩ := h.room
  refine
    { wellFormed := wellFormed_deleteEntry h.wellFormed hs
      distinct := ?_
      room := ⟨q, ?_, ?_⟩ }
  · unfold items
    rw [live_deleteEntry s hsplit, List.map_append]
    exact hd.remove
  · show q < (d.hashTable.set s .tombstone).length
    rw [List.length_set]
    exact hq
  · show (d.hashTable.set s .tombstone).getD q .notPresent = .notPresent
    rw [slotAt_set d s _ q (slotAt_lt hs), if_neg, hfree]
    rintro rfl
    exact Slot.noConfusion (hfree.symm.trans hs)

/-- A new entry keeps the dict sound when its key object is new and an empty
slot is left. -/
theorem sound_writeNewAtSlot (h : Sound P d) {s : Nat} {hash : Int} {key : K}
    (value : V) (hs : s < d.hashTable.length)
    (hfree : ∀ idx, d.slotAt s ≠ .entry idx) (hreach : d.WalkReaches hash s)
    (hhash : hash = P.hashValue key) (hshape : d.shape = .general)
    (hnew : ∀ e ∈ d.live, e.key ≠ key)
    (hroom : ∃ q < d.hashTable.length, q ≠ s ∧ d.slotAt q = .notPresent) :
    Sound P (d.writeNewAtSlot s hash key value) := by
  obtain ⟨q, hq, hne, hqfree⟩ := hroom
  refine
    { wellFormed := wellFormed_writeNewAtSlot h.wellFormed value hs hfree
        hreach hhash ?_
      distinct := ?_
      room := ⟨q, ?_, ?_⟩ }
  · intro hstring
    exact DictShape.noConfusion (hshape.symm.trans hstring)
  · unfold items
    rw [live_writeNewAtSlot, List.map_append]
    apply h.distinct.append_absent
    intro other hother
    obtain ⟨e, he, rfl⟩ := List.mem_map.mp hother
    exact decide_eq_false (hnew e he)
  · show q < (d.hashTable.set s _).length
    rw [List.length_set]
    exact hq
  · show (d.hashTable.set s _).getD q .notPresent = .notPresent
    rw [slotAt_set d s _ q hs, if_neg (Ne.symm hne), hqfree]

/-- The check of the load. -/
theorem sound_resize (h : Sound P d) :
    ∃ d', d.resizeGeneralIfNeeded = some d' ∧ Sound P d' ∧
      d'.shape = d.shape ∧ (d' = d ∨ Grown d d') := by
  have hlive := h.live_lt
  obtain ⟨d', hd', hwf, hsame, hshape, hcase⟩ :=
    resizeGeneralIfNeeded_spec h.wellFormed (by omega)
  refine ⟨d', hd', ?_, hshape, hcase.imp (fun h => h.1) id⟩
  refine { wellFormed := hwf, distinct := ?_, room := ?_ }
  · unfold items
    rw [hsame]
    exact h.distinct
  · rcases hcase with ⟨rfl, _⟩ | hgrown
    · exact h.room
    · apply hwf.exists_notPresent
      rw [hgrown.entries, hgrown.table]
      omega

end Sound

/-! ## What an operation in progress relies on -/

/-- What may happen to the dict while an operation waits: the table becomes
another one, with a later generation, or its occupied slots stay occupied. -/
structure Evolves (d d' : Dict K V) : Prop where
  generation : d.tableGeneration ≤ d'.tableGeneration
  sameTable : d'.tableGeneration = d.tableGeneration →
    d'.hashTable.length = d.hashTable.length ∧
      ∀ q, d.Occupied q → d'.Occupied q

section Evolution

variable {P : KeyProtocol K T} {d d' d'' : Dict K V}

omit [DecidableEq K] in
theorem Evolves.refl (d : Dict K V) : Evolves d d :=
  { generation := Nat.le_refl _
    sameTable := fun _ => ⟨rfl, fun _ h => h⟩ }

omit [DecidableEq K] in
theorem Evolves.trans (h : Evolves d d') (h' : Evolves d' d'') :
    Evolves d d'' := by
  refine
    { generation := h.generation.trans h'.generation
      sameTable := ?_ }
  intro heq
  have hle := h.generation
  have hle' := h'.generation
  obtain ⟨hlen, hocc⟩ := h.sameTable (by omega)
  obtain ⟨hlen', hocc'⟩ := h'.sameTable (by omega)
  exact ⟨hlen'.trans hlen, fun q hq => hocc' q (hocc q hq)⟩

omit [DecidableEq K] in
theorem evolves_of_later (h : d'.tableGeneration = d.tableGeneration + 1) :
    Evolves d d' :=
  { generation := by omega
    sameTable := fun heq => by omega }

omit [DecidableEq K] in
theorem evolves_set {s : Nat} {slot : Slot} (hs : s < d.hashTable.length)
    (hslot : slot ≠ .notPresent)
    (htable : d'.hashTable = d.hashTable.set s slot)
    (hgen : d'.tableGeneration = d.tableGeneration) : Evolves d d' := by
  refine { generation := Nat.le_of_eq hgen.symm, sameTable := fun _ => ?_ }
  refine ⟨by rw [htable, List.length_set], fun q hq => ?_⟩
  show d'.hashTable.getD q .notPresent ≠ .notPresent
  rw [htable, slotAt_set d s slot q hs]
  split
  · exact hslot
  · exact hq

omit [DecidableEq K] in
theorem evolves_maybePromote (d : Dict K V) :
    Evolves d d.maybePromoteToGeneralShape := by
  unfold maybePromoteToGeneralShape
  split
  · exact evolves_of_later rfl
  · exact Evolves.refl d

end Evolution

/-- What an operation in progress relies on: in the table of its generation
the walk has come over occupied slots, and so it did to the tombstone it
recorded. -/
structure ProbeInv (P : KeyProtocol K T) (d : Dict K V) (key : K)
    (probe : Probe) : Prop where
  hash : probe.hash = P.hashValue key
  generation : probe.tableGeneration ≤ d.tableGeneration
  walk : probe.tableGeneration = d.tableGeneration →
    ∃ i, Walked d.Occupied d.hashTable.length
      (maskHash probe.hash d.hashTable.length) i probe.hashIdx
  tombstone : probe.tableGeneration = d.tableGeneration →
    ∀ t, probe.firstTombstoneIdx = some t → d.WalkReaches probe.hash t

section Probes

variable {P : KeyProtocol K T} {d d' : Dict K V} {key : K} {probe : Probe}

omit [DecidableEq K] in
theorem ProbeInv.mono (h : ProbeInv P d key probe) (hev : Evolves d d') :
    ProbeInv P d' key probe := by
  have hback : probe.tableGeneration = d'.tableGeneration →
      probe.tableGeneration = d.tableGeneration ∧
        d'.tableGeneration = d.tableGeneration := by
    intro heq
    have hle := h.generation
    have hle' := hev.generation
    omega
  refine
    { hash := h.hash
      generation := h.generation.trans hev.generation
      walk := ?_
      tombstone := ?_ }
  · intro heq
    obtain ⟨hd, hsame⟩ := hback heq
    obtain ⟨hlen, hocc⟩ := hev.sameTable hsame
    obtain ⟨i, hwalk⟩ := h.walk hd
    rw [hlen]
    exact ⟨i, hwalk.mono hocc⟩
  · intro heq t ht
    obtain ⟨hd, hsame⟩ := hback heq
    obtain ⟨hlen, hocc⟩ := hev.sameTable hsame
    exact (h.tombstone hd t ht).mono hlen hocc

omit [DecidableEq K] in
theorem probeInv_start (hwf : WellFormed P d) (key : K) :
    ProbeInv P d key (d.probeStart (P.hashValue key)) :=
  { hash := rfl
    generation := Nat.le_refl _
    walk := fun _ => ⟨0, walked_start (maskHash_lt _ hwf.length_pos)⟩
    tombstone := fun _ _ h => nomatch h }

omit [DecidableEq K] in
theorem ProbeInv.advance (h : ProbeInv P d key probe) (hwf : WellFormed P d)
    (hocc : d.Occupied probe.hashIdx) :
    ProbeInv P d key (d.probeAdvance probe) := by
  refine
    { hash := h.hash
      generation := h.generation
      walk := ?_
      tombstone := h.tombstone }
  intro heq
  obtain ⟨i, hwalk⟩ := h.walk heq
  exact ⟨i + 1, hwalk.advance hwf.powerOfTwo hocc⟩

/-- Where a walk stands, it has come to. -/
theorem ProbeInv.reaches (h : ProbeInv P d key probe) (hs : Sound P d)
    (hgen : probe.tableGeneration = d.tableGeneration) :
    d.WalkReaches probe.hash probe.hashIdx := by
  obtain ⟨i, hwalk⟩ := h.walk hgen
  obtain ⟨q, hq, hfree⟩ := hs.room
  exact hwalk.reaches (hwalk.lt_size ⟨q, hq, fun hocc => hocc hfree⟩)

theorem ProbeInv.record (h : ProbeInv P d key probe) (hs : Sound P d) :
    ProbeInv P d key (probeRecordTombstone probe) := by
  obtain ⟨hidx, hhash, hgen⟩ := probeRecordTombstone_rest probe
  refine
    { hash := hhash.trans h.hash
      generation := hgen ▸ h.generation
      walk := ?_
      tombstone := ?_ }
  · rw [hgen, hhash, hidx]
    exact h.walk
  · rw [hgen, hhash, firstTombstoneIdx_record]
    intro heq t ht
    cases ht
    rcases hfirst : probe.firstTombstoneIdx with _ | t
    · exact h.reaches hs heq
    · exact h.tombstone heq t hfirst

omit [DecidableEq K] in
theorem ProbeInv.clearRecorded (h : ProbeInv P d key probe) :
    ProbeInv P d key (probeClearRecordedTombstone probe) :=
  { hash := h.hash
    generation := h.generation
    walk := h.walk
    tombstone := fun _ _ ht => nomatch ht }

/-- The outcomes of a round of an insertion's walk. -/
theorem insertProbeStep_cases (h : ProbeInv P d key probe) (hs : Sound P d)
    (hgen : probe.tableGeneration = d.tableGeneration) :
    (∃ probe', d.insertProbeStep key probe = .advance probe' ∧
      ProbeInv P d key probe' ∧
      probe'.tableGeneration = d.tableGeneration) ∨
    (∃ idx candidate, d.insertProbeStep key probe =
      .compare idx candidate) ∨
    (∃ idx e, d.insertProbeStep key probe = .answer probe.hashIdx ∧
      d.slotAt probe.hashIdx = .entry idx ∧ d.entryAt idx = some e) ∨
    (d.insertProbeStep key probe = .answer (d.probeWriteSlot probe) ∧
      d.slotAt probe.hashIdx = .notPresent) := by
  unfold insertProbeStep
  rcases hslot : d.slotAt probe.hashIdx with _ | _ | idx
  · exact .inr (.inr (.inr ⟨rfl, rfl⟩))
  · obtain ⟨hidx, _, hgen'⟩ := probeRecordTombstone_rest probe
    refine .inl ⟨_, rfl, (h.record hs).advance hs.wellFormed ?_,
      hgen'.trans hgen⟩
    rw [hidx]
    exact fun hfree => Slot.noConfusion (hslot.symm.trans hfree)
  · have hocc : d.Occupied probe.hashIdx :=
      fun hfree => Slot.noConfusion (hslot.symm.trans hfree)
    obtain ⟨e, he, _⟩ := hs.wellFormed.entryOfSlot _ idx hslot
    simp only [he]
    by_cases hhash : e.hash = probe.hash
    · by_cases hkey : e.key = key
      · rw [if_pos hhash, if_pos hkey]
        exact .inr (.inr (.inl ⟨idx, e, rfl, rfl, he⟩))
      · rw [if_pos hhash, if_neg hkey]
        exact .inr (.inl ⟨idx, e.key, rfl⟩)
    · rw [if_neg hhash]
      exact .inl ⟨_, rfl, h.advance hs.wellFormed hocc, hgen⟩

/-- The outcomes of a round of a lookup's walk. -/
theorem lookupProbeStep_cases (h : ProbeInv P d key probe) (hs : Sound P d)
    (hgen : probe.tableGeneration = d.tableGeneration) :
    (∃ probe', d.lookupProbeStep key probe = .advance probe' ∧
      ProbeInv P d key probe' ∧
      probe'.tableGeneration = d.tableGeneration) ∨
    (∃ idx candidate, d.lookupProbeStep key probe =
      .compare idx candidate) ∨
    (∃ s idx, d.lookupProbeStep key probe = .answer (some (s, idx)) ∧
      d.slotAt s = .entry idx) ∨
    d.lookupProbeStep key probe = .answer none := by
  unfold lookupProbeStep
  rcases hslot : d.slotAt probe.hashIdx with _ | _ | idx
  · exact .inr (.inr (.inr rfl))
  · have hocc : d.Occupied probe.hashIdx :=
      fun hfree => Slot.noConfusion (hslot.symm.trans hfree)
    exact .inl ⟨_, rfl, h.advance hs.wellFormed hocc, hgen⟩
  · have hocc : d.Occupied probe.hashIdx :=
      fun hfree => Slot.noConfusion (hslot.symm.trans hfree)
    obtain ⟨e, he, _⟩ := hs.wellFormed.entryOfSlot _ idx hslot
    simp only [he]
    by_cases hhash : e.hash = probe.hash
    · by_cases hkey : e.key = key
      · rw [if_pos hhash, if_pos hkey]
        exact .inr (.inr (.inl ⟨probe.hashIdx, idx, rfl, hslot⟩))
      · rw [if_pos hhash, if_neg hkey]
        exact .inr (.inl ⟨idx, e.key, rfl⟩)
    · rw [if_neg hhash]
      exact .inl ⟨_, rfl, h.advance hs.wellFormed hocc, hgen⟩

/-- What the check after a comparison tells. -/
theorem entryStillMatches_cases {generation hashIdx idx : Nat} {candidate : K}
    (h : d.entryStillMatches generation hashIdx idx candidate = true) :
    generation = d.tableGeneration ∧ d.slotAt hashIdx = .entry idx ∧
      ∃ e, d.entryAt idx = some e := by
  unfold entryStillMatches at h
  rw [Bool.and_eq_true, Bool.and_eq_true, decide_eq_true_iff,
    decide_eq_true_iff, Option.any_eq_true] at h
  obtain ⟨⟨hgen, hslot⟩, e, he, _⟩ := h
  exact ⟨hgen.symm, hslot, e, he⟩

/-- After the helper's answer an insertion's walk stands where it stood,
starts again, or ends at a live entry. -/
theorem insertAfterCompare_cases (h : ProbeInv P d key probe)
    (hs : Sound P d) (idx : Nat) (candidate : K) (equal : Bool) :
    (∃ probe', d.insertAfterCompare probe idx candidate equal = .inl probe' ∧
      ProbeInv P d key probe' ∧
      probe'.tableGeneration = d.tableGeneration) ∨
    ∃ s e, d.insertAfterCompare probe idx candidate equal = .inr s ∧
      d.slotAt s = .entry idx ∧ d.entryAt idx = some e := by
  unfold insertAfterCompare
  by_cases hmatch : d.entryStillMatches probe.tableGeneration probe.hashIdx idx
      candidate = true
  · rw [if_pos hmatch]
    obtain ⟨hgen, hslot, e, he⟩ := entryStillMatches_cases hmatch
    have hocc : d.Occupied probe.hashIdx :=
      fun hfree => Slot.noConfusion (hslot.symm.trans hfree)
    by_cases havail : d.probeRecordedTombstoneStillAvailable probe = true
    · simp only [if_pos havail]
      rcases equal with _ | _
      · exact .inl ⟨_, rfl, h.advance hs.wellFormed hocc, hgen⟩
      · exact .inr ⟨_, e, rfl, hslot, he⟩
    · simp only [if_neg havail]
      rcases equal with _ | _
      · exact .inl ⟨_, rfl, h.clearRecorded.advance hs.wellFormed hocc, hgen⟩
      · exact .inr ⟨_, e, rfl, hslot, he⟩
  · rw [if_neg hmatch, h.hash]
    exact .inl ⟨_, rfl, probeInv_start hs.wellFormed key, rfl⟩

theorem lookupAfterCompare_cases (h : ProbeInv P d key probe)
    (hs : Sound P d) (idx : Nat) (candidate : K) (equal : Bool) :
    (∃ probe', d.lookupAfterCompare probe idx candidate equal = .inl probe' ∧
      ProbeInv P d key probe' ∧
      probe'.tableGeneration = d.tableGeneration) ∨
    ∃ s, d.lookupAfterCompare probe idx candidate equal =
        .inr (some (s, idx)) ∧
      d.slotAt s = .entry idx := by
  unfold lookupAfterCompare
  by_cases hmatch : d.entryStillMatches probe.tableGeneration probe.hashIdx idx
      candidate = true
  · rw [if_pos hmatch]
    obtain ⟨hgen, hslot, e, he⟩ := entryStillMatches_cases hmatch
    have hocc : d.Occupied probe.hashIdx :=
      fun hfree => Slot.noConfusion (hslot.symm.trans hfree)
    rcases equal with _ | _
    · exact .inl ⟨_, rfl, h.advance hs.wellFormed hocc, hgen⟩
    · exact .inr ⟨_, rfl, hslot⟩
  · rw [if_neg hmatch, h.hash]
    exact .inl ⟨_, rfl, probeInv_start hs.wellFormed key, rfl⟩

end Probes

/-! ## The string path -/

section Text

variable [DecidableEq T]

/-- The keys with the answers of `__eq__` taken out of play, as the string path
compares them. -/
def byText (P : KeyProtocol K T) : KeyProtocol K T :=
  { P with otherEqual := fun a b => decide (a = b) }

theorem keyEqual_byText (P : KeyProtocol K T) (a b : K) :
    (byText P).keyEqual a b = true ↔
      a = b ∨ ∃ t, P.text a = some t ∧ P.text b = some t := by
  unfold KeyProtocol.keyEqual KeyProtocol.testEqual byText
  rw [Bool.or_eq_true, decide_eq_true_iff]
  rcases ha : P.text a with _ | s <;> rcases hb : P.text b with _ | t <;>
    simp [eq_comm]

theorem lawful_byText (P : KeyProtocol K T) : Lawful (byText P) := by
  refine { equivalence := ?_, hashConsistent := ?_ }
  · simp only [keyEqual_byText]
    refine ⟨fun _ => .inl rfl, ?_, ?_⟩
    · rintro a b (h | ⟨t, ha, hb⟩)
      · exact .inl h.symm
      · exact .inr ⟨t, hb, ha⟩
    · rintro a b c (rfl | ⟨t, ha, hb⟩) (rfl | ⟨u, hb', hc⟩)
      · exact .inl rfl
      · exact .inr ⟨u, hb', hc⟩
      · exact .inr ⟨t, ha, hb⟩
      · cases hb.symm.trans hb'
        exact .inr ⟨t, ha, hc⟩
  · intro a b h
    show P.hashValue a = P.hashValue b
    unfold KeyProtocol.hashValue
    rcases (keyEqual_byText P a b).mp h with rfl | ⟨t, ha, hb⟩
    · rfl
    · rw [ha, hb]

variable {P : KeyProtocol K T} {d : Dict K V}

omit [DecidableEq K] [DecidableEq T] in
theorem wellFormed_congr {P P' : KeyProtocol K T} (h : WellFormed P d)
    (hhash : ∀ k, P'.hashValue k = P.hashValue k)
    (hstring : ∀ k, P'.isString k = P.isString k) : WellFormed P' d :=
  { h with
    storedHash := fun idx e he => (h.storedHash idx e he).trans
      (hhash e.key).symm
    stringKeys := fun hshape idx e he =>
      (hstring e.key).trans (h.stringKeys hshape idx e he) }

/-- Keys of different texts are different objects. -/
theorem sound_of_byText (h : Represents (byText P) d d.items) :
    Sound P d := by
  refine
    { wellFormed := wellFormed_congr h.wellFormed (fun _ => rfl) (fun _ => rfl)
      distinct := ?_
      room := h.room }
  refine List.Pairwise.imp ?_ h.distinct
  intro a b hne
  apply decide_eq_false
  intro heq
  rw [(keyEqual_byText P a.1 b.1).mpr (.inl heq)] at hne
  exact Bool.noConfusion hne

/-- On the string path the answers of `__eq__` play no part. -/
theorem perform_byText {request : Request K V}
    (h : ∀ key op, request.pending = some (key, op) →
      stringPath P d key = true) :
    perform P d request = perform (byText P) d request := by
  have hpath : ∀ key, stringPath P d key = true →
      stringPath (byText P) d key = true := fun _ h => h
  cases request with
  | popitem => rfl
  | clear => rfl
  | setItem key value =>
      have hkey := h key _ rfl
      simp only [perform, setItem, if_pos hkey, if_pos (hpath key hkey)]
      rfl
  | delItem key =>
      have hkey := h key _ rfl
      simp only [perform, delItem, if_pos hkey, if_pos (hpath key hkey)]
      rfl
  | getItem key =>
      have hkey := h key _ rfl
      simp only [perform, getItem, getItemIfPresent, if_pos hkey,
        if_pos (hpath key hkey)]
      rfl
  | getItemOrDefault key value =>
      have hkey := h key _ rfl
      simp only [perform, getItemOrDefault, getItemIfPresent, if_pos hkey,
        if_pos (hpath key hkey)]
      rfl
  | contains key =>
      have hkey := h key _ rfl
      simp only [perform, contains, if_pos hkey, if_pos (hpath key hkey)]
      rfl
  | pop key =>
      have hkey := h key _ rfl
      simp only [perform, pop, popItemIfPresent, if_pos hkey,
        if_pos (hpath key hkey)]
      rfl
  | popItemIfPresent key =>
      have hkey := h key _ rfl
      simp only [perform, popItemIfPresent, if_pos hkey,
        if_pos (hpath key hkey)]
      rfl
  | setdefault key value =>
      have hkey := h key _ rfl
      simp only [perform, setdefault, setdefaultWithPresence, if_pos hkey,
        if_pos (hpath key hkey)]
      rfl
  | setdefaultWithPresence key value =>
      have hkey := h key _ rfl
      simp only [perform, setdefaultWithPresence, if_pos hkey,
        if_pos (hpath key hkey)]
      rfl

/-- Keys of which only the hash and the identity are known. -/
def byIdentity (P : KeyProtocol K T) : KeyProtocol K T :=
  { text := fun _ => none
    stringHashNormalized := P.stringHashNormalized
    otherHash := P.hashValue
    otherEqual := sameKey }

theorem keyEqual_byIdentity (P : KeyProtocol K T) :
    (byIdentity P).keyEqual = sameKey := by
  funext a b
  show (decide (a = b) || sameKey a b) = sameKey a b
  unfold sameKey
  exact Bool.or_self _

/-- A copy is sound, and its texts differ where those of the dict do. -/
theorem copy_sound (hs : Sound P d)
    (hstring : d.shape = .stringKeyed →
      Represents (byText P) d d.items) {d' : Dict K V}
    (hcopy : d.copy = some d') :
    Sound P d' ∧ (d'.shape = .stringKeyed →
      Represents (byText P) d' d'.items) := by
  rcases hshape : d.shape with _ | _
  · have hrep := hstring hshape
    obtain ⟨d₁, hd₁, hrep₁⟩ := copy_represents hrep
    obtain rfl : d₁ = d' := Option.some.inj (hd₁.symm.trans hcopy)
    have hrep₁ : Represents (byText P) d₁ d₁.items := hrep₁.items.symm ▸ hrep₁
    exact ⟨sound_of_byText hrep₁, fun _ => hrep₁⟩
  · have hwf : WellFormed (byIdentity P) d :=
      { hs.wellFormed with
        stringKeys := fun h => DictShape.noConfusion (hshape.symm.trans h) }
    have hd := hs.distinct
    rw [← keyEqual_byIdentity P] at hd
    obtain ⟨d₁, hd₁, hrep₁, hsame⟩ := copy_of_distinct hwf hd
    obtain rfl : d₁ = d' := Option.some.inj (hd₁.symm.trans hcopy)
    have hgeneral : d₁.shape = .general := hsame.trans hshape
    refine ⟨?_, fun h => DictShape.noConfusion (hgeneral.symm.trans h)⟩
    refine { wellFormed := ?_, distinct := ?_, room := hrep₁.room }
    · exact
        { hrep₁.wellFormed with
          stringKeys := fun h =>
            DictShape.noConfusion (hgeneral.symm.trans h) }
    · rw [hrep₁.items, ← keyEqual_byIdentity P]
      exact hrep₁.distinct

end Text

end CloverVM.BuiltinTypes.Dict
