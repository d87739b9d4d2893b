import CloverVM.BuiltinTypes.Dict

/-!
# The representation invariant of a dict

Every live entry is pointed to by exactly one slot, and a walk from the place
of its hash comes to that slot over occupied slots only.  The steps on the
storage keep this, whatever the keys compare like; growing rebuilds it.
-/

namespace CloverVM.BuiltinTypes.Dict

open CloverVM.Collections.LinearProbe

variable {K V T : Type}

theorem lt_of_occupied {d : Dict K V} {s : Nat}
    (h : d.slotAt s ≠ .notPresent) : s < d.hashTable.length := by
  by_contra hlt
  apply h
  unfold slotAt
  exact List.getD_eq_default _ _ (Nat.le_of_not_lt hlt)

theorem slotAt_lt {d : Dict K V} {s idx : Nat}
    (h : d.slotAt s = .entry idx) : s < d.hashTable.length := by
  apply lt_of_occupied
  rw [h]
  exact fun h => Slot.noConfusion h

theorem slotAt_set (d : Dict K V) (s : Nat) (slot : Slot) (q : Nat)
    (hs : s < d.hashTable.length) :
    (d.hashTable.set s slot).getD q .notPresent =
      if s = q then slot else d.slotAt q := by
  unfold slotAt
  rw [List.getD_eq_getElem?_getD, List.getD_eq_getElem?_getD,
    List.getElem?_set]
  by_cases h : s = q
  · subst h
    simp only [if_pos, hs, Option.getD_some]
  · simp only [if_neg h]

theorem getD_replicate_notPresent (n q : Nat) :
    (List.replicate n Slot.notPresent).getD q .notPresent = .notPresent := by
  rw [List.getD_eq_getElem?_getD, List.getElem?_replicate]
  split <;> rfl

theorem entryAt_eq_some {d : Dict K V} {idx : Nat} {e : Entry K V} :
    d.entryAt idx = some e ↔ d.entries[idx]? = some (some e) := by
  unfold entryAt
  exact Option.join_eq_some_iff

theorem entryAt_lt {d : Dict K V} {idx : Nat} {e : Entry K V}
    (h : d.entryAt idx = some e) : idx < d.entries.length :=
  (List.getElem?_eq_some_iff.mp (entryAt_eq_some.mp h)).1

theorem mem_live_iff {d : Dict K V} {e : Entry K V} :
    e ∈ d.live ↔ ∃ idx, d.entryAt idx = some e := by
  unfold live
  rw [List.mem_filterMap]
  constructor
  · rintro ⟨o, ho, rfl : o = some e⟩
    obtain ⟨idx, hidx⟩ := List.mem_iff_getElem?.mp ho
    exact ⟨idx, entryAt_eq_some.mpr hidx⟩
  · rintro ⟨idx, hidx⟩
    exact ⟨some e, List.mem_of_getElem? (entryAt_eq_some.mp hidx), rfl⟩

/-- The entries around a live one. -/
theorem entries_split {d : Dict K V} {idx : Nat} {e : Entry K V}
    (h : d.entryAt idx = some e) :
    ∃ before after, d.entries = before ++ some e :: after ∧
      before.length = idx := by
  have hlt := entryAt_lt h
  refine ⟨d.entries.take idx, d.entries.drop (idx + 1), ?_, ?_⟩
  · have he : d.entries[idx] = some e :=
      Option.some.inj ((List.getElem?_eq_getElem hlt).symm.trans
        (entryAt_eq_some.mp h))
    rw [← he, List.getElem_cons_drop hlt, List.take_append_drop]
  · rw [List.length_take]
    omega

theorem live_eq_of_split {d : Dict K V} {e : Entry K V}
    {before after : List (Option (Entry K V))}
    (h : d.entries = before ++ some e :: after) :
    d.live = before.filterMap id ++ e :: after.filterMap id := by
  unfold live
  rw [h, List.filterMap_append]
  rfl

/-! ## The invariant -/

/-- A slot that a walk passes. -/
def Occupied (d : Dict K V) (idx : Nat) : Prop := d.slotAt idx ≠ .notPresent

/-- The walk from the place of a hash comes to a slot over occupied ones. -/
def WalkReaches (d : Dict K V) (hash : Int) (s : Nat) : Prop :=
  Reaches d.Occupied d.hashTable.length (maskHash hash d.hashTable.length) s

/-- The table and the entries describe each other. -/
structure WellFormed (P : KeyProtocol K T) (d : Dict K V) : Prop where
  powerOfTwo : ∃ k, d.hashTable.length = 2 ^ k
  minSize : minTableSize ≤ d.hashTable.length
  /-- A slot with an index has a live entry there, and a walk finds it. -/
  entryOfSlot : ∀ s idx, d.slotAt s = .entry idx →
    ∃ e, d.entryAt idx = some e ∧
      d.WalkReaches e.hash s
  slotOfEntry : ∀ idx e, d.entryAt idx = some e →
    ∃ s, d.slotAt s = .entry idx
  slotUnique : ∀ s t idx, d.slotAt s = .entry idx →
    d.slotAt t = .entry idx → s = t
  storedHash : ∀ idx e, d.entryAt idx = some e → e.hash = P.hashValue e.key
  stringKeys : d.shape = .stringKeyed →
    ∀ idx e, d.entryAt idx = some e → P.isString e.key = true
  count : d.nValidEntries = d.live.length
  entrySlots : d.hashTable.countP Slot.isEntry = d.live.length
  occupied : d.hashTable.countP (fun slot => decide (slot ≠ .notPresent)) ≤
    d.entries.length

section Invariant

variable {P : KeyProtocol K T} {d : Dict K V}

theorem WellFormed.length_pos (h : WellFormed P d) :
    0 < d.hashTable.length := by
  have := h.minSize
  unfold minTableSize at this
  omega

theorem maskHash_lt (hash : Int) {size : Nat} (h : 0 < size) :
    maskHash hash size < size := by
  have : maskHash hash size ≤ size - 1 := Nat.and_le_right
  omega

/-- The entry of a slot. -/
theorem WellFormed.slot_spec (h : WellFormed P d) {s idx : Nat}
    {e : Entry K V} (hs : d.slotAt s = .entry idx)
    (he : d.entryAt idx = some e) :
    d.WalkReaches e.hash s := by
  obtain ⟨e', he', hreach⟩ := h.entryOfSlot s idx hs
  rw [he] at he'
  cases he'
  exact hreach

/-- Fewer entries than slots leave an empty slot. -/
theorem WellFormed.exists_notPresent (h : WellFormed P d)
    (hlt : d.entries.length < d.hashTable.length) :
    ∃ s < d.hashTable.length, d.slotAt s = .notPresent := by
  by_contra hnone
  have hall : d.hashTable.countP (fun slot => decide (slot ≠ .notPresent)) =
      d.hashTable.length := by
    apply List.countP_eq_length.mpr
    intro slot hslot
    obtain ⟨s, hs, rfl⟩ := List.mem_iff_getElem.mp hslot
    apply decide_eq_true
    intro hfree
    apply hnone
    refine ⟨s, hs, ?_⟩
    unfold slotAt
    rw [List.getD_eq_getElem _ _ hs, hfree]
  have := h.occupied
  omega

/-- A table of empty slots over no entries. -/
theorem wellFormed_vacant (shape : DictShape) {size : Nat}
    (generation : Nat) (hpow : ∃ k, size = 2 ^ k)
    (hmin : minTableSize ≤ size) :
    WellFormed P (⟨shape, List.replicate size .notPresent, [], 0,
      generation⟩ : Dict K V) := by
  have hlen : (List.replicate size Slot.notPresent).length = size :=
    List.length_replicate
  have hslot : ∀ s idx,
      (List.replicate size Slot.notPresent).getD s .notPresent ≠
        .entry idx := by
    intro s idx h
    rw [getD_replicate_notPresent] at h
    exact Slot.noConfusion h
  refine
    { powerOfTwo := hlen.symm ▸ hpow
      minSize := hlen.symm ▸ hmin
      entryOfSlot := fun s idx h => absurd h (hslot s idx)
      slotOfEntry := ?_
      slotUnique := fun s _ idx h => absurd h (hslot s idx)
      storedHash := ?_
      stringKeys := ?_
      count := rfl
      entrySlots := ?_
      occupied := ?_ }
  · intro idx e h
    exact absurd (entryAt_lt h) (Nat.not_lt_zero idx)
  · intro idx e h
    exact absurd (entryAt_lt h) (Nat.not_lt_zero idx)
  · intro _ idx e h
    exact absurd (entryAt_lt h) (Nat.not_lt_zero idx)
  · apply List.countP_eq_zero.mpr
    intro slot hslot
    rw [List.eq_of_mem_replicate hslot]
    exact Bool.noConfusion
  · apply Nat.le_of_eq
    apply List.countP_eq_zero.mpr
    intro slot hslot
    rw [List.eq_of_mem_replicate hslot]
    decide

/-- A dict as its constructor leaves it. -/
theorem wellFormed_empty : WellFormed P (empty : Dict K V) :=
  wellFormed_vacant .stringKeyed 0 ⟨4, rfl⟩ (Nat.le_refl _)

theorem wellFormed_clear (h : WellFormed P d) : WellFormed P d.clear :=
  wellFormed_vacant d.shape (d.tableGeneration + 1) h.powerOfTwo h.minSize

/-! ## Steps on the storage -/

theorem WalkReaches.mono {d d' : Dict K V} {hash : Int} {s : Nat}
    (h : d.WalkReaches hash s)
    (hlen : d'.hashTable.length = d.hashTable.length)
    (hsub : ∀ q, d.Occupied q → d'.Occupied q) : d'.WalkReaches hash s := by
  unfold WalkReaches at *
  rw [hlen]
  exact h.mono hsub

theorem entryAt_writeNewAtSlot (d : Dict K V) (s : Nat) (hash : Int) (key : K)
    (value : V) (idx : Nat) :
    (d.writeNewAtSlot s hash key value).entryAt idx =
      if idx = d.entries.length then some ⟨key, value, hash⟩
      else d.entryAt idx := by
  unfold entryAt writeNewAtSlot
  show ((d.entries ++ [some (⟨key, value, hash⟩ : Entry K V)])[idx]?).join = _
  rw [List.getElem?_append]
  by_cases hlt : idx < d.entries.length
  · rw [if_pos hlt, if_neg (by omega)]
  · rw [if_neg hlt]
    by_cases heq : idx = d.entries.length
    · rw [if_pos heq, heq, Nat.sub_self]
      rfl
    · have hone : [some (⟨key, value, hash⟩ : Entry K V)].length ≤
          idx - d.entries.length := by
        show 1 ≤ _
        omega
      rw [if_neg heq, List.getElem?_eq_none hone,
        List.getElem?_eq_none (by omega)]

theorem live_writeNewAtSlot (d : Dict K V) (s : Nat) (hash : Int) (key : K)
    (value : V) :
    (d.writeNewAtSlot s hash key value).live =
      d.live ++ [⟨key, value, hash⟩] := by
  unfold live writeNewAtSlot
  rw [List.filterMap_append]
  rfl

/-- A new entry goes to a free slot that a walk for its hash comes to. -/
theorem wellFormed_writeNewAtSlot (h : WellFormed P d) {s : Nat} {hash : Int}
    {key : K} (value : V) (hs : s < d.hashTable.length)
    (hfree : ∀ idx, d.slotAt s ≠ .entry idx) (hreach : d.WalkReaches hash s)
    (hhash : hash = P.hashValue key)
    (hstring : d.shape = .stringKeyed → P.isString key = true) :
    WellFormed P (d.writeNewAtSlot s hash key value) := by
  have hslot : ∀ q, (d.writeNewAtSlot s hash key value).slotAt q =
      if s = q then .entry d.entries.length else d.slotAt q :=
    fun q => slotAt_set d s _ q hs
  have hlen : (d.writeNewAtSlot s hash key value).hashTable.length =
      d.hashTable.length := List.length_set
  have hocc : ∀ q, d.Occupied q →
      (d.writeNewAtSlot s hash key value).Occupied q := by
    intro q hq
    unfold Occupied
    rw [hslot]
    split
    · exact fun h => Slot.noConfusion h
    · exact hq
  -- an old index stays below the new one
  have hold : ∀ q idx, d.slotAt q = .entry idx → idx < d.entries.length := by
    intro q idx hq
    obtain ⟨e, he, _⟩ := h.entryOfSlot q idx hq
    exact entryAt_lt he
  refine
    { powerOfTwo := hlen ▸ h.powerOfTwo
      minSize := hlen ▸ h.minSize
      entryOfSlot := ?_
      slotOfEntry := ?_
      slotUnique := ?_
      storedHash := ?_
      stringKeys := ?_
      count := ?_
      entrySlots := ?_
      occupied := ?_ }
  · intro q idx hq
    rw [hslot] at hq
    rw [entryAt_writeNewAtSlot]
    by_cases heq : s = q
    · rw [if_pos heq] at hq
      cases hq
      rw [if_pos rfl]
      exact ⟨_, rfl, heq ▸ hreach.mono hlen hocc⟩
    · rw [if_neg heq] at hq
      obtain ⟨e, he, hwalk⟩ := h.entryOfSlot q idx hq
      rw [if_neg (by have := hold q idx hq; omega)]
      exact ⟨e, he, hwalk.mono hlen hocc⟩
  · intro idx e he
    rw [entryAt_writeNewAtSlot] at he
    by_cases heq : idx = d.entries.length
    · exact ⟨s, by rw [hslot, if_pos rfl, heq]⟩
    · rw [if_neg heq] at he
      obtain ⟨q, hq⟩ := h.slotOfEntry idx e he
      refine ⟨q, ?_⟩
      rw [hslot, if_neg, hq]
      rintro rfl
      exact hfree idx hq
  · intro q r idx hq hr
    rw [hslot] at hq hr
    by_cases hsq : s = q <;> by_cases hsr : s = r
    · exact hsq.symm.trans hsr
    · rw [if_pos hsq] at hq
      rw [if_neg hsr] at hr
      cases hq
      exact absurd (hold r _ hr) (Nat.lt_irrefl _)
    · rw [if_neg hsq] at hq
      rw [if_pos hsr] at hr
      cases hr
      exact absurd (hold q _ hq) (Nat.lt_irrefl _)
    · rw [if_neg hsq] at hq
      rw [if_neg hsr] at hr
      exact h.slotUnique q r idx hq hr
  · intro idx e he
    rw [entryAt_writeNewAtSlot] at he
    split at he
    · cases he
      exact hhash
    · exact h.storedHash idx e he
  · intro hshape idx e he
    rw [entryAt_writeNewAtSlot] at he
    split at he
    · cases he
      exact hstring hshape
    · exact h.stringKeys hshape idx e he
  · rw [live_writeNewAtSlot, List.length_append, ← h.count]
    rfl
  · show (d.hashTable.set s (.entry d.entries.length)).countP _ = _
    have hnot : ¬ d.hashTable[s].isEntry = true := by
      intro hentry
      unfold slotAt at hfree
      rw [List.getD_eq_getElem _ _ hs] at hfree
      rcases hcase : d.hashTable[s] with _ | _ | idx
      · rw [hcase] at hentry
        exact Bool.noConfusion hentry
      · rw [hcase] at hentry
        exact Bool.noConfusion hentry
      · exact hfree idx hcase
    have hnew : (Slot.entry d.entries.length).isEntry = true := rfl
    rw [live_writeNewAtSlot, List.length_append, ← h.entrySlots,
      List.countP_set hs, if_neg hnot, if_pos hnew]
    rfl
  · show (d.hashTable.set s (.entry d.entries.length)).countP _ ≤
      (d.entries ++ [some (⟨key, value, hash⟩ : Entry K V)]).length
    rw [List.length_append, List.countP_set hs]
    have := h.occupied
    simp only [List.length_cons, List.length_nil]
    split <;> split <;> omega

theorem entryAt_deleteEntry (d : Dict K V) (s entryIdx idx : Nat) :
    (d.deleteEntry s entryIdx).entryAt idx =
      if entryIdx = idx then none else d.entryAt idx := by
  unfold entryAt deleteEntry
  show ((d.entries.set entryIdx none)[idx]?).join = _
  rw [List.getElem?_set]
  by_cases heq : entryIdx = idx
  · rw [if_pos heq, if_pos heq]
    split <;> rfl
  · rw [if_neg heq, if_neg heq]

theorem live_deleteEntry {d : Dict K V} {e : Entry K V}
    {before after : List (Option (Entry K V))} (s : Nat)
    (h : d.entries = before ++ some e :: after) :
    (d.deleteEntry s before.length).live =
      before.filterMap id ++ after.filterMap id := by
  unfold live deleteEntry
  show (d.entries.set before.length none).filterMap id = _
  rw [h, List.set_append_right _ _ (Nat.le_refl _), Nat.sub_self,
    List.filterMap_append]
  rfl

/-- A deletion leaves a tombstone, over which the walks still go. -/
theorem wellFormed_deleteEntry (h : WellFormed P d) {s entryIdx : Nat}
    (hs : d.slotAt s = .entry entryIdx) :
    WellFormed P (d.deleteEntry s entryIdx) := by
  have hslot : ∀ q, (d.deleteEntry s entryIdx).slotAt q =
      if s = q then .tombstone else d.slotAt q :=
    fun q => slotAt_set d s _ q (slotAt_lt hs)
  have hlen : (d.deleteEntry s entryIdx).hashTable.length =
      d.hashTable.length := List.length_set
  have hocc : ∀ q, d.Occupied q → (d.deleteEntry s entryIdx).Occupied q := by
    intro q hq
    unfold Occupied
    rw [hslot]
    split
    · exact fun h => Slot.noConfusion h
    · exact hq
  have hlt := slotAt_lt hs
  have hin : d.hashTable[s] = .entry entryIdx := by
    unfold slotAt at hs
    rw [List.getD_eq_getElem _ _ hlt] at hs
    exact hs
  obtain ⟨dead, hdead, _⟩ := h.entryOfSlot s entryIdx hs
  have hold : ∀ idx e, (d.deleteEntry s entryIdx).entryAt idx = some e →
      entryIdx ≠ idx ∧ d.entryAt idx = some e := by
    intro idx e he
    rw [entryAt_deleteEntry] at he
    split at he
    · exact nomatch he
    · exact ⟨by assumption, he⟩
  refine
    { powerOfTwo := hlen ▸ h.powerOfTwo
      minSize := hlen ▸ h.minSize
      entryOfSlot := ?_
      slotOfEntry := ?_
      slotUnique := ?_
      storedHash := ?_
      stringKeys := ?_
      count := ?_
      entrySlots := ?_
      occupied := ?_ }
  · intro q idx hq
    rw [hslot] at hq
    split at hq
    · exact Slot.noConfusion hq
    · rename_i hne
      obtain ⟨e, he, hwalk⟩ := h.entryOfSlot q idx hq
      have hidx : entryIdx ≠ idx := by
        rintro rfl
        exact hne (h.slotUnique s q entryIdx hs hq)
      rw [entryAt_deleteEntry, if_neg hidx]
      exact ⟨e, he, hwalk.mono hlen hocc⟩
  · intro idx e he
    obtain ⟨hidx, he⟩ := hold idx e he
    obtain ⟨q, hq⟩ := h.slotOfEntry idx e he
    refine ⟨q, ?_⟩
    rw [hslot, if_neg, hq]
    rintro rfl
    rw [hs] at hq
    cases hq
    exact hidx rfl
  · intro q r idx hq hr
    rw [hslot] at hq hr
    split at hq
    · exact Slot.noConfusion hq
    · split at hr
      · exact Slot.noConfusion hr
      · exact h.slotUnique q r idx hq hr
  · intro idx e he
    exact h.storedHash idx e (hold idx e he).2
  · intro hshape idx e he
    exact h.stringKeys hshape idx e (hold idx e he).2
  · obtain ⟨before, after, hsplit, rfl⟩ := entries_split hdead
    have hlive := live_eq_of_split hsplit
    have hcount := h.count
    rw [live_deleteEntry s hsplit]
    rw [hlive] at hcount
    show d.nValidEntries - 1 = _
    rw [hcount, List.length_append, List.length_append, List.length_cons]
    omega
  · obtain ⟨before, after, hsplit, rfl⟩ := entries_split hdead
    have hslots := h.entrySlots
    have hentry : (Slot.entry before.length).isEntry = true := rfl
    have htomb : ¬ Slot.tombstone.isEntry = true := Bool.noConfusion
    rw [live_eq_of_split hsplit, List.length_append, List.length_cons]
      at hslots
    rw [live_deleteEntry s hsplit, List.length_append]
    show (d.hashTable.set s .tombstone).countP _ = _
    rw [List.countP_set (slotAt_lt hs), hin, if_pos hentry, if_neg htomb,
      hslots]
    omega
  · show (d.hashTable.set s .tombstone).countP _ ≤
      (d.entries.set entryIdx none).length
    rw [List.length_set, List.countP_set (slotAt_lt hs)]
    have hpos : 0 < d.hashTable.countP
        (fun slot => decide (slot ≠ .notPresent)) := by
      apply List.countP_pos_iff.mpr
      refine ⟨_, List.getElem_mem (slotAt_lt hs), ?_⟩
      rw [hin]
      rfl
    have := h.occupied
    have hentry : decide (Slot.entry entryIdx ≠ .notPresent) = true := rfl
    have htomb : decide (Slot.tombstone ≠ .notPresent) = true := rfl
    rw [hin, if_pos hentry, if_pos htomb]
    omega

/-- What a change of a value keeps. -/
theorem entryAt_writeExisting (d : Dict K V) (entryIdx : Nat) (value : V)
    (idx : Nat) :
    (d.writeExisting entryIdx value).entryAt idx =
      if entryIdx = idx then
        (d.entryAt idx).map fun e => { e with value := value }
      else d.entryAt idx := by
  unfold entryAt writeExisting
  show ((d.entries.modify entryIdx _)[idx]?).join = _
  rw [List.getElem?_modify]
  by_cases heq : entryIdx = idx
  · simp only [if_pos heq]
    rcases d.entries[idx]? with _ | _ | e <;> rfl
  · simp only [if_neg heq]
    rcases d.entries[idx]? with _ | _ | e <;> rfl

theorem live_writeExisting {d : Dict K V} {e : Entry K V}
    {before after : List (Option (Entry K V))} (value : V)
    (h : d.entries = before ++ some e :: after) :
    (d.writeExisting before.length value).live =
      before.filterMap id ++ { e with value := value } ::
        after.filterMap id := by
  unfold live writeExisting
  show (d.entries.modify before.length _).filterMap id = _
  rw [h, List.modify_eq_take_drop, List.take_left, List.drop_left,
    List.filterMap_append]
  rfl

/-- A new value leaves the table, the keys and the hashes alone. -/
theorem wellFormed_writeExisting (h : WellFormed P d) {entryIdx : Nat}
    {e : Entry K V} (he : d.entryAt entryIdx = some e) (value : V) :
    WellFormed P (d.writeExisting entryIdx value) := by
  have hold : ∀ idx e', (d.writeExisting entryIdx value).entryAt idx =
      some e' → ∃ e₀, d.entryAt idx = some e₀ ∧ e'.key = e₀.key ∧
        e'.hash = e₀.hash := by
    intro idx e' he'
    rw [entryAt_writeExisting] at he'
    split at he'
    · obtain ⟨e₀, he₀, rfl⟩ := Option.map_eq_some_iff.mp he'
      exact ⟨e₀, he₀, rfl, rfl⟩
    · exact ⟨e', he', rfl, rfl⟩
  refine
    { powerOfTwo := h.powerOfTwo
      minSize := h.minSize
      entryOfSlot := ?_
      slotOfEntry := ?_
      slotUnique := h.slotUnique
      storedHash := ?_
      stringKeys := ?_
      count := ?_
      entrySlots := ?_
      occupied := ?_ }
  · intro s idx hs
    obtain ⟨e₀, he₀, hwalk⟩ := h.entryOfSlot s idx hs
    rw [entryAt_writeExisting, he₀]
    split
    · exact ⟨_, rfl, hwalk⟩
    · exact ⟨_, rfl, hwalk⟩
  · intro idx e' he'
    obtain ⟨e₀, he₀, _⟩ := hold idx e' he'
    exact h.slotOfEntry idx e₀ he₀
  · intro idx e' he'
    obtain ⟨e₀, he₀, hkey, hhash⟩ := hold idx e' he'
    rw [hkey, hhash]
    exact h.storedHash idx e₀ he₀
  · intro hshape idx e' he'
    obtain ⟨e₀, he₀, hkey, _⟩ := hold idx e' he'
    rw [hkey]
    exact h.stringKeys hshape idx e₀ he₀
  · obtain ⟨before, after, hsplit, rfl⟩ := entries_split he
    have hcount := h.count
    rw [live_eq_of_split hsplit] at hcount
    rw [live_writeExisting value hsplit]
    show d.nValidEntries = _
    rw [hcount, List.length_append, List.length_append, List.length_cons,
      List.length_cons]
  · obtain ⟨before, after, hsplit, rfl⟩ := entries_split he
    have hslots := h.entrySlots
    rw [live_eq_of_split hsplit] at hslots
    rw [live_writeExisting value hsplit]
    show d.hashTable.countP _ = _
    rw [hslots, List.length_append, List.length_append, List.length_cons,
      List.length_cons]
  · show d.hashTable.countP _ ≤ (d.entries.modify entryIdx _).length
    rw [List.length_modify]
    exact h.occupied

/-- Only the shape and the generation change in a promotion. -/
theorem wellFormed_promoteToGeneralShape (h : WellFormed P d) :
    WellFormed P d.promoteToGeneralShape :=
  { powerOfTwo := h.powerOfTwo
    minSize := h.minSize
    entryOfSlot := h.entryOfSlot
    slotOfEntry := h.slotOfEntry
    slotUnique := h.slotUnique
    storedHash := h.storedHash
    stringKeys := fun hshape => DictShape.noConfusion hshape
    count := h.count
    entrySlots := h.entrySlots
    occupied := h.occupied }

theorem wellFormed_maybePromoteToGeneralShape (h : WellFormed P d) :
    WellFormed P d.maybePromoteToGeneralShape := by
  unfold maybePromoteToGeneralShape
  split
  · exact wellFormed_promoteToGeneralShape h
  · exact h

/-! ## Growing -/

/-- The walk for an empty slot finds the first one. -/
theorem emptySlotFor_spec {table : List Slot} (hash : Int)
    (hpow : ∃ k, table.length = 2 ^ k)
    (hfree : ∃ s < table.length, table.getD s .notPresent = .notPresent) :
    ∃ s, emptySlotFor table hash = some s ∧
      (s < table.length ∧ table.getD s .notPresent = .notPresent ∧
        Reaches (fun q => table.getD q .notPresent ≠ .notPresent)
          table.length (maskHash hash table.length) s) := by
  obtain ⟨free, hlt, hfree⟩ := hfree
  let passed : Nat → Prop := fun q => table.getD q .notPresent ≠ .notPresent
  have hstop : ∃ q < table.length, ¬ passed q :=
    ⟨free, hlt, fun h => h hfree⟩
  have hbody : ∀ i s,
      Walked passed table.length (maskHash hash table.length) i s →
      (∃ s', emptySlotBody table s = .inl s' ∧
        Walked passed table.length (maskHash hash table.length) (i + 1) s') ∨
      ∃ b, emptySlotBody table s = .inr b ∧
        (b < table.length ∧ table.getD b .notPresent = .notPresent ∧
          Reaches passed table.length (maskHash hash table.length) b) := by
    intro i s h
    unfold emptySlotBody
    by_cases hs : table.getD s .notPresent ≠ .notPresent
    · rw [if_pos hs]
      exact .inl ⟨_, rfl, h.advance hpow hs⟩
    · rw [if_neg hs]
      refine .inr ⟨_, rfl, ?_, of_not_not hs, h.reaches (h.lt_size hstop)⟩
      rw [← h.place]
      exact position_lt _ _ (by omega)
  exact loop_spec (fun i s h => h.lt_size hstop) hbody _ 0 _ (by omega)
    (walked_start (maskHash_lt hash (by omega)))

/-- The dict that a compaction has built so far. -/
def compacted (d : Dict K V) (table : List Slot) (kept : List (Entry K V)) :
    Dict K V :=
  { d with
    hashTable := table
    entries := kept.map some
    nValidEntries := kept.length
    tableGeneration := d.tableGeneration + 1 }

theorem live_compacted (d : Dict K V) (table : List Slot)
    (kept : List (Entry K V)) : (compacted d table kept).live = kept := by
  unfold live compacted
  rw [List.filterMap_map]
  exact List.filterMap_some

theorem compacted_writeNewAtSlot (d : Dict K V) (table : List Slot)
    (kept : List (Entry K V)) (s : Nat) (e : Entry K V) :
    (compacted d table kept).writeNewAtSlot s e.hash e.key e.value =
      compacted d (table.set s (.entry kept.length)) (kept ++ [e]) := by
  unfold compacted writeNewAtSlot
  rw [List.map_append, List.length_append, List.length_map]
  rfl

/-- The compaction from entry `readIdx` on appends the live entries there to
those it has kept, and gives each a slot. -/
theorem compactFrom_spec (hd : WellFormed P d) :
    ∀ (remaining readIdx : Nat) (table : List Slot)
      (entries : List (Option (Entry K V))) (kept : List (Entry K V)),
      readIdx + remaining = entries.length →
      kept.length ≤ readIdx →
      entries.take kept.length = kept.map some →
      entries.drop readIdx = d.entries.drop readIdx →
      kept.length + ((entries.drop readIdx).filterMap id).length <
        table.length →
      WellFormed P (compacted d table kept) →
      ∃ writeIdx table' entries',
        compactFrom readIdx remaining kept.length table entries =
          some (writeIdx, table', entries') ∧
        table'.length = table.length ∧
        entries'.take writeIdx =
          (kept ++ (entries.drop readIdx).filterMap id).map some ∧
        WellFormed P (compacted d table'
          (kept ++ (entries.drop readIdx).filterMap id)) := by
  intro remaining
  induction remaining with
  | zero =>
      intro readIdx table entries kept hlen _ htake _ _ hwf
      have hdrop : entries.drop readIdx = [] :=
        List.drop_eq_nil_of_le (by omega)
      rw [hdrop, List.filterMap_nil, List.append_nil]
      exact ⟨kept.length, table, entries, rfl, rfl, htake, hwf⟩
  | succ remaining ih =>
      intro readIdx table entries kept hlen hle htake hdrop hroom hwf
      have hlt : readIdx < entries.length := by omega
      have hsplit : entries.drop readIdx =
          entries[readIdx] :: entries.drop (readIdx + 1) :=
        (List.getElem_cons_drop hlt).symm
      have hdrop' : entries.drop (readIdx + 1) =
          d.entries.drop (readIdx + 1) := by
        rw [← List.drop_drop, ← List.drop_drop, hdrop]
      unfold compactFrom
      rw [List.getElem?_eq_getElem hlt]
      rw [hsplit] at hroom ⊢
      rcases hentry : entries[readIdx] with _ | e
      · -- a dead entry is dropped
        rw [hentry, List.filterMap_cons_none rfl] at hroom
        rw [List.filterMap_cons_none rfl]
        exact ih (readIdx + 1) table entries kept (by omega) (by omega) htake
          hdrop' hroom hwf
      · -- a live entry is moved down and placed
        rw [hentry] at hroom
        have hcons : (some e :: entries.drop (readIdx + 1)).filterMap id =
            e :: (entries.drop (readIdx + 1)).filterMap id := rfl
        rw [hcons, List.length_cons] at hroom
        rw [hcons]
        have hfree := hwf.exists_notPresent (by
          show (kept.map some).length < table.length
          rw [List.length_map]
          omega)
        obtain ⟨s, hs, hslt, hsfree, hsreach⟩ :=
          @emptySlotFor_spec table e.hash hwf.powerOfTwo hfree
        have heIn : d.entryAt readIdx = some e := by
          rw [entryAt_eq_some, ← Nat.add_zero readIdx, ← List.getElem?_drop,
            ← hdrop, hsplit, hentry]
          rfl
        have hwf' := wellFormed_writeNewAtSlot hwf e.value hslt
          (fun idx h => Slot.noConfusion (hsfree.symm.trans h)) hsreach
          (hd.storedHash readIdx e heIn)
          (fun hshape => hd.stringKeys hshape readIdx e heIn)
        rw [compacted_writeNewAtSlot] at hwf'
        have hmove : (if kept.length ≠ readIdx then
            entries.set kept.length (some e) else entries) =
            entries.set kept.length (some e) := by
          split
          · rfl
          · rename_i heq
            have heq : kept.length = readIdx := of_not_not heq
            rw [heq, ← hentry, List.set_getElem_self]
        show ∃ writeIdx table' entries', (do
          let hashIdx ← emptySlotFor table e.hash
          compactFrom (readIdx + 1) remaining (kept.length + 1)
            (table.set hashIdx (.entry kept.length)) (if kept.length ≠ readIdx
              then entries.set kept.length (some e) else entries)) = _ ∧ _
        rw [hs, hmove, show kept ++ e :: (entries.drop (readIdx + 1)).filterMap
          id = (kept ++ [e]) ++ (entries.drop (readIdx + 1)).filterMap id by
            rw [List.append_assoc]; rfl]
        have hdropSet : (entries.set kept.length (some e)).drop (readIdx + 1) =
            entries.drop (readIdx + 1) :=
          List.drop_set_of_lt (by omega)
        have hih := ih (readIdx + 1) (table.set s (.entry kept.length))
          (entries.set kept.length (some e)) (kept ++ [e])
        rw [hdropSet, List.length_set, List.length_set, List.length_append,
          List.length_singleton] at hih
        refine hih (by omega) (by omega) ?_ hdrop' (by omega) hwf'
        rw [List.take_add_one, List.take_set_of_le (Nat.le_refl _), htake,
          List.getElem?_set_self (by omega), List.map_append]
        rfl

/-- A table over the same live entries as before, with twice the slots. -/
structure Grown (d d' : Dict K V) : Prop where
  live : d'.live = d.live
  entries : d'.entries.length = d.live.length
  table : d'.hashTable.length = d.hashTable.length * 2
  shape : d'.shape = d.shape
  generation : d'.tableGeneration = d.tableGeneration + 1

/-- The table that a compaction starts with. -/
theorem wellFormed_compacted_nil (h : WellFormed P d) :
    WellFormed P (compacted d
      (List.replicate (d.hashTable.length * 2) .notPresent) []) := by
  obtain ⟨k, hk⟩ := h.powerOfTwo
  have hmin := h.minSize
  exact wellFormed_vacant d.shape (d.tableGeneration + 1)
    ⟨k + 1, by rw [hk, Nat.pow_succ]⟩ (by omega)

/-- Growing keeps the live entries and their order. -/
theorem grow_spec (h : WellFormed P d)
    (hroom : d.live.length < d.hashTable.length * 2) :
    ∃ d', d.grow = some d' ∧ WellFormed P d' ∧ Grown d d' := by
  obtain ⟨writeIdx, table, entries, hrun, hlen, htake, hwf⟩ :=
    compactFrom_spec h d.entries.length 0
      (List.replicate (d.hashTable.length * 2) .notPresent) d.entries []
      (Nat.zero_add _) (Nat.le_refl _) rfl rfl
      (by
        rw [List.length_replicate]
        exact (Nat.zero_add _).symm ▸ hroom)
      (wellFormed_compacted_nil h)
  rw [List.length_replicate] at hlen
  have hlive : [] ++ (d.entries.drop 0).filterMap id = d.live := rfl
  rw [hlive] at htake hwf
  refine ⟨compacted d table d.live, ?_, hwf, ?_⟩
  · unfold grow
    show (compactFrom 0 d.entries.length ([] : List (Entry K V)).length
      (List.replicate (d.hashTable.length * 2) .notPresent) d.entries >>= _) = _
    rw [hrun]
    show some _ = some _
    unfold compacted
    rw [htake, h.count]
  · exact
      { live := live_compacted d table d.live
        entries := List.length_map _
        table := hlen
        shape := rfl
        generation := rfl }

/-- An insertion into a table with an empty slot finds one, and entries fewer
than slots, after its resize check. -/
theorem resizeGeneralIfNeeded_spec (h : WellFormed P d)
    (hroom : d.live.length < d.hashTable.length * 2) :
    ∃ d', d.resizeGeneralIfNeeded = some d' ∧ WellFormed P d' ∧
      d'.live = d.live ∧ d'.shape = d.shape ∧
      (d' = d ∧ d.entries.length ≤ d.hashTable.length * 3 / 4 ∨
        Grown d d') := by
  unfold resizeGeneralIfNeeded needsResizeForInsert
  by_cases hfull : d.entries.length > d.hashTable.length * 3 / 4
  · obtain ⟨d', hd', hwf, hgrown⟩ := grow_spec h hroom
    rw [if_pos (decide_eq_true hfull)]
    exact ⟨d', hd', hwf, hgrown.live, hgrown.shape, .inr hgrown⟩
  · rw [if_neg (by rw [decide_eq_true_iff]; exact hfull)]
    exact ⟨d, rfl, h, rfl, rfl, .inl ⟨rfl, Nat.le_of_not_lt hfull⟩⟩

end Invariant

end CloverVM.BuiltinTypes.Dict
