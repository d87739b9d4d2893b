import CloverVM.BuiltinTypes.DictOperations
import CloverVM.Collections.OrderedMap

/-!
# A dict is an insertion-ordered map

Under a lawful key protocol the live entries of a dict, in their order, are the
items of an insertion-ordered map, and each operation does to them what the map
operation does.  The load of the table carries the argument that walks end: an
insertion checks it first, so an empty slot is always left.
-/

namespace CloverVM.BuiltinTypes.Dict

open CloverVM.Collections
open CloverVM.Collections.LinearProbe

variable {K V T : Type} [DecidableEq K] [DecidableEq T]

/-- The items of the live entries. -/
def items (d : Dict K V) : OrderedMap K V :=
  d.live.map fun e => (e.key, e.value)

/-- The dict stands for the map. -/
structure Represents (P : KeyProtocol K T) (d : Dict K V)
    (m : OrderedMap K V) : Prop where
  wellFormed : WellFormed P d
  items : d.items = m
  distinct : OrderedMap.Distinct P.keyEqual m
  loaded : d.entries.length ≤ d.hashTable.length * 3 / 4 + 1

section Steps

variable {P : KeyProtocol K T} {d : Dict K V} {m : OrderedMap K V} {key : K}

theorem Represents.room (h : Represents P d m) :
    ∃ s < d.hashTable.length, d.slotAt s = .notPresent := by
  apply h.wellFormed.exists_notPresent
  have hload := h.loaded
  have hmin := h.wellFormed.minSize
  unfold minTableSize at hmin
  omega

theorem Represents.size_eq (h : Represents P d m) : d.size = m.length := by
  unfold size
  rw [h.wellFormed.count, ← h.items]
  exact (List.length_map _).symm

/-! ## A walk's answer, read in the map -/

/-- A hit is an item of the map with an equal key. -/
theorem Represents.split (h : Represents P d m) {s idx : Nat}
    (hit : Hit P d key s idx) :
    ∃ e before after, d.entryAt idx = some e ∧
      P.keyEqual e.key key = true ∧
      d.entries = before ++ some e :: after ∧ before.length = idx ∧
      m = (before.filterMap id).map (fun e => (e.key, e.value)) ++
        (e.key, e.value) ::
          (after.filterMap id).map (fun e => (e.key, e.value)) := by
  obtain ⟨_, e, he, hkey⟩ := hit
  obtain ⟨before, after, hsplit, hlen⟩ := entries_split he
  refine ⟨e, before, after, he, hkey, hsplit, hlen, ?_⟩
  rw [← h.items]
  unfold Dict.items
  rw [live_eq_of_split hsplit, List.map_append, List.map_cons]

theorem Represents.absent (h : Represents P d m) (hmiss : Miss P d key) :
    ∀ other ∈ m, P.keyEqual other.1 key = false := by
  intro other hother
  rw [← h.items] at hother
  obtain ⟨e, he, rfl⟩ := List.mem_map.mp hother
  exact hmiss e he

theorem Represents.value_of_hit (hP : Lawful P) (h : Represents P d m)
    {s idx : Nat} (hit : Hit P d key s idx) :
    (d.entryAt idx).map Entry.value = OrderedMap.find P.keyEqual m key ∧
      OrderedMap.holds P.keyEqual m key = true := by
  obtain ⟨e, before, after, he, hkey, _, _, hm⟩ := h.split hit
  have hd := h.distinct
  rw [hm] at hd ⊢
  constructor
  · rw [he, OrderedMap.find_split hP.equivalence hd hkey]
    rfl
  · exact OrderedMap.holds_split hkey

theorem Represents.writeExisting (hP : Lawful P) (h : Represents P d m)
    {s idx : Nat} (hit : Hit P d key s idx) (value : V) :
    Represents P (d.writeExisting idx value)
      (OrderedMap.set P.keyEqual m key value) := by
  obtain ⟨e, before, after, he, hkey, hsplit, rfl, hm⟩ := h.split hit
  have hd := h.distinct
  rw [hm] at hd ⊢
  rw [OrderedMap.set_split hP.equivalence hd hkey]
  refine
    { wellFormed := wellFormed_writeExisting h.wellFormed he value
      items := ?_
      distinct := hd.replace value
      loaded := ?_ }
  · unfold Dict.items
    rw [live_writeExisting value hsplit, List.map_append, List.map_cons]
  · show (d.entries.modify _ _).length ≤ _
    rw [List.length_modify]
    exact h.loaded

theorem Represents.deleteEntry (hP : Lawful P) (h : Represents P d m)
    {s idx : Nat} (hit : Hit P d key s idx) :
    Represents P (d.deleteEntry s idx)
      (OrderedMap.erase P.keyEqual m key) := by
  obtain ⟨e, before, after, he, hkey, hsplit, rfl, hm⟩ := h.split hit
  have hd := h.distinct
  rw [hm] at hd ⊢
  rw [OrderedMap.erase_split hP.equivalence hd hkey]
  refine
    { wellFormed := wellFormed_deleteEntry h.wellFormed hit.1
      items := ?_
      distinct := hd.remove
      loaded := ?_ }
  · unfold Dict.items
    rw [live_deleteEntry s hsplit, List.map_append]
  · show (d.entries.set _ none).length ≤
      (d.hashTable.set s .tombstone).length * 3 / 4 + 1
    rw [List.length_set, List.length_set]
    exact h.loaded

/-- A new entry, in a table that passed the check of its load. -/
theorem Represents.writeNewAtSlot (h : Represents P d m) {s : Nat}
    (hload : d.entries.length ≤ d.hashTable.length * 3 / 4)
    (hmiss : Miss P d key) (hs : s < d.hashTable.length)
    (hfree : ∀ idx, d.slotAt s ≠ .entry idx)
    (hreach : d.WalkReaches (P.hashValue key) s)
    (hstring : d.shape = .stringKeyed → P.isString key = true) (value : V) :
    Represents P (d.writeNewAtSlot s (P.hashValue key) key value)
      (OrderedMap.set P.keyEqual m key value) := by
  have habsent := h.absent hmiss
  rw [OrderedMap.set_of_absent habsent]
  refine
    { wellFormed :=
        wellFormed_writeNewAtSlot h.wellFormed value hs hfree hreach rfl hstring
      items := ?_
      distinct := h.distinct.append_absent habsent value
      loaded := ?_ }
  · unfold Dict.items
    rw [live_writeNewAtSlot, List.map_append, ← h.items]
    rfl
  · show (d.entries ++ [some _]).length ≤
      (d.hashTable.set s _).length * 3 / 4 + 1
    rw [List.length_append, List.length_set]
    exact Nat.succ_le_succ hload

/-- The write of an insertion at the slot its walk found. -/
theorem Represents.storeAt (hP : Lawful P) (h : Represents P d m) {s : Nat}
    (hload : d.entries.length ≤ d.hashTable.length * 3 / 4)
    (hs : InsertSlot P d key s)
    (hstring : d.shape = .stringKeyed → P.isString key = true) (value : V) :
    Represents P (d.storeAt s (P.hashValue key) key value)
      (OrderedMap.set P.keyEqual m key value) := by
  unfold Dict.storeAt
  rcases hs with ⟨idx, hit⟩ | ⟨hmiss, hlt, hfree, hreach⟩
  · rw [hit.1]
    exact h.writeExisting hP hit value
  · have hnew := h.writeNewAtSlot hload hmiss hlt hfree hreach hstring value
    rcases hslot : d.slotAt s with _ | _ | idx
    · exact hnew
    · exact hnew
    · exact absurd hslot (hfree idx)

/-- The write adds no entry when the key is there. -/
theorem Represents.storeAt_entries (h : Represents P d m) {s : Nat}
    (hs : InsertSlot P d key s)
    (hholds : OrderedMap.holds P.keyEqual m key = true) (hash : Int)
    (value : V) :
    (d.storeAt s hash key value).entries.length = d.entries.length := by
  rcases hs with ⟨idx, hit⟩ | ⟨hmiss, _⟩
  · unfold Dict.storeAt
    rw [hit.1]
    exact List.length_modify _ _ _
  · rw [OrderedMap.holds_eq_false (h.absent hmiss)] at hholds
    exact Bool.noConfusion hholds

theorem Represents.maybePromote (h : Represents P d m) :
    Represents P d.maybePromoteToGeneralShape m := by
  have hwf := wellFormed_maybePromoteToGeneralShape h.wellFormed
  unfold maybePromoteToGeneralShape at *
  split
  · exact
      { wellFormed := wellFormed_promoteToGeneralShape h.wellFormed
        items := h.items
        distinct := h.distinct
        loaded := h.loaded }
  · exact h

omit [DecidableEq K] in
theorem maybePromote_shape (d : Dict K V) :
    d.maybePromoteToGeneralShape.shape = .general := by
  unfold maybePromoteToGeneralShape
  split
  · rfl
  · assumption

omit [DecidableEq K] in
theorem maybePromote_entries (d : Dict K V) :
    d.maybePromoteToGeneralShape.entries = d.entries := by
  unfold maybePromoteToGeneralShape
  split <;> rfl

/-- The check of the load leaves room for one entry more. -/
theorem Represents.resize (h : Represents P d m) :
    ∃ d', d.resizeGeneralIfNeeded = some d' ∧ Represents P d' m ∧
      d'.shape = d.shape ∧
      d'.entries.length ≤ d'.hashTable.length * 3 / 4 ∧
      d'.entries.length ≤ d.entries.length := by
  have hload := h.loaded
  have hlive : d.live.length ≤ d.entries.length := List.length_filterMap_le _ _
  have hmin := h.wellFormed.minSize
  unfold minTableSize at hmin
  obtain ⟨d', hd', hwf, hsame, hshape, hcase⟩ :=
    resizeGeneralIfNeeded_spec h.wellFormed (by omega)
  have hload' : d'.entries.length ≤ d'.hashTable.length * 3 / 4 ∧
      d'.entries.length ≤ d.entries.length := by
    rcases hcase with ⟨rfl, hle⟩ | hgrown
    · exact ⟨hle, Nat.le_refl _⟩
    · rw [hgrown.entries, hgrown.table]
      exact ⟨by omega, hlive⟩
  refine ⟨d', hd', ?_, hshape, hload'⟩
  exact
    { wellFormed := hwf
      items := by
        unfold Dict.items
        rw [hsame]
        exact h.items
      distinct := h.distinct
      loaded := Nat.le_succ_of_le hload'.1 }

omit [DecidableEq K] [DecidableEq T] in
theorem stringPath_iff :
    stringPath P d key = true ↔
      d.shape = .stringKeyed ∧ P.isString key = true := by
  unfold stringPath
  rw [Bool.and_eq_true, decide_eq_true_iff]

theorem stringKeyedInsert_represents (hP : Lawful P) (h : Represents P d m)
    (hshape : d.shape = .stringKeyed) (hkey : P.isString key = true)
    (value : V) :
    ∃ d', stringKeyedInsert P d key value = some d' ∧
      Represents P d' (OrderedMap.set P.keyEqual m key value) ∧
      (OrderedMap.holds P.keyEqual m key = true →
        d'.entries.length ≤ d.entries.length) := by
  obtain ⟨grown, hgrown, hrep, hsame, hload, hle⟩ := h.resize
  obtain ⟨s, hs, hslot⟩ := findEntry_spec hP hrep.wellFormed
    (hsame.trans hshape) hkey hrep.room
  refine ⟨_, ?_, hrep.storeAt hP hload hslot (fun _ => hkey) value,
    fun hholds => (hrep.storeAt_entries hslot hholds _ _).trans_le hle⟩
  unfold stringKeyedInsert
  rw [hgrown]
  show (findEntry P grown key >>= fun hashIdx =>
    some (grown.storeAt hashIdx (P.hashValue key) key value)) = _
  rw [hs]
  rfl

theorem generalStore_represents (hP : Lawful P) (h : Represents P d m)
    (hshape : d.shape = .general) (value : V) :
    ∃ d', generalStore P d key value (P.hashValue key) = some d' ∧
      Represents P d' (OrderedMap.set P.keyEqual m key value) ∧
      (OrderedMap.holds P.keyEqual m key = true →
        d'.entries.length ≤ d.entries.length) := by
  obtain ⟨grown, hgrown, hrep, hsame, hload, hle⟩ := h.resize
  obtain ⟨s, hs, hslot⟩ :=
    findEntrySlotForGeneralInsert_spec hP hrep.wellFormed hrep.room key
  refine ⟨_, ?_, hrep.storeAt hP hload hslot (fun hstring => ?_) value,
    fun hholds => (hrep.storeAt_entries hslot hholds _ _).trans_le hle⟩
  · unfold generalStore
    rw [hgrown]
    show (findEntrySlotForGeneralInsert P grown key (P.hashValue key) >>=
      fun hashIdx =>
        some (grown.storeAt hashIdx (P.hashValue key) key value)) = _
    rw [hs]
    rfl
  · rw [hsame, hshape] at hstring
    exact DictShape.noConfusion hstring

/-- `update_from_dict` stores with the hash of the other dict, which is the
hash of the key. -/
theorem setItemWithKnownHash_represents (hP : Lawful P)
    (h : Represents P d m) (key : K) (value : V) :
    ∃ d', setItemWithKnownHash P d key value (P.hashValue key) = some d' ∧
      Represents P d' (OrderedMap.set P.keyEqual m key value) ∧
      (OrderedMap.holds P.keyEqual m key = true →
        d'.entries.length ≤ d.entries.length) := by
  unfold setItemWithKnownHash
  by_cases hpath : stringPath P d key = true
  · rw [if_pos hpath]
    obtain ⟨hshape, hkey⟩ := stringPath_iff.mp hpath
    exact stringKeyedInsert_represents hP h hshape hkey value
  · rw [if_neg hpath, ← maybePromote_entries d]
    exact generalStore_represents hP h.maybePromote (maybePromote_shape d)
      value

theorem setItem_represents (hP : Lawful P) (h : Represents P d m) (key : K)
    (value : V) :
    ∃ d', setItem P d key value = some d' ∧
      Represents P d' (OrderedMap.set P.keyEqual m key value) := by
  obtain ⟨d', hd', hrep, _⟩ := setItemWithKnownHash_represents hP h key value
  exact ⟨d', hd', hrep⟩

/-! ## Looking up -/

/-- What a string path's slot says about its key. -/
theorem entryOfSlotAt_insertSlot (hP : Lawful P) (h : Represents P d m)
    {s : Nat} (hs : InsertSlot P d key s) :
    (d.entryOfSlotAt s).map Entry.value =
        OrderedMap.find P.keyEqual m key ∧
      (d.slotAt s).isEntry = OrderedMap.holds P.keyEqual m key := by
  unfold entryOfSlotAt
  rcases hs with ⟨idx, hit⟩ | ⟨hmiss, _, hfree, _⟩
  · obtain ⟨hfind, hholds⟩ := h.value_of_hit hP hit
    rw [hit.1, hholds]
    exact ⟨hfind, rfl⟩
  · have habsent := h.absent hmiss
    rw [OrderedMap.find_eq_none habsent, OrderedMap.holds_eq_false habsent]
    rcases hslot : d.slotAt s with _ | _ | idx
    · exact ⟨rfl, rfl⟩
    · exact ⟨rfl, rfl⟩
    · exact absurd hslot (hfree idx)

theorem getItemIfPresent_represents (hP : Lawful P) (h : Represents P d m)
    (key : K) :
    ∃ d', getItemIfPresent P d key =
        some (d', OrderedMap.find P.keyEqual m key) ∧
      Represents P d' m := by
  unfold getItemIfPresent
  by_cases hpath : stringPath P d key = true
  · obtain ⟨hshape, hkey⟩ := stringPath_iff.mp hpath
    obtain ⟨s, hs, hslot⟩ :=
      findEntry_spec hP h.wellFormed hshape hkey h.room
    rw [if_pos hpath, hs]
    refine ⟨d, ?_, h⟩
    show some (d, (d.entryOfSlotAt s).map Entry.value) = _
    rw [(entryOfSlotAt_insertSlot hP h hslot).1]
  · rw [if_neg hpath]
    have hgen := h.maybePromote
    obtain ⟨r, hr, hanswer⟩ :=
      generalLookup_spec hP hgen.wellFormed hgen.room key
    refine ⟨_, ?_, hgen⟩
    show ((generalGetItemIfPresent P d.maybePromoteToGeneralShape key) >>=
      fun value => some (d.maybePromoteToGeneralShape, value)) = _
    unfold generalGetItemIfPresent findEntryIndexForGeneralLookup
    rw [hr]
    rcases r with _ | ⟨s, idx⟩
    · rw [OrderedMap.find_eq_none (hgen.absent hanswer)]
      rfl
    · rw [← (hgen.value_of_hit hP hanswer).1]
      rfl

theorem contains_represents (hP : Lawful P) (h : Represents P d m)
    (key : K) :
    ∃ d', contains P d key =
        some (d', OrderedMap.holds P.keyEqual m key) ∧
      Represents P d' m := by
  unfold contains
  by_cases hpath : stringPath P d key = true
  · obtain ⟨hshape, hkey⟩ := stringPath_iff.mp hpath
    obtain ⟨s, hs, hslot⟩ :=
      findEntry_spec hP h.wellFormed hshape hkey h.room
    rw [if_pos hpath, hs]
    refine ⟨d, ?_, h⟩
    show some (d, (d.slotAt s).isEntry) = _
    rw [(entryOfSlotAt_insertSlot hP h hslot).2]
  · rw [if_neg hpath]
    have hgen := h.maybePromote
    obtain ⟨r, hr, hanswer⟩ :=
      generalLookup_spec hP hgen.wellFormed hgen.room key
    refine ⟨_, ?_, hgen⟩
    show ((generalContains P d.maybePromoteToGeneralShape key) >>=
      fun present => some (d.maybePromoteToGeneralShape, present)) = _
    unfold generalContains findEntryIndexForGeneralLookup
    rw [hr]
    rcases r with _ | ⟨s, idx⟩
    · rw [OrderedMap.holds_eq_false (hgen.absent hanswer)]
      rfl
    · rw [(hgen.value_of_hit hP hanswer).2]
      rfl

/-! ## Deleting -/

theorem deleteEntryAtSlot_of_hit {s idx : Nat} (hit : Hit P d key s idx) :
    d.deleteEntryAtSlot s = some (d.deleteEntry s idx) := by
  unfold deleteEntryAtSlot
  rw [hit.1]

/-- The walk of a deletion on the general path. -/
theorem findEntrySlotForGeneralLookup_spec (hP : Lawful P)
    (h : Represents P d m) (key : K) :
    (findEntrySlotForGeneralLookup P d key (P.hashValue key) = some none ∧
      Miss P d key) ∨
    ∃ s idx, findEntrySlotForGeneralLookup P d key (P.hashValue key) =
      some (some s) ∧ Hit P d key s idx := by
  obtain ⟨r, hr, hanswer⟩ := generalLookup_spec hP h.wellFormed h.room key
  unfold findEntrySlotForGeneralLookup
  rw [hr]
  rcases r with _ | ⟨s, idx⟩
  · exact .inl ⟨rfl, hanswer⟩
  · exact .inr ⟨s, idx, rfl, hanswer⟩

theorem generalPopItemIfPresent_represents (hP : Lawful P)
    (h : Represents P d m) (key : K) :
    ∃ d', generalPopItemIfPresent P d key =
        some (d', OrderedMap.find P.keyEqual m key) ∧
      Represents P d' (OrderedMap.erase P.keyEqual m key) := by
  unfold generalPopItemIfPresent
  rcases findEntrySlotForGeneralLookup_spec hP h key with
    ⟨hr, hmiss⟩ | ⟨s, idx, hr, hit⟩
  · have habsent := h.absent hmiss
    rw [hr, OrderedMap.find_eq_none habsent,
      OrderedMap.erase_of_absent habsent]
    exact ⟨d, rfl, h⟩
  · refine ⟨_, ?_, h.deleteEntry hP hit⟩
    rw [hr]
    show (d.deleteEntryAtSlot s >>= fun d' =>
      some (d', (d.entryOfSlotAt s).map Entry.value)) = _
    rw [deleteEntryAtSlot_of_hit hit, ← (h.value_of_hit hP hit).1]
    unfold entryOfSlotAt
    rw [hit.1]
    rfl

theorem takeSlot_represents (hP : Lawful P) (h : Represents P d m) {s : Nat}
    (hs : InsertSlot P d key s) :
    (d.takeSlot s).2 = OrderedMap.find P.keyEqual m key ∧
      Represents P (d.takeSlot s).1
        (OrderedMap.erase P.keyEqual m key) := by
  unfold takeSlot
  rcases hs with ⟨idx, hit⟩ | ⟨hmiss, _, hfree, _⟩
  · rw [hit.1]
    exact ⟨(h.value_of_hit hP hit).1, h.deleteEntry hP hit⟩
  · have habsent := h.absent hmiss
    rw [OrderedMap.find_eq_none habsent, OrderedMap.erase_of_absent habsent]
    rcases hslot : d.slotAt s with _ | _ | idx
    · exact ⟨rfl, h⟩
    · exact ⟨rfl, h⟩
    · exact absurd hslot (hfree idx)

theorem popItemIfPresent_represents (hP : Lawful P) (h : Represents P d m)
    (key : K) :
    ∃ d', popItemIfPresent P d key =
        some (d', OrderedMap.find P.keyEqual m key) ∧
      Represents P d' (OrderedMap.erase P.keyEqual m key) := by
  unfold popItemIfPresent
  by_cases hpath : stringPath P d key = true
  · obtain ⟨hshape, hkey⟩ := stringPath_iff.mp hpath
    obtain ⟨s, hs, hslot⟩ :=
      findEntry_spec hP h.wellFormed hshape hkey h.room
    obtain ⟨hvalue, hrep⟩ := takeSlot_represents hP h hslot
    refine ⟨_, ?_, hrep⟩
    rw [if_pos hpath, hs, ← hvalue]
    rfl
  · rw [if_neg hpath]
    exact generalPopItemIfPresent_represents hP h.maybePromote key

/-- The answer of a deletion. -/
def deletion {α : Type} : Option α → Except DictError Unit
  | some _ => .ok ()
  | none => .error .keyError

theorem deletion_of_hit (hP : Lawful P) (h : Represents P d m) {s idx : Nat}
    (hit : Hit P d key s idx) :
    deletion (OrderedMap.find P.keyEqual m key) = .ok () := by
  rw [← (h.value_of_hit hP hit).1]
  obtain ⟨_, e, he, _⟩ := hit
  rw [he]
  rfl

theorem stringKeyedDelete_represents (hP : Lawful P) (h : Represents P d m)
    (hshape : d.shape = .stringKeyed) (hkey : P.isString key = true) :
    ∃ d', stringKeyedDelete P d key =
        some (d', deletion (OrderedMap.find P.keyEqual m key)) ∧
      Represents P d' (OrderedMap.erase P.keyEqual m key) := by
  obtain ⟨s, hs, hslot⟩ := findEntry_spec hP h.wellFormed hshape hkey h.room
  unfold stringKeyedDelete
  rw [hs]
  rcases hslot with ⟨idx, hit⟩ | ⟨hmiss, _, hfree, _⟩
  · refine ⟨_, ?_, h.deleteEntry hP hit⟩
    rw [deletion_of_hit hP h hit]
    rw [Option.bind_eq_bind, Option.bind_some, hit.1]
    rfl
  · have habsent := h.absent hmiss
    rw [OrderedMap.find_eq_none habsent, OrderedMap.erase_of_absent habsent]
    refine ⟨d, ?_, h⟩
    rw [Option.bind_eq_bind, Option.bind_some]
    rcases hcase : d.slotAt s with _ | _ | idx
    · rfl
    · rfl
    · exact absurd hcase (hfree idx)

theorem generalDelItem_represents (hP : Lawful P) (h : Represents P d m)
    (key : K) :
    ∃ d', generalDelItem P d key =
        some (d', deletion (OrderedMap.find P.keyEqual m key)) ∧
      Represents P d' (OrderedMap.erase P.keyEqual m key) := by
  unfold generalDelItem
  rcases findEntrySlotForGeneralLookup_spec hP h key with
    ⟨hr, hmiss⟩ | ⟨s, idx, hr, hit⟩
  · have habsent := h.absent hmiss
    rw [hr, OrderedMap.find_eq_none habsent,
      OrderedMap.erase_of_absent habsent]
    exact ⟨d, rfl, h⟩
  · refine ⟨_, ?_, h.deleteEntry hP hit⟩
    rw [hr, deletion_of_hit hP h hit]
    show (d.deleteEntryAtSlot s >>= fun d' =>
      some (d', (Except.ok () : Except DictError Unit))) = _
    rw [deleteEntryAtSlot_of_hit hit]
    rfl

theorem delItem_represents (hP : Lawful P) (h : Represents P d m) (key : K) :
    ∃ d', delItem P d key =
        some (d', deletion (OrderedMap.find P.keyEqual m key)) ∧
      Represents P d' (OrderedMap.erase P.keyEqual m key) := by
  unfold delItem
  by_cases hpath : stringPath P d key = true
  · rw [if_pos hpath]
    obtain ⟨hshape, hkey⟩ := stringPath_iff.mp hpath
    exact stringKeyedDelete_represents hP h hshape hkey
  · rw [if_neg hpath]
    exact generalDelItem_represents hP h.maybePromote key

/-! ## Set default -/

/-- What `setdefault` does to a map. -/
def setdefaultMap (P : KeyProtocol K T) (m : OrderedMap K V) (key : K)
    (value : V) : OrderedMap K V × V × Bool :=
  match OrderedMap.find P.keyEqual m key with
  | some old => (m, old, true)
  | none => (OrderedMap.set P.keyEqual m key value, value, false)

theorem setdefaultMap_of_hit (hP : Lawful P) (h : Represents P d m)
    {s idx : Nat} (hit : Hit P d key s idx) (value : V) :
    ∃ e, d.entryOfSlotAt s = some e ∧
      setdefaultMap P m key value = (m, e.value, true) := by
  have hfind := (h.value_of_hit hP hit).1
  obtain ⟨hslot, e, he, _⟩ := hit
  refine ⟨e, ?_, ?_⟩
  · unfold entryOfSlotAt
    rw [hslot]
    exact he
  · unfold setdefaultMap
    rw [← hfind, he]
    rfl

theorem setdefaultMap_of_miss (h : Represents P d m) (hmiss : Miss P d key)
    (value : V) :
    setdefaultMap P m key value =
      (OrderedMap.set P.keyEqual m key value, value, false) := by
  unfold setdefaultMap
  rw [OrderedMap.find_eq_none (h.absent hmiss)]

omit [DecidableEq K] in
theorem entryOfSlotAt_of_free {s : Nat}
    (hfree : ∀ idx, d.slotAt s ≠ .entry idx) : d.entryOfSlotAt s = none := by
  unfold entryOfSlotAt
  rcases hcase : d.slotAt s with _ | _ | idx
  · rfl
  · rfl
  · exact absurd hcase (hfree idx)

theorem generalSetdefaultWithPresence_represents (hP : Lawful P)
    (h : Represents P d m) (hshape : d.shape = .general) (key : K)
    (value : V) :
    ∃ d', generalSetdefaultWithPresence P d key value =
        some (d', (setdefaultMap P m key value).2) ∧
      Represents P d' (setdefaultMap P m key value).1 := by
  obtain ⟨grown, hgrown, hrep, hsame, hload, _⟩ := h.resize
  obtain ⟨s, hs, hslot⟩ :=
    findEntrySlotForGeneralInsert_spec hP hrep.wellFormed hrep.room key
  unfold generalSetdefaultWithPresence
  simp only [hgrown, hs, Option.bind_eq_bind, Option.bind_some]
  rcases hslot with ⟨idx, hit⟩ | ⟨hmiss, hlt, hfree, hreach⟩
  · obtain ⟨e, he, hmap⟩ := setdefaultMap_of_hit hP hrep hit value
    rw [hmap]
    refine ⟨grown, ?_, hrep⟩
    rw [he]
    rfl
  · rw [setdefaultMap_of_miss hrep hmiss]
    refine ⟨_, ?_, hrep.writeNewAtSlot hload hmiss hlt hfree hreach ?_ value⟩
    · rw [entryOfSlotAt_of_free hfree]
      rfl
    · intro hstring
      rw [hsame, hshape] at hstring
      exact DictShape.noConfusion hstring

theorem setdefaultWithPresence_represents (hP : Lawful P)
    (h : Represents P d m) (key : K) (value : V) :
    ∃ d', setdefaultWithPresence P d key value =
        some (d', (setdefaultMap P m key value).2) ∧
      Represents P d' (setdefaultMap P m key value).1 := by
  unfold setdefaultWithPresence
  by_cases hpath : stringPath P d key = true
  · rw [if_pos hpath]
    obtain ⟨hshape, hkey⟩ := stringPath_iff.mp hpath
    obtain ⟨s, hs, hslot⟩ := findEntry_spec hP h.wellFormed hshape hkey h.room
    simp only [hs, Option.bind_eq_bind, Option.bind_some]
    rcases hslot with ⟨idx, hit⟩ | ⟨hmiss, hlt, hfree, hreach⟩
    · obtain ⟨e, he, hmap⟩ := setdefaultMap_of_hit hP h hit value
      rw [he, hmap]
      exact ⟨d, rfl, h⟩
    · rw [entryOfSlotAt_of_free hfree, setdefaultMap_of_miss h hmiss]
      obtain ⟨d', hd', hrep, _⟩ :=
        stringKeyedInsert_represents hP h hshape hkey value
      refine ⟨d', ?_, hrep⟩
      rw [hd']
      rfl
  · rw [if_neg hpath]
    exact generalSetdefaultWithPresence_represents hP h.maybePromote
      (maybePromote_shape d) key value

end Steps

end CloverVM.BuiltinTypes.Dict
