import CloverVM.BuiltinTypes.DictMap
import CloverVM.Collections.IteratorRun
import CloverVM.Runtime.BuiltinException

/-!
# Iterators over a dict

The iterators of `dict_view.cpp` keep an index into the entries and the size
that they expect the dict to have.
-/

namespace CloverVM.BuiltinTypes.Dict

open CloverVM.Collections
open CloverVM.Runtime (BuiltinException)

variable {K V : Type}

structure DictIterator where
  index : Nat
  expectedSize : Int
deriving DecidableEq, Repr

def DictIterator.make (d : Dict K V) : DictIterator where
  index := 0
  expectedSize := d.size

/-- What an iterator yields of an entry. -/
inductive EntryView (K V : Type) where
  | key (key : K)
  | value (value : V)
  | item (key : K) (value : V)
deriving DecidableEq, Repr

def changedSizeError : BuiltinException :=
  { typeName := "RuntimeError"
    message := "dictionary changed size during iteration" }

/-- `check_expected_size`: whether it is the expected one, and the iterator
after the check. -/
def checkExpectedSize (d : Dict K V) (it : DictIterator) :
    Bool × DictIterator :=
  if (d.size : Int) ≠ it.expectedSize then
    (false, { it with expectedSize := -1 })
  else
    (true, it)

/-- The loop of `next_entry`, over at most so many entries. -/
def scanEntries (d : Dict K V) : Nat → Nat → Nat × Option (Entry K V)
  | 0, scanIdx => (scanIdx, none)
  | fuel + 1, scanIdx =>
      match d.entryAt scanIdx with
      | some entry => (scanIdx + 1, some entry)
      | none => scanEntries d fuel (scanIdx + 1)

/-- `next_entry`: the new index, and the entry that was found. -/
def nextEntry (d : Dict K V) (index : Nat) : Nat × Option (Entry K V) :=
  scanEntries d (d.entries.length - index) index

/-- A next step of an iterator with a view of the entries. -/
def nativeDictIteratorNext (view : K → V → EntryView K V) (d : Dict K V)
    (it : DictIterator) :
    DictIterator × IteratorRun.Answer (EntryView K V) BuiltinException :=
  match checkExpectedSize d it with
  | (false, it) => (it, .error changedSizeError)
  | (true, it) =>
      match nextEntry d it.index with
      | (index, some entry) =>
          ({ it with index }, .yield (view entry.key entry.value))
      | (index, none) => ({ it with index }, .stop)

def nativeDictKeyIteratorNext (d : Dict K V) (it : DictIterator) :
    DictIterator × IteratorRun.Answer (EntryView K V) BuiltinException :=
  nativeDictIteratorNext (fun key _ => .key key) d it

def nativeDictValueIteratorNext (d : Dict K V) (it : DictIterator) :
    DictIterator × IteratorRun.Answer (EntryView K V) BuiltinException :=
  nativeDictIteratorNext (fun _ value => .value value) d it

def nativeDictItemIteratorNext (d : Dict K V) (it : DictIterator) :
    DictIterator × IteratorRun.Answer (EntryView K V) BuiltinException :=
  nativeDictIteratorNext .item d it

/-! ## The next entry -/

/-- The entries before an index that are live. -/
def liveBefore (d : Dict K V) (idx : Nat) : Nat :=
  (d.entries.take idx).countP Option.isSome

theorem liveBefore_le (d : Dict K V) (idx : Nat) :
    d.liveBefore idx ≤ idx :=
  (List.countP_le_length).trans (List.length_take_le _ _)

theorem length_live (d : Dict K V) :
    d.live.length = d.entries.countP Option.isSome := by
  unfold live
  exact List.length_filterMap_eq_countP

theorem liveBefore_le_length (d : Dict K V) (idx : Nat) :
    d.liveBefore idx ≤ d.live.length := by
  rw [length_live]
  exact (List.take_sublist _ _).countP_le

theorem entryAt_eq_none {d : Dict K V} {idx : Nat} :
    d.entryAt idx = none ↔ d.entries[idx]? = none ∨
      d.entries[idx]? = some none := by
  unfold entryAt
  cases d.entries[idx]? with
  | none => exact ⟨fun _ => .inl rfl, fun _ => rfl⟩
  | some entry =>
      cases entry with
      | none => exact ⟨fun _ => .inr rfl, fun _ => rfl⟩
      | some e => exact ⟨nofun, fun h => h.elim nofun nofun⟩

theorem liveBefore_succ_of_none {d : Dict K V} {idx : Nat}
    (h : d.entryAt idx = none) : d.liveBefore (idx + 1) = d.liveBefore idx := by
  unfold liveBefore
  rw [List.take_add_one, List.countP_append]
  rcases entryAt_eq_none.mp h with h | h
  · rw [h]
    rfl
  · rw [h]
    rfl

theorem liveBefore_succ_of_some {d : Dict K V} {idx : Nat} {e : Entry K V}
    (h : d.entryAt idx = some e) :
    d.liveBefore (idx + 1) = d.liveBefore idx + 1 := by
  unfold liveBefore
  rw [List.take_add_one, List.countP_append, entryAt_eq_some.mp h]
  rfl

/-- A live entry is the live entry with so many before it. -/
theorem live_getElem?_liveBefore {d : Dict K V} {idx : Nat} {e : Entry K V}
    (h : d.entryAt idx = some e) : d.live[d.liveBefore idx]? = some e := by
  have hSplit : ∀ (entries : List (Option (Entry K V))) (idx : Nat),
      entries[idx]? = some (some e) →
      (entries.filterMap id)[(entries.take idx).countP Option.isSome]? =
        some e := by
    intro entries
    induction entries with
    | nil => exact fun idx h => absurd h nofun
    | cons entry entries ih =>
        intro idx h
        cases idx with
        | zero =>
            obtain rfl := Option.some.inj h
            rfl
        | succ idx =>
            have hRest := ih idx h
            cases entry with
            | none => exact hRest
            | some f =>
                rw [List.take_succ_cons, List.countP_cons_of_pos rfl]
                exact hRest
  exact hSplit d.entries idx (entryAt_eq_some.mp h)

/-- Nothing is live from an index on: all that is live is before it. -/
theorem liveBefore_of_forall_none {d : Dict K V} {idx : Nat}
    (h : ∀ i, idx ≤ i → d.entryAt i = none) :
    d.liveBefore idx = d.live.length := by
  have hStep : ∀ n, d.liveBefore (idx + n) = d.liveBefore idx := by
    intro n
    induction n with
    | zero => rfl
    | succ n ih =>
        exact (liveBefore_succ_of_none (h (idx + n) (Nat.le_add_right ..))).trans
          ih
  rw [← hStep d.entries.length, length_live]
  unfold liveBefore
  rw [List.take_of_length_le (Nat.le_add_left ..)]

/-- The loop finds the first live entry, or passes the end. -/
theorem scanEntries_spec (d : Dict K V) :
    ∀ fuel scanIdx, d.entries.length ≤ scanIdx + fuel →
      (∃ idx e, scanEntries d fuel scanIdx = (idx + 1, some e) ∧
        scanIdx ≤ idx ∧ d.entryAt idx = some e ∧
        d.liveBefore idx = d.liveBefore scanIdx) ∨
      ∃ idx, scanEntries d fuel scanIdx = (idx, none) ∧ scanIdx ≤ idx ∧
        (∀ i, scanIdx ≤ i → d.entryAt i = none) := by
  intro fuel
  induction fuel with
  | zero =>
      intro scanIdx hEnd
      refine .inr ⟨scanIdx, rfl, Nat.le_refl _, fun i hi => ?_⟩
      exact entryAt_eq_none.mpr
        (.inl (List.getElem?_eq_none (by omega)))
  | succ fuel ih =>
      intro scanIdx hEnd
      unfold scanEntries
      cases hEntry : d.entryAt scanIdx with
      | some e =>
          exact .inl ⟨scanIdx, e, rfl, Nat.le_refl _, hEntry, rfl⟩
      | none =>
          rcases ih (scanIdx + 1) (by omega) with
            ⟨idx, e, hScan, hLe, hFound, hBefore⟩ | ⟨idx, hScan, hLe, hNone⟩
          · exact .inl ⟨idx, e, hScan, by omega, hFound,
              hBefore.trans (liveBefore_succ_of_none hEntry)⟩
          · refine .inr ⟨idx, hScan, by omega, fun i hi => ?_⟩
            rcases Nat.eq_or_lt_of_le hi with rfl | hLt
            · exact hEntry
            · exact hNone i hLt

theorem nextEntry_spec (d : Dict K V) (index : Nat) :
    (∃ idx e, nextEntry d index = (idx + 1, some e) ∧ index ≤ idx ∧
      d.entryAt idx = some e ∧ d.liveBefore idx = d.liveBefore index) ∨
    ∃ idx, nextEntry d index = (idx, none) ∧ index ≤ idx ∧
      ∀ i, index ≤ i → d.entryAt i = none :=
  scanEntries_spec d _ index (by omega)

/-- The iterator has nothing to go on with: the dict has the expected size, and
no live entry at the index or after it. -/
def Spent (d : Dict K V) (it : DictIterator) : Prop :=
  (d.size : Int) = it.expectedSize ∧
    ∀ i, it.index ≤ i → d.entryAt i = none

theorem nativeDictIteratorNext_stop_iff (view : K → V → EntryView K V)
    (d : Dict K V) (it : DictIterator) :
    (nativeDictIteratorNext view d it).2 = .stop ↔ Spent d it := by
  unfold nativeDictIteratorNext checkExpectedSize Spent
  by_cases hSize : (d.size : Int) = it.expectedSize
  · rw [if_neg (not_not.mpr hSize)]
    dsimp only
    rcases nextEntry_spec d it.index with
      ⟨idx, e, hNext, hLe, hEntry, -⟩ | ⟨idx, hNext, -, hNone⟩
    · rw [hNext]
      refine ⟨nofun, fun h => ?_⟩
      exact absurd (hEntry.symm.trans (h.2 idx hLe)) nofun
    · rw [hNext]
      exact ⟨fun _ => ⟨hSize, hNone⟩, fun _ => rfl⟩
  · rw [if_pos hSize]
    exact ⟨nofun, fun h => absurd h.1 hSize⟩

theorem nativeDictKeyIteratorNext_stop_iff (d : Dict K V) (it : DictIterator) :
    (nativeDictKeyIteratorNext d it).2 = .stop ↔ Spent d it :=
  nativeDictIteratorNext_stop_iff _ d it

theorem nativeDictValueIteratorNext_stop_iff (d : Dict K V)
    (it : DictIterator) :
    (nativeDictValueIteratorNext d it).2 = .stop ↔ Spent d it :=
  nativeDictIteratorNext_stop_iff _ d it

theorem nativeDictItemIteratorNext_stop_iff (d : Dict K V)
    (it : DictIterator) :
    (nativeDictItemIteratorNext d it).2 = .stop ↔ Spent d it :=
  nativeDictIteratorNext_stop_iff _ d it

end CloverVM.BuiltinTypes.Dict
