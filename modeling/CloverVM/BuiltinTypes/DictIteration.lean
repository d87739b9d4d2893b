import CloverVM.BuiltinTypes.DictIterator
import CloverVM.BuiltinTypes.DictProgram

/-!
# Iterating over a dict while values are overwritten

An iterator over a dict whose values are overwritten should go on as if nothing
had happened: its number `k` step answers item `k` of the map that the dict
stands for.  An insertion makes room before it looks for its key, so that an
overwrite too may compact the entries under the iterator.
-/

namespace CloverVM.BuiltinTypes.Dict

open CloverVM.Collections
open CloverVM.Runtime (BuiltinException)

variable {K V T : Type} [DecidableEq K] [DecidableEq T]

/-- Which entries are live. -/
def places (d : Dict K V) : List Bool := d.entries.map Option.isSome

section Places

variable {P : KeyProtocol K T} {d d' : Dict K V} {m : OrderedMap K V} {key : K}

omit [DecidableEq K] in
theorem liveBefore_eq_places (d : Dict K V) (idx : Nat) :
    d.liveBefore idx = (d.places.take idx).countP id := by
  unfold liveBefore places
  rw [← List.map_take, List.countP_map]
  rfl

omit [DecidableEq K] in
theorem live_length_eq_places (d : Dict K V) :
    d.live.length = d.places.countP id := by
  rw [length_live]
  unfold places
  rw [List.countP_map]
  rfl

theorem Represents.live_length (h : Represents P d m) :
    d.live.length = m.length := by
  rw [← h.items]
  exact (List.length_map _).symm

omit [DecidableEq K] in
/-- After growing only live entries are left. -/
theorem Grown.places_eq (h : Grown d d') :
    d'.places = List.replicate d.live.length true := by
  have hAll : d'.places.countP id = d'.places.length := by
    rw [← live_length_eq_places, h.live]
    unfold places
    rw [List.length_map, h.entries]
  have hLength : d'.places.length = d.live.length := by
    unfold places
    rw [List.length_map, h.entries]
  rw [← hLength]
  refine List.eq_replicate_of_mem fun b hb => ?_
  exact List.countP_eq_length.mp hAll b hb

/-- The resize check compacts the entries, or leaves them. -/
theorem Represents.resize_places (h : Represents P d m)
    (hResize : d.resizeGeneralIfNeeded = some d') :
    d'.places = if d.needsResizeForInsert then List.replicate m.length true
      else d.places := by
  have hload := h.loaded
  have hlive : d.live.length ≤ d.entries.length := List.length_filterMap_le _ _
  have hmin := h.wellFormed.minSize
  unfold minTableSize at hmin
  obtain ⟨grown, hGrown, -, -, -, hCase⟩ :=
    resizeGeneralIfNeeded_spec h.wellFormed (by omega)
  obtain rfl := Option.some.inj (hResize.symm.trans hGrown)
  by_cases hNeeds : d.needsResizeForInsert = true
  · rw [if_pos hNeeds, ← h.live_length]
    rcases hCase with ⟨-, hLe⟩ | hGrew
    · have hGt := of_decide_eq_true hNeeds
      omega
    · exact hGrew.places_eq
  · rw [if_neg hNeeds]
    unfold resizeGeneralIfNeeded at hResize
    rw [if_neg hNeeds] at hResize
    rw [Option.some.inj hResize]

omit [DecidableEq K] in
theorem writeExisting_places (d : Dict K V) (idx : Nat) (value : V) :
    (d.writeExisting idx value).places = d.places := by
  unfold writeExisting places
  apply List.ext_getElem?
  intro i
  rw [List.getElem?_map, List.getElem?_map, List.getElem?_modify]
  cases d.entries[i]? with
  | none => rfl
  | some entry =>
      show some _ = some _
      congr 1
      split
      · exact Option.isSome_map
      · rfl

/-- Storing at the slot of a key that is there leaves the entries where they
are. -/
theorem Represents.storeAt_places (h : Represents P d m) {s : Nat}
    (hs : InsertSlot P d key s)
    (hHolds : OrderedMap.holds P.keyEqual m key = true) (hash : Int)
    (value : V) : (d.storeAt s hash key value).places = d.places := by
  rcases hs with ⟨idx, hit⟩ | ⟨hMiss, -⟩
  · unfold Dict.storeAt
    rw [hit.1]
    exact writeExisting_places d idx value
  · rw [OrderedMap.holds_eq_false (h.absent hMiss)] at hHolds
    exact absurd hHolds nofun

theorem stringKeyedInsert_places (hP : Lawful P) (h : Represents P d m)
    (hShape : d.shape = .stringKeyed) (hKey : P.isString key = true)
    (hHolds : OrderedMap.holds P.keyEqual m key = true) {value : V}
    (hInsert : stringKeyedInsert P d key value = some d') :
    d'.places = if d.needsResizeForInsert then List.replicate m.length true
      else d.places := by
  obtain ⟨grown, hGrown, hRep, hSame, -, -⟩ := h.resize
  obtain ⟨s, hs, hSlot⟩ := findEntry_spec hP hRep.wellFormed
    (hSame.trans hShape) hKey hRep.room
  have hStored : stringKeyedInsert P d key value =
      some (grown.storeAt s (P.hashValue key) key value) := by
    unfold stringKeyedInsert
    rw [hGrown]
    show (findEntry P grown key >>= fun hashIdx =>
      some (grown.storeAt hashIdx (P.hashValue key) key value)) = _
    rw [hs]
    rfl
  obtain rfl := Option.some.inj (hInsert.symm.trans hStored)
  rw [hRep.storeAt_places hSlot hHolds]
  exact h.resize_places hGrown

theorem generalStore_places (hP : Lawful P) (h : Represents P d m)
    (hHolds : OrderedMap.holds P.keyEqual m key = true) {value : V}
    (hStore : generalStore P d key value (P.hashValue key) = some d') :
    d'.places = if d.needsResizeForInsert then List.replicate m.length true
      else d.places := by
  obtain ⟨grown, hGrown, hRep, -, -, -⟩ := h.resize
  obtain ⟨s, hs, hSlot⟩ :=
    findEntrySlotForGeneralInsert_spec hP hRep.wellFormed hRep.room key
  have hStored : generalStore P d key value (P.hashValue key) =
      some (grown.storeAt s (P.hashValue key) key value) := by
    unfold generalStore
    rw [hGrown]
    show (findEntrySlotForGeneralInsert P grown key (P.hashValue key) >>=
      fun hashIdx =>
        some (grown.storeAt hashIdx (P.hashValue key) key value)) = _
    rw [hs]
    rfl
  obtain rfl := Option.some.inj (hStore.symm.trans hStored)
  rw [hRep.storeAt_places hSlot hHolds]
  exact h.resize_places hGrown

/-- An overwrite compacts the entries when there are too many for the table;
else they stay where they are. -/
theorem setItem_places (hP : Lawful P) (h : Represents P d m)
    (hHolds : OrderedMap.holds P.keyEqual m key = true) (value : V) :
    ∃ d', setItem P d key value = some d' ∧
      Represents P d' (OrderedMap.set P.keyEqual m key value) ∧
      d'.places = if d.needsResizeForInsert then List.replicate m.length true
        else d.places := by
  obtain ⟨d', hSet, hRep⟩ := setItem_represents hP h key value
  refine ⟨d', hSet, hRep, ?_⟩
  unfold setItem at hSet
  by_cases hPath : stringPath P d key = true
  · rw [if_pos hPath] at hSet
    obtain ⟨hShape, hKey⟩ := stringPath_iff.mp hPath
    exact stringKeyedInsert_places hP h hShape hKey hHolds hSet
  · rw [if_neg hPath] at hSet
    have hStored := generalStore_places hP h.maybePromote hHolds hSet
    have hTable : d.maybePromoteToGeneralShape.hashTable = d.hashTable := by
      unfold maybePromoteToGeneralShape
      split <;> rfl
    unfold needsResizeForInsert places at hStored ⊢
    rwa [hTable, maybePromote_entries] at hStored

end Places

/-- A step of an iteration: the iterator's own, or a call of `set_item`. -/
inductive IterationStep (K V : Type) where
  | next
  | setItem (key : K) (value : V)

section Runs

variable (P : KeyProtocol K T) (view : K → V → EntryView K V)

/-- The answers of the next steps. -/
def iterationAnswers :
    List (IterationStep K V) → Dict K V → DictIterator →
      Option (List (IteratorRun.Answer (EntryView K V) BuiltinException))
  | [], _, _ => some []
  | .next :: steps, d, it =>
      let (it, answer) := nativeDictIteratorNext view d it
      (iterationAnswers steps d it).map (answer :: ·)
  | .setItem key value :: steps, d, it => do
      let d ← setItem P d key value
      iterationAnswers steps d it

/-- What an iterator yields for the items of a map. -/
def views (m : OrderedMap K V) : List (EntryView K V) :=
  m.map fun item => view item.1 item.2

/-- The answers on a map: step number `k` answers its item `k`, and there is
nothing after the last item. -/
def expectedAnswers : List (IterationStep K V) → OrderedMap K V → Nat →
    List (IteratorRun.Answer (EntryView K V) BuiltinException)
  | [], _, _ => []
  | .next :: steps, m, visited =>
      IteratorRun.itemAnswer (views view m) visited ::
        expectedAnswers steps m (visited + 1)
  | .setItem key value :: steps, m, visited =>
      expectedAnswers steps (OrderedMap.set P.keyEqual m key value) visited

/-- However long it goes on, the iterator answers as it should. -/
def YieldsInOrder (steps : List (IterationStep K V)) (d : Dict K V) : Prop :=
  ∀ n, iterationAnswers P view (steps ++ List.replicate n .next) d (.make d) =
    some (expectedAnswers P view (steps ++ List.replicate n .next) d.items 0)

/-- An insertion would move an entry that the iterator has still to visit: the
entries are compacted, a dead one stands before the index and a live one at the
index or after it. -/
def Disturbs (d : Dict K V) (it : DictIterator) : Prop :=
  d.needsResizeForInsert = true ∧
    (∃ i < it.index, d.entries[i]? = some none) ∧
    ∃ i, it.index ≤ i ∧ (d.entryAt i).isSome

/-- No overwrite of the run moves an entry that is still to be visited. -/
def Undisturbed : List (IterationStep K V) → Dict K V → DictIterator → Prop
  | [], _, _ => True
  | .next :: steps, d, it =>
      Undisturbed steps d (nativeDictIteratorNext view d it).1
  | .setItem key value :: steps, d, it =>
      ¬ Disturbs d it ∧ ∀ d', setItem P d key value = some d' →
        Undisturbed steps d' it

/-- The run only overwrites keys of the map. -/
def OnlyOverwrites (steps : List (IterationStep K V)) (m : OrderedMap K V) :
    Prop :=
  ∀ key value, .setItem key value ∈ steps →
    OrderedMap.holds P.keyEqual m key = true

end Runs

section Iteration

variable {P : KeyProtocol K T} {view : K → V → EntryView K V}
  {d : Dict K V} {it : DictIterator} {m : OrderedMap K V}

/-! ## One step -/

/-- The iterator has visited so many items of the map. -/
structure Follows (P : KeyProtocol K T) (d : Dict K V) (it : DictIterator)
    (m : OrderedMap K V) (visited : Nat) : Prop where
  represents : Represents P d m
  expectedSize_eq : it.expectedSize = m.length
  place : d.liveBefore it.index = min visited m.length

theorem Follows.next (view : K → V → EntryView K V) {visited : Nat}
    (h : Follows P d it m visited) :
    (nativeDictIteratorNext view d it).2 =
        IteratorRun.itemAnswer (views view m) visited ∧
      Follows P d (nativeDictIteratorNext view d it).1 m (visited + 1) := by
  have hSize : (d.size : Int) = it.expectedSize := by
    rw [h.represents.size_eq, h.expectedSize_eq]
  have hLive := h.represents.live_length
  unfold nativeDictIteratorNext checkExpectedSize
  rw [if_neg (not_not.mpr hSize)]
  dsimp only
  rcases nextEntry_spec d it.index with
    ⟨idx, e, hNext, -, hEntry, hBefore⟩ | ⟨idx, hNext, hLe, hNone⟩
  · rw [hNext]
    have hItem := live_getElem?_liveBefore hEntry
    have hLt := (List.getElem?_eq_some_iff.mp hItem).1
    rw [hBefore, h.place] at hItem hLt
    rw [hLive] at hLt
    have hVisited : min visited m.length = visited := by omega
    refine ⟨?_, h.represents, h.expectedSize_eq, ?_⟩
    · have hGet : m[visited]? = some (e.key, e.value) := by
        rw [← h.represents.items, items, List.getElem?_map, ← hVisited, hItem]
        rfl
      unfold IteratorRun.itemAnswer views
      rw [List.getElem?_map, hGet]
      rfl
    · show d.liveBefore (idx + 1) = _
      rw [liveBefore_succ_of_some hEntry, hBefore, h.place]
      omega
  · rw [hNext]
    have hAll := liveBefore_of_forall_none hNone
    rw [h.place, hLive] at hAll
    refine ⟨?_, h.represents, h.expectedSize_eq, ?_⟩
    · unfold IteratorRun.itemAnswer views
      rw [List.getElem?_map, List.getElem?_eq_none (by omega)]
      rfl
    · show d.liveBefore idx = _
      rw [liveBefore_of_forall_none fun i hi => hNone i (hLe.trans hi), hLive]
      omega

theorem length_set_of_holds {key : K}
    (h : OrderedMap.holds P.keyEqual m key = true) (value : V) :
    (OrderedMap.set P.keyEqual m key value).length = m.length := by
  unfold OrderedMap.set
  rw [if_pos h, List.length_map]

theorem holds_set_of_holds {key other : K}
    (h : OrderedMap.holds P.keyEqual m key = true) (value : V) :
    OrderedMap.holds P.keyEqual (OrderedMap.set P.keyEqual m key value) other =
      OrderedMap.holds P.keyEqual m other := by
  unfold OrderedMap.set
  rw [if_pos h]
  unfold OrderedMap.holds
  rw [List.any_map]
  congr 1
  funext item
  show P.keyEqual (if P.keyEqual item.1 key then (item.1, value)
    else item).1 other = _
  split <;> rfl

theorem OnlyOverwrites.rest {steps : List (IterationStep K V)} {key : K}
    {value : V} (h : OnlyOverwrites P (.setItem key value :: steps) m) :
    OnlyOverwrites P steps (OrderedMap.set P.keyEqual m key value) := by
  intro other otherValue hStep
  rw [holds_set_of_holds (h key value (List.mem_cons_self ..))]
  exact h other otherValue (List.mem_cons_of_mem _ hStep)

omit [DecidableEq K] in
theorem liveBefore_replicate {idx n : Nat}
    (h : d.places = List.replicate n true) : d.liveBefore idx = min idx n := by
  rw [liveBefore_eq_places, h, List.take_replicate, List.countP_replicate]
  rfl

omit [DecidableEq K] in
/-- The live entries from an index on. -/
theorem liveBefore_lt_iff :
    d.liveBefore it.index < d.live.length ↔
      ∃ i, it.index ≤ i ∧ (d.entryAt i).isSome := by
  constructor
  · intro hLt
    by_contra hNone
    refine absurd (liveBefore_of_forall_none fun i hi => ?_) (Nat.ne_of_lt hLt)
    rw [← Option.not_isSome_iff_eq_none]
    exact fun hSome => hNone ⟨i, hi, hSome⟩
  · rintro ⟨i, hi, hSome⟩
    obtain ⟨e, he⟩ := Option.isSome_iff_exists.mp hSome
    have hItem := (List.getElem?_eq_some_iff.mp (live_getElem?_liveBefore he)).1
    refine Nat.lt_of_le_of_lt ?_ hItem
    unfold liveBefore
    exact ((List.take_sublist_take_left hi).countP_le)

omit [DecidableEq K] in
/-- The dead entries before an index. -/
theorem liveBefore_lt_min_iff :
    d.liveBefore it.index < min it.index d.entries.length ↔
      ∃ i < it.index, d.entries[i]? = some none := by
  unfold liveBefore
  rw [← List.length_take]
  constructor
  · intro hLt
    by_contra hNone
    refine absurd (List.countP_eq_length.mpr fun entry hEntry => ?_)
      (Nat.ne_of_lt hLt)
    obtain ⟨i, hi⟩ := List.mem_iff_getElem?.mp hEntry
    have hIndex : i < it.index := by
      have hLength := (List.getElem?_eq_some_iff.mp hi).1
      rw [List.length_take] at hLength
      omega
    rw [List.getElem?_take_of_lt hIndex] at hi
    cases entry with
    | none => exact absurd ⟨i, hIndex, hi⟩ hNone
    | some e => rfl
  · rintro ⟨i, hi, hDead⟩
    refine Nat.lt_of_le_of_ne List.countP_le_length fun hAll => ?_
    rw [← List.getElem?_take_of_lt hi] at hDead
    exact absurd (List.countP_eq_length.mp hAll _ (List.mem_of_getElem? hDead))
      nofun

/-- An overwrite that does not disturb leaves the iterator where it is. -/
theorem Follows.overwrite (hP : Lawful P) {visited : Nat}
    (h : Follows P d it m visited) {key : K}
    (hHolds : OrderedMap.holds P.keyEqual m key = true) (value : V)
    (hCalm : ¬ Disturbs d it) :
    ∃ d', setItem P d key value = some d' ∧
      Follows P d' it (OrderedMap.set P.keyEqual m key value) visited := by
  obtain ⟨d', hSet, hRep, hPlaces⟩ := setItem_places hP h.represents hHolds value
  have hLength := length_set_of_holds hHolds value
  refine ⟨d', hSet, hRep, ?_, ?_⟩
  · rw [hLength]
    exact h.expectedSize_eq
  · rw [hLength, ← h.place]
    by_cases hNeeds : d.needsResizeForInsert = true
    · rw [if_pos hNeeds] at hPlaces
      rw [liveBefore_replicate hPlaces]
      have hLive := h.represents.live_length
      have hLe := d.liveBefore_le it.index
      have hLeLive := d.liveBefore_le_length it.index
      have hEntries : d.live.length ≤ d.entries.length :=
        List.length_filterMap_le _ _
      by_cases hMore : d.liveBefore it.index < d.live.length
      · -- live entries are left, so that no dead one may stand before
        have hNoDead : ¬ d.liveBefore it.index <
            min it.index d.entries.length := fun hDead =>
          hCalm ⟨hNeeds, liveBefore_lt_min_iff.mp hDead,
            liveBefore_lt_iff.mp hMore⟩
        omega
      · omega
    · rw [if_neg hNeeds] at hPlaces
      rw [liveBefore_eq_places, liveBefore_eq_places, hPlaces]

/-- An overwrite that disturbs leaves only live entries, and the iterator past
one that it has not visited. -/
theorem Follows.overwrite_disturbed (hP : Lawful P) {visited : Nat}
    (h : Follows P d it m visited) {key : K}
    (hHolds : OrderedMap.holds P.keyEqual m key = true) (value : V)
    (hDisturbs : Disturbs d it) :
    ∃ d' passed, setItem P d key value = some d' ∧
      Follows P d' it (OrderedMap.set P.keyEqual m key value) passed ∧
      visited < passed ∧ visited < m.length ∧
      d'.places = List.replicate m.length true := by
  obtain ⟨d', hSet, hRep, hPlaces⟩ := setItem_places hP h.represents hHolds value
  have hLength := length_set_of_holds hHolds value
  obtain ⟨hNeeds, hDead, hMore⟩ := hDisturbs
  rw [if_pos hNeeds] at hPlaces
  have hLive := h.represents.live_length
  have hBefore := liveBefore_lt_min_iff.mpr hDead
  have hLess := liveBefore_lt_iff.mpr hMore
  have hPlace := h.place
  refine ⟨d', min it.index m.length, hSet, ⟨hRep, ?_, ?_⟩, ?_, ?_, hPlaces⟩
  · rw [hLength]
    exact h.expectedSize_eq
  · rw [hLength, liveBefore_replicate hPlaces]
    omega
  · omega
  · omega

/-! ## Whole runs -/

omit [DecidableEq K] in
/-- Where all entries are live nothing disturbs. -/
theorem not_disturbs_of_places {n : Nat}
    (h : d.places = List.replicate n true) : ¬ Disturbs d it := by
  rintro ⟨-, ⟨i, -, hDead⟩, -⟩
  have hMem : false ∈ d.places :=
    List.mem_map.mpr ⟨none, List.mem_of_getElem? hDead, rfl⟩
  rw [h] at hMem
  exact absurd (List.eq_of_mem_replicate hMem) nofun

/-- An iterator over live entries alone goes on from where it is. -/
theorem Follows.answers (view : K → V → EntryView K V) (hP : Lawful P) :
    ∀ (steps : List (IterationStep K V)) {d : Dict K V} {it : DictIterator}
      {m : OrderedMap K V} {visited : Nat},
      d.places = List.replicate m.length true → OnlyOverwrites P steps m →
      Follows P d it m visited →
      iterationAnswers P view steps d it =
        some (expectedAnswers P view steps m visited) := by
  intro steps
  induction steps with
  | nil => exact fun _ _ _ => rfl
  | cons step steps ih =>
      intro d it m visited hPlaces hOnly h
      cases step with
      | next =>
          obtain ⟨hAnswer, hFollows⟩ := h.next view
          have hRest := ih hPlaces (fun key value hStep =>
            hOnly key value (List.mem_cons_of_mem _ hStep)) hFollows
          unfold iterationAnswers expectedAnswers
          dsimp only
          rw [hRest, hAnswer]
          rfl
      | setItem key value =>
          have hHolds := hOnly key value (List.mem_cons_self ..)
          obtain ⟨d', hSet, hFollows⟩ := h.overwrite hP hHolds value
            (not_disturbs_of_places hPlaces)
          obtain ⟨d'', hSet', -, hPlaces'⟩ :=
            setItem_places hP h.represents hHolds value
          obtain rfl := Option.some.inj (hSet.symm.trans hSet')
          have hAll : d'.places = List.replicate
              (OrderedMap.set P.keyEqual m key value).length true := by
            rw [hPlaces', length_set_of_holds hHolds, hPlaces, ite_self]
          unfold iterationAnswers expectedAnswers
          rw [hSet]
          exact ih hAll hOnly.rest hFollows

def IterationStep.isNext : IterationStep K V → Bool
  | .next => true
  | .setItem _ _ => false

/-- How many items are expected: one for each next step, as long as there are
some left. -/
theorem countP_expectedAnswers :
    ∀ (steps : List (IterationStep K V)) (m : OrderedMap K V) (visited : Nat),
      OnlyOverwrites P steps m →
      (expectedAnswers P view steps m visited).countP (!·.isStop) =
        min (steps.countP IterationStep.isNext) (m.length - visited) := by
  intro steps
  induction steps with
  | nil =>
      intro m visited _
      exact (Nat.zero_min _).symm
  | cons step steps ih =>
      intro m visited hOnly
      cases step with
      | setItem key value =>
          have hHolds := hOnly key value (List.mem_cons_self ..)
          have hRest := ih _ visited hOnly.rest
          rw [length_set_of_holds hHolds] at hRest
          exact hRest
      | next =>
          have hRest := ih m (visited + 1) fun key value hStep =>
            hOnly key value (List.mem_cons_of_mem _ hStep)
          have hNext : (IterationStep.next :: steps).countP
              IterationStep.isNext = steps.countP IterationStep.isNext + 1 :=
            List.countP_cons_of_pos rfl
          unfold expectedAnswers IteratorRun.itemAnswer views
          rw [hNext, List.getElem?_map]
          by_cases hLt : visited < m.length
          · rw [List.getElem?_eq_getElem hLt, Option.map_some,
              List.countP_cons_of_pos rfl, hRest]
            omega
          · rw [List.getElem?_eq_none (by omega), Option.map_none,
              List.countP_cons_of_neg Bool.false_ne_true, hRest]
            omega

theorem onlyOverwrites_append_next {steps : List (IterationStep K V)}
    (h : OnlyOverwrites P steps m) (n : Nat) :
    OnlyOverwrites P (steps ++ List.replicate n .next) m := by
  intro key value hStep
  rcases List.mem_append.mp hStep with hStep | hStep
  · exact h key value hStep
  · exact absurd (List.eq_of_mem_replicate hStep) nofun

/-- An iterator that is past an item answers less than is expected. -/
theorem expectedAnswers_ne {steps : List (IterationStep K V)}
    (hOnly : OnlyOverwrites P steps m) {visited passed : Nat}
    (hPassed : visited < passed) (hLeft : visited < m.length) :
    expectedAnswers P view (steps ++ List.replicate m.length .next) m passed ≠
      expectedAnswers P view (steps ++ List.replicate m.length .next) m
        visited := by
  intro hSame
  have hCount := congrArg (List.countP (!·.isStop)) hSame
  have hSteps := onlyOverwrites_append_next hOnly m.length
  rw [countP_expectedAnswers _ _ _ hSteps, countP_expectedAnswers _ _ _ hSteps,
    List.countP_append, List.countP_replicate] at hCount
  simp only [IterationStep.isNext, if_true] at hCount
  omega

/-- From an iterator that has visited so many items: the answers are as they
should be iff nothing disturbs it. -/
theorem Follows.answers_iff (hP : Lawful P) :
    ∀ (steps : List (IterationStep K V)) {d : Dict K V} {it : DictIterator}
      {m : OrderedMap K V} {visited : Nat},
      Follows P d it m visited → OnlyOverwrites P steps m →
      ((∀ n, iterationAnswers P view (steps ++ List.replicate n .next) d it =
          some (expectedAnswers P view (steps ++ List.replicate n .next) m
            visited)) ↔ Undisturbed P view steps d it) := by
  intro steps
  induction steps with
  | nil =>
      intro d it m visited h _
      refine ⟨fun _ => trivial, fun _ n => ?_⟩
      induction n generalizing it visited with
      | zero => rfl
      | succ n ih =>
          obtain ⟨hAnswer, hFollows⟩ := h.next view
          have hRest := ih hFollows trivial
          rw [List.nil_append] at hRest ⊢
          rw [List.replicate_succ]
          unfold iterationAnswers expectedAnswers
          dsimp only
          rw [hRest, hAnswer]
          rfl
  | cons step steps ih =>
      intro d it m visited h hOnly
      cases step with
      | next =>
          obtain ⟨hAnswer, hFollows⟩ := h.next view
          rw [Undisturbed, ← ih hFollows fun key value hStep =>
            hOnly key value (List.mem_cons_of_mem _ hStep)]
          refine forall_congr' fun n => ?_
          rw [List.cons_append, iterationAnswers, expectedAnswers]
          dsimp only
          rw [← hAnswer, Option.map_eq_some_iff]
          constructor
          · rintro ⟨answers, hRest, hCons⟩
            rw [hRest, (List.cons.inj hCons).2]
          · intro hRest
            exact ⟨_, hRest, rfl⟩
      | setItem key value =>
          have hHolds := hOnly key value (List.mem_cons_self ..)
          rw [Undisturbed]
          by_cases hDisturbs : Disturbs d it
          · -- the iterator has passed an item, which will be missing
            obtain ⟨d', passed, hSet, hFollows, hPassed, hLeft, hPlaces⟩ :=
              h.overwrite_disturbed hP hHolds value hDisturbs
            refine ⟨fun hAll => ?_, fun hCalm => absurd hDisturbs hCalm.1⟩
            have hLength := length_set_of_holds hHolds value
            have hRight := hAll
              (OrderedMap.set P.keyEqual m key value).length
            have hActual := Follows.answers view hP _
              (hLength.symm ▸ hPlaces) (onlyOverwrites_append_next hOnly.rest
                (OrderedMap.set P.keyEqual m key value).length) hFollows
            rw [List.cons_append, iterationAnswers, expectedAnswers, hSet]
              at hRight
            refine absurd (Option.some.inj (hActual.symm.trans hRight)) ?_
            exact expectedAnswers_ne hOnly.rest hPassed (hLength.symm ▸ hLeft)
          · obtain ⟨d', hSet, hFollows⟩ := h.overwrite hP hHolds value hDisturbs
            have hRest := ih hFollows hOnly.rest
            have hCalm : (¬ Disturbs d it ∧ ∀ d', Dict.setItem P d key value =
                some d' → Undisturbed P view steps d' it) ↔
                Undisturbed P view steps d' it := by
              refine ⟨fun h => h.2 d' hSet, fun h => ⟨hDisturbs, ?_⟩⟩
              rintro other hOther
              obtain rfl := Option.some.inj (hSet.symm.trans hOther)
              exact h
            rw [hCalm, ← hRest]
            refine forall_congr' fun n => ?_
            rw [List.cons_append, iterationAnswers, expectedAnswers, hSet]
            rfl

/-- A dict that a program has made. -/
def Reachable (P : KeyProtocol K T) (d : Dict K V) : Prop :=
  ∃ program dicts answers,
    run P program [] = some (dicts, answers) ∧ d ∈ dicts

theorem Reachable.represents (hP : Lawful P) (h : Reachable P d) :
    Represents P d d.items := by
  obtain ⟨program, dicts, answers, hRun, hMem⟩ := h
  obtain ⟨dicts', hRun', hRep⟩ :=
    @run_represents K V T _ _ P hP program [] [] .nil
  rw [hRun] at hRun'
  obtain ⟨rfl, -⟩ := Prod.mk.inj (Option.some.inj hRun')
  obtain ⟨i, hi⟩ := List.mem_iff_getElem?.mp hMem
  rcases forall₂_getElem? hRep i with ⟨hNone, -⟩ | ⟨d', m, hd, -, hRepresents⟩
  · exact absurd (hi.symm.trans hNone) nofun
  · obtain rfl := Option.some.inj (hi.symm.trans hd)
    rw [hRepresents.items]
    exact hRepresents

/-- An iterator over a reachable dict, while values of its keys are
overwritten, yields its items in order iff no overwrite disturbs it. -/
theorem yieldsInOrder_iff (hP : Lawful P) (hReachable : Reachable P d)
    {steps : List (IterationStep K V)}
    (hOnly : OnlyOverwrites P steps d.items) :
    YieldsInOrder P view steps d ↔ Undisturbed P view steps d (.make d) := by
  have hRep := hReachable.represents hP
  refine Follows.answers_iff hP steps ⟨hRep, ?_, ?_⟩ hOnly
  · show (d.size : Int) = _
    rw [hRep.size_eq]
  · exact (Nat.zero_min _).symm

end Iteration

/-- Thirteen keys come in, more than a table of sixteen slots may have, and the
first one goes out. -/
def crowdedProgram : List (Instruction (Nat × Nat) Nat) :=
  .new :: (List.range 13).map (fun k => .request 0 (.setItem (1, k) k)) ++
    [.request 0 (.delItem (1, 0))]

def crowdedDict : Dict (Nat × Nat) Nat :=
  match run sampleKeys crowdedProgram [] with
  | some ([d], _) => d
  | _ => empty

/-- The first key is visited, then a later one gets a new value. -/
def overwritingSteps : List (IterationStep (Nat × Nat) Nat) :=
  [.next, .setItem (1, 5) 50, .next]

theorem crowdedDict_reachable : Reachable sampleKeys crowdedDict := by
  have hDicts : (run sampleKeys crowdedProgram []).map Prod.fst =
      some [crowdedDict] := by decide +kernel
  obtain ⟨⟨dicts, answers⟩, hRun, rfl⟩ := Option.map_eq_some_iff.mp hDicts
  exact ⟨crowdedProgram, _, answers, hRun, List.mem_singleton_self _⟩

theorem overwritingSteps_onlyOverwrites :
    OnlyOverwrites sampleKeys overwritingSteps crowdedDict.items := by
  intro key value hStep
  simp only [overwritingSteps, List.mem_cons, List.not_mem_nil, reduceCtorEq,
    false_or, or_false, IterationStep.setItem.injEq] at hStep
  obtain ⟨rfl, -⟩ := hStep
  decide +kernel

theorem yieldsInOrder_iff_crowdedDict :
    YieldsInOrder sampleKeys EntryView.item overwritingSteps crowdedDict ↔
      Undisturbed sampleKeys EntryView.item overwritingSteps crowdedDict
        (.make crowdedDict) :=
  yieldsInOrder_iff sampleKeys_lawful crowdedDict_reachable
    overwritingSteps_onlyOverwrites

/-- The overwrite makes the iterator skip the second key. -/
theorem not_yieldsInOrder_crowdedDict :
    Reachable sampleKeys crowdedDict ∧
      OnlyOverwrites sampleKeys overwritingSteps crowdedDict.items ∧
      ¬ YieldsInOrder sampleKeys EntryView.item overwritingSteps
        crowdedDict := by
  refine ⟨crowdedDict_reachable, overwritingSteps_onlyOverwrites, fun h => ?_⟩
  have hFirst := h 0
  rw [List.replicate_zero, List.append_nil] at hFirst
  exact absurd hFirst (by decide +kernel)

end CloverVM.BuiltinTypes.Dict
