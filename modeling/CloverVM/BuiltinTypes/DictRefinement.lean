import CloverVM.BuiltinTypes.DictMap

/-!
# Whole dicts and their maps

The operations on a whole dict do to its items what the map operations do, and
so does every request to a dict.  An update may read the dict that it writes:
the table may then grow under the loop, which skips entries, but only those
that already have the value they would be given.
-/

namespace CloverVM.BuiltinTypes.Dict

open CloverVM.Collections
open CloverVM.Collections.LinearProbe

variable {K V T : Type}

/-- The items of a stretch of entries. -/
def itemsOf (entries : List (Option (Entry K V))) : OrderedMap K V :=
  (entries.filterMap id).map fun e => (e.key, e.value)

theorem itemsOf_entries (d : Dict K V) : itemsOf d.entries = d.items := rfl

theorem itemsOf_cons_some (e : Entry K V) (es : List (Option (Entry K V))) :
    itemsOf (some e :: es) = (e.key, e.value) :: itemsOf es := rfl

variable [DecidableEq K] [DecidableEq T] {P : KeyProtocol K T}

section Whole

variable {d : Dict K V} {m : OrderedMap K V}

/-! ## Clearing and popping -/

theorem represents_empty : Represents P (empty : Dict K V) [] :=
  { wellFormed := wellFormed_empty
    items := rfl
    distinct := List.Pairwise.nil
    loaded := Nat.zero_le _ }

theorem clear_represents (h : Represents P d m) : Represents P d.clear [] :=
  { wellFormed := wellFormed_clear h.wellFormed
    items := rfl
    distinct := List.Pairwise.nil
    loaded := Nat.zero_le _ }

/-- A fold that keeps the last index with a property. -/
theorem foldl_last_spec (p : Nat → Bool) (n : Nat) :
    ((List.range n).foldl (fun last idx => if p idx then some idx else last)
        none = none ∧ ∀ i < n, p i = false) ∨
      ∃ i < n, (List.range n).foldl
          (fun last idx => if p idx then some idx else last) none = some i ∧
        p i = true ∧ ∀ j, i < j → j < n → p j = false := by
  induction n with
  | zero => exact .inl ⟨rfl, fun i hi => absurd hi (Nat.not_lt_zero i)⟩
  | succ n ih =>
      rw [List.range_succ, List.foldl_append, List.foldl_cons, List.foldl_nil]
      by_cases hn : p n = true
      · rw [if_pos hn]
        refine .inr ⟨n, Nat.lt_succ_self n, rfl, hn, ?_⟩
        intro j hj hlt
        omega
      · rw [if_neg hn]
        have hlast : ∀ j, j < n + 1 → ¬ j < n → p j = false := by
          intro j hj hnot
          rw [show j = n by omega]
          exact Bool.not_eq_true _ ▸ hn
        rcases ih with ⟨hnone, hall⟩ | ⟨i, hi, hsome, hp, hall⟩
        · refine .inl ⟨hnone, fun i hi => ?_⟩
          by_cases hlt : i < n
          · exact hall i hlt
          · exact hlast i hi hlt
        · refine .inr ⟨i, Nat.lt_succ_of_lt hi, hsome, hp, fun j hj hlt => ?_⟩
          by_cases hjn : j < n
          · exact hall j hj hjn
          · exact hlast j hlt hjn

omit [DecidableEq K] in
/-- The last valid entry is the last item. -/
theorem lastEntryIdx_spec (hne : d.live ≠ []) :
    ∃ e before after, d.lastEntryIdx = some before.length ∧
      d.entries = before ++ some e :: after ∧ after.filterMap id = [] := by
  unfold lastEntryIdx
  rcases foldl_last_spec (fun idx => (d.entryAt idx).isSome) d.entries.length
    with ⟨_, hall⟩ | ⟨i, hi, hlast, hp, hall⟩
  · exfalso
    obtain ⟨e, he⟩ := List.exists_mem_of_ne_nil _ hne
    obtain ⟨idx, hidx⟩ := mem_live_iff.mp he
    have := hall idx (entryAt_lt hidx)
    rw [hidx] at this
    exact Bool.noConfusion this
  · obtain ⟨e, he⟩ := Option.isSome_iff_exists.mp hp
    obtain ⟨before, after, hsplit, rfl⟩ := entries_split he
    refine ⟨e, before, after, hlast, hsplit, ?_⟩
    rw [List.filterMap_eq_nil_iff]
    intro o ho
    obtain ⟨k, hk, rfl⟩ := List.mem_iff_getElem.mp ho
    have hdead := hall (before.length + 1 + k) (by omega) (by
      rw [hsplit, List.length_append, List.length_cons]
      omega)
    rw [Option.isSome_eq_false_iff, Option.isNone_iff_eq_none] at hdead
    unfold entryAt at hdead
    rw [hsplit, List.getElem?_append_right (by omega),
      show before.length + 1 + k - before.length = k + 1 by omega,
      List.getElem?_cons_succ, List.getElem?_eq_getElem hk] at hdead
    exact hdead

omit [DecidableEq K] [DecidableEq T] in
/-- The search for the slot of an entry. -/
theorem findIdx_slot (hwf : WellFormed P d) {idx : Nat} {e : Entry K V}
    (he : d.entryAt idx = some e) :
    ∃ s, d.hashTable.findIdx? (fun slot => decide (slot = .entry idx)) =
      some s ∧ d.slotAt s = .entry idx := by
  obtain ⟨q, hq⟩ := hwf.slotOfEntry idx e he
  have hlt := slotAt_lt hq
  rcases hfind : d.hashTable.findIdx? (fun slot =>
    decide (slot = .entry idx)) with _ | s
  · rw [List.findIdx?_eq_none_iff] at hfind
    unfold slotAt at hq
    rw [List.getD_eq_getElem _ _ hlt] at hq
    have := hfind _ (List.getElem_mem hlt)
    rw [hq, decide_eq_false_iff_not] at this
    exact absurd rfl this
  · obtain ⟨hs, hp, _⟩ := List.findIdx?_eq_some_iff_getElem.mp hfind
    refine ⟨s, hfind, ?_⟩
    unfold slotAt
    rw [List.getD_eq_getElem _ _ hs]
    exact of_decide_eq_true hp

/-- What `popitem` answers on a map. -/
def popitemMap (m : OrderedMap K V) :
    OrderedMap K V × Except DictError (K × V) :=
  match OrderedMap.popLast m with
  | some (item, rest) => (rest, .ok item)
  | none => (m, .error .keyError)

theorem popitem_represents (hP : Lawful P) (h : Represents P d m) :
    ∃ d', d.popitem = some (d', (popitemMap m).2) ∧
      Represents P d' (popitemMap m).1 := by
  have hcount : d.nValidEntries = m.length := h.size_eq
  unfold popitem
  by_cases hzero : d.nValidEntries = 0
  · have hm : m = [] := List.length_eq_zero_iff.mp (hcount.symm.trans hzero)
    rw [hm] at h
    rw [if_pos hzero, hm]
    exact ⟨d, rfl, h⟩
  · rw [if_neg hzero]
    have hne : d.live ≠ [] := by
      rw [h.wellFormed.count] at hzero
      exact fun hnil => hzero (by rw [hnil]; rfl)
    obtain ⟨e, before, after, hlast, hsplit, hafter⟩ := lastEntryIdx_spec hne
    have he : d.entryAt before.length = some e := by
      rw [entryAt_eq_some, hsplit, List.getElem?_append_right (Nat.le_refl _),
        Nat.sub_self]
      rfl
    obtain ⟨s, hfind, hslot⟩ := findIdx_slot h.wellFormed he
    have hit : Hit P d e.key s before.length :=
      ⟨hslot, e, he, hP.equivalence.refl e.key⟩
    have hm : m = itemsOf before ++ [(e.key, e.value)] := by
      rw [← h.items]
      unfold items itemsOf
      rw [live_eq_of_split hsplit, hafter, List.map_append]
      rfl
    have hpop : popitemMap m = (itemsOf before, .ok (e.key, e.value)) := by
      unfold popitemMap OrderedMap.popLast
      rw [hm, List.getLast?_append, List.dropLast_concat]
      rfl
    have herase : OrderedMap.erase P.keyEqual m e.key = itemsOf before := by
      have hd := h.distinct
      rw [hm] at hd ⊢
      rw [OrderedMap.erase_split hP.equivalence hd
        (hP.equivalence.refl e.key), List.append_nil]
    rw [hpop]
    refine ⟨d.deleteEntry s before.length, ?_, ?_⟩
    · rw [hlast, Option.bind_eq_bind, Option.bind_some, he,
        Option.bind_eq_bind, Option.bind_some, hfind, Option.bind_eq_bind,
        Option.bind_some, deleteEntryAtSlot_of_hit hit]
      rfl
    · rw [← herase]
      exact h.deleteEntry hP hit

/-! ## Copying -/

theorem Represents.miss (h : Represents P d m) {key : K}
    (habsent : ∀ other ∈ m, P.keyEqual other.1 key = false) :
    Miss P d key := by
  intro e he
  apply habsent (e.key, e.value)
  rw [← h.items]
  exact List.mem_map.mpr ⟨e, he, rfl⟩

/-- A copied entry goes to the end. -/
theorem copyStoredEntry_represents (h : Represents P d m) {e : Entry K V}
    (habsent : ∀ other ∈ m, P.keyEqual other.1 e.key = false)
    (hhash : e.hash = P.hashValue e.key)
    (hstring : d.shape = .stringKeyed → P.isString e.key = true) :
    ∃ d', d.copyStoredEntry e.key e.value e.hash = some d' ∧
      Represents P d' (m ++ [(e.key, e.value)]) ∧ d'.shape = d.shape := by
  obtain ⟨grown, hgrown, hrep, hsame, hload, _⟩ := h.resize
  obtain ⟨s, hs, hlt, hfree, hreach⟩ :=
    emptySlotFor_spec e.hash hrep.wellFormed.powerOfTwo hrep.room
  have hnew := hrep.writeNewAtSlot hload (hrep.miss habsent) hlt
    (fun idx hslot => Slot.noConfusion (hfree.symm.trans hslot))
    (hhash ▸ hreach) (fun hshape => hstring (hsame.symm.trans hshape))
    e.value
  rw [OrderedMap.set_of_absent habsent, ← hhash] at hnew
  refine ⟨_, ?_, hnew, hsame⟩
  unfold copyStoredEntry
  rw [hgrown]
  show (emptySlotFor grown.hashTable e.hash >>= fun hashIdx =>
    some (grown.writeNewAtSlot hashIdx e.hash e.key e.value)) = _
  rw [hs]
  rfl

theorem copyEntries_represents (es : List (Option (Entry K V))) :
    ∀ (acc : Dict K V) (m : OrderedMap K V), Represents P acc m →
      OrderedMap.Distinct P.keyEqual (m ++ itemsOf es) →
      (∀ e, some e ∈ es → e.hash = P.hashValue e.key ∧
        (acc.shape = .stringKeyed → P.isString e.key = true)) →
      ∃ d', es.foldlM copyEntry acc = some d' ∧
        Represents P d' (m ++ itemsOf es) ∧ d'.shape = acc.shape := by
  induction es with
  | nil =>
      intro acc m h _ _
      rw [show itemsOf ([] : List (Option (Entry K V))) = [] from rfl,
        List.append_nil]
      exact ⟨acc, rfl, h, rfl⟩
  | cons o es ih =>
      intro acc m h hd hes
      rcases o with _ | e
      · exact ih acc m h hd (fun e he => hes e (List.mem_cons_of_mem _ he))
      · rw [itemsOf_cons_some] at hd ⊢
        obtain ⟨hhash, hstring⟩ := hes e List.mem_cons_self
        have habsent : ∀ other ∈ m, P.keyEqual other.1 e.key = false := by
          intro other hother
          unfold OrderedMap.Distinct at hd
          rw [List.pairwise_append] at hd
          exact hd.2.2 other hother _ List.mem_cons_self
        obtain ⟨acc', hacc, hrep, hshape⟩ :=
          copyStoredEntry_represents h habsent hhash hstring
        rw [List.append_cons] at hd ⊢
        obtain ⟨d', hd', hrep', hsame⟩ := ih acc' _ hrep hd (fun e he => by
          rw [hshape]
          exact hes e (List.mem_cons_of_mem _ he))
        refine ⟨d', ?_, hrep', hsame.trans hshape⟩
        show (acc.copyStoredEntry e.key e.value e.hash >>= fun acc =>
          es.foldlM copyEntry acc) = _
        rw [hacc]
        exact hd'

theorem represents_copyTarget (d : Dict K V) :
    Represents P d.copyTarget [] ∧ d.copyTarget.shape = d.shape := by
  unfold copyTarget
  rcases hshape : d.shape with _ | _
  · exact ⟨represents_empty, rfl⟩
  · exact ⟨represents_empty.maybePromote, rfl⟩

/-- Copying asks for distinct keys and the right hashes only. -/
theorem copy_of_distinct (hwf : WellFormed P d)
    (hd : OrderedMap.Distinct P.keyEqual d.items) :
    ∃ d', d.copy = some d' ∧ Represents P d' d.items ∧
      d'.shape = d.shape := by
  obtain ⟨htarget, hshape⟩ := @represents_copyTarget K V T _ _ P d
  have hcopy := copyEntries_represents d.entries d.copyTarget [] htarget
  rw [List.nil_append, itemsOf_entries, hshape] at hcopy
  apply hcopy hd
  intro e he
  obtain ⟨idx, hidx⟩ := List.mem_iff_getElem?.mp he
  have hentry := entryAt_eq_some.mpr hidx
  exact ⟨hwf.storedHash idx e hentry,
    fun htext => hwf.stringKeys htext idx e hentry⟩

theorem copy_represents (h : Represents P d m) :
    ∃ d', d.copy = some d' ∧ Represents P d' m := by
  have hd := h.distinct
  rw [← h.items] at hd
  obtain ⟨d', hd', hrep, _⟩ := copy_of_distinct h.wellFormed hd
  exact ⟨d', hd', h.items ▸ hrep⟩

/-! ## Updating -/

omit [DecidableEq K] in
theorem itemsOf_drop {es : List (Option (Entry K V))} {idx : Nat}
    (h : idx < es.length) :
    itemsOf (es.drop idx) =
      (es[idx].toList.map fun e => (e.key, e.value)) ++
        itemsOf (es.drop (idx + 1)) := by
  rw [← List.getElem_cons_drop h]
  rcases es[idx] with _ | e <;> rfl

/-- Updating from another dict stores its items in their order. -/
theorem updateFromDictAt_represents (hP : Lawful P) {other : Dict K V}
    (hother : WellFormed P other) :
    ∀ (fuel idx : Nat) (d : Dict K V) (m : OrderedMap K V),
      other.entries.length ≤ idx + fuel → Represents P d m →
      ∃ d', updateFromDictAt P (fun _ => other) fuel idx d = some d' ∧
        Represents P d' (OrderedMap.update P.keyEqual m
          (itemsOf (other.entries.drop idx))) := by
  intro fuel
  induction fuel with
  | zero =>
      intro idx d m hfuel h
      unfold updateFromDictAt
      rw [if_neg (by omega), List.drop_eq_nil_of_le (by omega)]
      exact ⟨d, rfl, h⟩
  | succ fuel ih =>
      intro idx d m hfuel h
      unfold updateFromDictAt
      by_cases hlt : idx < other.entries.length
      · rw [if_pos hlt, itemsOf_drop hlt]
        rcases hentry : other.entries[idx] with _ | e
        · have hnone : other.entryAt idx = none := by
            unfold entryAt
            rw [List.getElem?_eq_getElem hlt, hentry]
            rfl
          simp only [hnone]
          exact ih (idx + 1) d m (by omega) h
        · have he : other.entryAt idx = some e := by
            rw [entryAt_eq_some, List.getElem?_eq_getElem hlt, hentry]
          obtain ⟨d₁, hd₁, hrep₁, _⟩ :=
            setItemWithKnownHash_represents hP h e.key e.value
          rw [← hother.storedHash idx e he] at hd₁
          simp only [he, hd₁, Option.bind_eq_bind, Option.bind_some]
          exact ih (idx + 1) d₁ _ (by omega) hrep₁
      · rw [if_neg hlt, List.drop_eq_nil_of_le (by omega)]
        exact ⟨d, rfl, h⟩

theorem updateFromDict_represents (hP : Lawful P) (h : Represents P d m)
    {other : Dict K V} {n : OrderedMap K V} (hother : Represents P other n) :
    ∃ d', updateFromDict P (fun _ => other) d = some d' ∧
      Represents P d' (OrderedMap.update P.keyEqual m n) := by
  have hitems : itemsOf (other.entries.drop 0) = n := hother.items
  have := updateFromDictAt_represents hP hother.wellFormed
    other.entries.length 0 d m (by omega) h
  rw [hitems] at this
  exact this

/-- An update of a dict from itself may grow the table under the loop, and
then skips entries, all of which have the value they would be given. -/
theorem updateFromSelfAt_represents (hP : Lawful P) :
    ∀ (fuel idx : Nat) (d : Dict K V),
      d.entries.length ≤ idx + fuel → Represents P d m →
      ∃ d', updateFromDictAt P id fuel idx d = some d' ∧
        Represents P d' m := by
  intro fuel
  induction fuel with
  | zero =>
      intro idx d hfuel h
      unfold updateFromDictAt
      simp only [id_eq]
      rw [if_neg (by omega)]
      exact ⟨d, rfl, h⟩
  | succ fuel ih =>
      intro idx d hfuel h
      unfold updateFromDictAt
      by_cases hlt : idx < d.entries.length
      · simp only [id_eq, if_pos hlt]
        rcases hentry : d.entryAt idx with _ | e
        · exact ih (idx + 1) d (by omega) h
        · have hmem : (e.key, e.value) ∈ m := by
            rw [← h.items]
            exact List.mem_map.mpr ⟨e, mem_live_iff.mpr ⟨idx, hentry⟩, rfl⟩
          obtain ⟨d₁, hd₁, hrep₁, hle⟩ :=
            setItemWithKnownHash_represents hP h e.key e.value
          rw [← h.wellFormed.storedHash idx e hentry] at hd₁
          have hsame := OrderedMap.set_of_mem hP.equivalence h.distinct hmem
          have hshort := hle (List.any_eq_true.mpr
            ⟨_, hmem, hP.equivalence.refl e.key⟩)
          rw [hsame] at hrep₁
          simp only [hd₁, Option.bind_eq_bind, Option.bind_some]
          exact ih (idx + 1) d₁ (by omega) hrep₁
      · simp only [id_eq, if_neg hlt]
        exact ⟨d, rfl, h⟩

theorem updateFromSelf_represents (hP : Lawful P) (h : Represents P d m) :
    ∃ d', updateFromDict P id d = some d' ∧
      Represents P d' (OrderedMap.update P.keyEqual m m) := by
  rw [OrderedMap.update_self hP.equivalence h.distinct]
  exact updateFromSelfAt_represents hP d.entries.length 0 d (by omega) h

omit [DecidableEq K] in
/-- An iterator that skips to the next live entry goes over the items of what
is left. -/
theorem iterateFrom_eq (d : Dict K V) :
    ∀ (rest : List (Option (Entry K V))) (idx fuel skip : Nat),
      d.entries.drop idx = rest → rest.length ≤ fuel → rest.length ≤ skip →
      d.iterateFrom fuel (d.skipDeadEntries skip idx) = itemsOf rest := by
  intro rest
  induction rest with
  | nil =>
      intro idx fuel skip hdrop _ _
      have hge : d.entries.length ≤ idx := List.drop_eq_nil_iff.mp hdrop
      have hstay : d.skipDeadEntries skip idx = idx := by
        rcases skip with _ | skip
        · rfl
        · exact if_neg (fun h => absurd h.1 (by omega))
      have hnone : d.entryAt idx = none := by
        unfold entryAt
        rw [List.getElem?_eq_none hge]
        rfl
      rw [hstay]
      rcases fuel with _ | fuel
      · rfl
      · unfold iterateFrom
        rw [hnone]
        rfl
  | cons o rest ih =>
      intro idx fuel skip hdrop hfuel hskip
      have hlt : idx < d.entries.length := by
        by_contra hge
        rw [List.drop_eq_nil_of_le (by omega)] at hdrop
        exact nomatch hdrop
      rw [← List.getElem_cons_drop hlt] at hdrop
      obtain ⟨ho, hrest⟩ := List.cons.inj hdrop
      rw [List.length_cons] at hfuel hskip
      obtain ⟨skip, rfl⟩ : ∃ n, skip = n + 1 := ⟨skip - 1, by omega⟩
      have hentry : d.entryAt idx = o := by
        unfold entryAt
        rw [List.getElem?_eq_getElem hlt, ho]
        rfl
      rcases o with _ | e
      · have hstep : d.skipDeadEntries (skip + 1) idx =
            d.skipDeadEntries skip (idx + 1) :=
          if_pos ⟨hlt, by rw [hentry]; rfl⟩
        rw [hstep]
        exact ih (idx + 1) fuel skip hrest (by omega) (by omega)
      · have hstay : d.skipDeadEntries (skip + 1) idx = idx :=
          if_neg (fun h => by rw [hentry] at h; exact Bool.noConfusion h.2)
        obtain ⟨fuel, rfl⟩ : ∃ n, fuel = n + 1 := ⟨fuel - 1, by omega⟩
        have hlen : rest.length ≤ d.entries.length := by
          rw [← hrest, List.length_drop]
          omega
        rw [hstay]
        unfold iterateFrom iteratorNext
        rw [hentry]
        show (e.key, e.value) :: _ = _
        rw [ih (idx + 1) fuel d.entries.length hrest (by omega) hlen]
        rfl

omit [DecidableEq K] in
/-- An iterator goes over the items. -/
theorem iterate_eq_items (d : Dict K V) : d.iterate = d.items :=
  iterateFrom_eq d d.entries 0 d.entries.length d.entries.length rfl
    (Nat.le_refl _) (Nat.le_refl _)

end Whole

/-! ## Requests to one dict -/

/-- A request to one dict. -/
inductive Request (K V : Type) where
  | setItem (key : K) (value : V)
  | delItem (key : K)
  | getItem (key : K)
  | getItemOrDefault (key : K) (defaultValue : V)
  | contains (key : K)
  | pop (key : K)
  | popItemIfPresent (key : K)
  | setdefault (key : K) (defaultValue : V)
  | setdefaultWithPresence (key : K) (defaultValue : V)
  | popitem
  | clear

/-- What a request answers. -/
inductive Answer (K V : Type) where
  | done
  | keyError
  | value (value : V)
  | present (value : Option V)
  | truth (b : Bool)
  | valueWithPresence (value : V) (wasPresent : Bool)
  | item (key : K) (value : V)
  | dict (idx : Nat)
  | noDict
deriving DecidableEq, Repr

/-- The answer of a request that may raise. -/
def Answer.ofExcept {α : Type} (answer : α → Answer K V) :
    Except DictError α → Answer K V
  | .ok a => answer a
  | .error .keyError => .keyError

section Requests

variable (P : KeyProtocol K T)

/-- A request, on a dict. -/
def perform (d : Dict K V) : Request K V → Option (Dict K V × Answer K V)
  | .setItem key value => do return (← setItem P d key value, .done)
  | .delItem key => do
      let (d, r) ← delItem P d key
      return (d, .ofExcept (fun _ => .done) r)
  | .getItem key => do
      let (d, r) ← getItem P d key
      return (d, .ofExcept .value r)
  | .getItemOrDefault key defaultValue => do
      let (d, value) ← getItemOrDefault P d key defaultValue
      return (d, .value value)
  | .contains key => do
      let (d, b) ← contains P d key
      return (d, .truth b)
  | .pop key => do
      let (d, r) ← pop P d key
      return (d, .ofExcept .value r)
  | .popItemIfPresent key => do
      let (d, value) ← popItemIfPresent P d key
      return (d, .present value)
  | .setdefault key defaultValue => do
      let (d, value) ← setdefault P d key defaultValue
      return (d, .value value)
  | .setdefaultWithPresence key defaultValue => do
      let (d, value, b) ← setdefaultWithPresence P d key defaultValue
      return (d, .valueWithPresence value b)
  | .popitem => do
      let (d, r) ← popitem d
      return (d, .ofExcept (fun item => .item item.1 item.2) r)
  | .clear => some (d.clear, .done)

/-- The answer for a key that is found or not. -/
def Answer.orKeyError : Option V → Answer K V
  | some v => .value v
  | none => .keyError

/-- The request, on an insertion-ordered map. -/
def performMap (m : OrderedMap K V) :
    Request K V → OrderedMap K V × Answer K V
  | .setItem key value => (OrderedMap.set P.keyEqual m key value, .done)
  | .delItem key =>
      (OrderedMap.erase P.keyEqual m key,
        if OrderedMap.holds P.keyEqual m key then .done else .keyError)
  | .getItem key => (m, .orKeyError (OrderedMap.find P.keyEqual m key))
  | .getItemOrDefault key defaultValue =>
      (m, .value ((OrderedMap.find P.keyEqual m key).getD defaultValue))
  | .contains key => (m, .truth (OrderedMap.holds P.keyEqual m key))
  | .pop key =>
      (OrderedMap.erase P.keyEqual m key,
        .orKeyError (OrderedMap.find P.keyEqual m key))
  | .popItemIfPresent key =>
      (OrderedMap.erase P.keyEqual m key,
        .present (OrderedMap.find P.keyEqual m key))
  | .setdefault key defaultValue =>
      let r := setdefaultMap P m key defaultValue
      (r.1, .value r.2.1)
  | .setdefaultWithPresence key defaultValue =>
      let r := setdefaultMap P m key defaultValue
      (r.1, .valueWithPresence r.2.1 r.2.2)
  | .popitem =>
      match OrderedMap.popLast m with
      | some (item, rest) => (rest, .item item.1 item.2)
      | none => (m, .keyError)
  | .clear => ([], .done)

end Requests

/-- Every request runs to its end and does what it does on the map. -/
theorem perform_represents (hP : Lawful P) {d : Dict K V}
    {m : OrderedMap K V} (h : Represents P d m) (request : Request K V) :
    ∃ d', perform P d request = some (d', (performMap P m request).2) ∧
      Represents P d' (performMap P m request).1 := by
  cases request with
  | setItem key value =>
      obtain ⟨d', hd', hrep⟩ := setItem_represents hP h key value
      refine ⟨d', ?_, hrep⟩
      simp only [perform, hd']
      rfl
  | delItem key =>
      obtain ⟨d', hd', hrep⟩ := delItem_represents hP h key
      refine ⟨d', ?_, hrep⟩
      simp only [perform, performMap, hd']
      rw [← OrderedMap.isSome_find]
      rcases OrderedMap.find P.keyEqual m key with _ | value <;> rfl
  | getItem key =>
      obtain ⟨d', hd', hrep⟩ := getItemIfPresent_represents hP h key
      refine ⟨d', ?_, hrep⟩
      simp only [perform, performMap, getItem, hd']
      rcases OrderedMap.find P.keyEqual m key with _ | value <;> rfl
  | getItemOrDefault key defaultValue =>
      obtain ⟨d', hd', hrep⟩ := getItemIfPresent_represents hP h key
      refine ⟨d', ?_, hrep⟩
      simp only [perform, getItemOrDefault, hd']
      rfl
  | contains key =>
      obtain ⟨d', hd', hrep⟩ := contains_represents hP h key
      refine ⟨d', ?_, hrep⟩
      simp only [perform, hd']
      rfl
  | pop key =>
      obtain ⟨d', hd', hrep⟩ := popItemIfPresent_represents hP h key
      refine ⟨d', ?_, hrep⟩
      simp only [perform, performMap, pop, hd']
      rcases OrderedMap.find P.keyEqual m key with _ | value <;> rfl
  | popItemIfPresent key =>
      obtain ⟨d', hd', hrep⟩ := popItemIfPresent_represents hP h key
      refine ⟨d', ?_, hrep⟩
      simp only [perform, hd']
      rfl
  | setdefault key defaultValue =>
      obtain ⟨d', hd', hrep⟩ :=
        setdefaultWithPresence_represents hP h key defaultValue
      refine ⟨d', ?_, hrep⟩
      simp only [perform, setdefault, hd']
      rfl
  | setdefaultWithPresence key defaultValue =>
      obtain ⟨d', hd', hrep⟩ :=
        setdefaultWithPresence_represents hP h key defaultValue
      refine ⟨d', ?_, hrep⟩
      simp only [perform, hd']
      rfl
  | popitem =>
      obtain ⟨d', hd', hrep⟩ := popitem_represents hP h
      unfold popitemMap at hd' hrep
      simp only [perform, performMap, hd']
      rcases hpop : OrderedMap.popLast m with _ | ⟨item, rest⟩
      · rw [hpop] at hrep
        exact ⟨d', rfl, hrep⟩
      · rw [hpop] at hrep
        exact ⟨d', rfl, hrep⟩
  | clear => exact ⟨d.clear, rfl, clear_represents h⟩

end CloverVM.BuiltinTypes.Dict
