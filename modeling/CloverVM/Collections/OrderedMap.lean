import Mathlib.Data.List.Pairwise

/-!
# Insertion-ordered maps

A map that remembers the order in which its keys came in, as the list of its
items.  Keys are compared by a Boolean relation, so a key that is stored may
differ from the equal key that is asked for: overwriting keeps the stored one.
-/

namespace CloverVM.Collections

/-- The items of a map, oldest key first. -/
abbrev OrderedMap (K V : Type) := List (K × V)

namespace OrderedMap

variable {K V : Type} (eqv : K → K → Bool)

/-- The value of a key. -/
def find (m : OrderedMap K V) (key : K) : Option V :=
  (m.find? fun item => eqv item.1 key).map Prod.snd

/-- Does the map have the key? -/
def holds (m : OrderedMap K V) (key : K) : Bool :=
  m.any fun item => eqv item.1 key

/-- Overwrites the value of a key that is there, in its place and under the
key that was stored first; puts a new key at the end. -/
def set (m : OrderedMap K V) (key : K) (value : V) : OrderedMap K V :=
  if holds eqv m key then
    m.map fun item => if eqv item.1 key then (item.1, value) else item
  else
    m ++ [(key, value)]

/-- Takes a key out; the others keep their order. -/
def erase (m : OrderedMap K V) (key : K) : OrderedMap K V :=
  m.filter fun item => !eqv item.1 key

/-- Stores the items of another map, in its order. -/
def update (m other : OrderedMap K V) : OrderedMap K V :=
  other.foldl (fun acc item => set eqv acc item.1 item.2) m

/-- No two items have equal keys. -/
def Distinct (m : OrderedMap K V) : Prop :=
  m.Pairwise fun a b => eqv a.1 b.1 = false

/-- A map without its last item, and that item. -/
def popLast (m : OrderedMap K V) : Option ((K × V) × OrderedMap K V) :=
  m.getLast?.map fun item => (item, m.dropLast)

theorem isSome_find (m : OrderedMap K V) (key : K) :
    (find eqv m key).isSome = holds eqv m key := by
  unfold find holds
  rw [Option.isSome_map, List.isSome_find?]

section Laws

variable {eqv} {m before after : OrderedMap K V} {item : K × V} {key : K}

theorem find_eq_none (h : ∀ other ∈ m, eqv other.1 key = false) :
    find eqv m key = none := by
  unfold find
  rw [List.find?_eq_none.mpr (fun other hother => by
    rw [h other hother]
    exact Bool.false_ne_true)]
  rfl

theorem holds_eq_false (h : ∀ other ∈ m, eqv other.1 key = false) :
    holds eqv m key = false := by
  unfold holds
  rw [List.any_eq_false]
  intro other hother
  rw [h other hother]
  exact Bool.false_ne_true

theorem set_of_absent (h : ∀ other ∈ m, eqv other.1 key = false) (value : V) :
    set eqv m key value = m ++ [(key, value)] := by
  unfold set
  rw [if_neg (by rw [holds_eq_false h]; exact Bool.false_ne_true)]

theorem erase_of_absent (h : ∀ other ∈ m, eqv other.1 key = false) :
    erase eqv m key = m := by
  apply List.filter_eq_self.mpr
  intro other hother
  rw [h other hother]
  rfl

theorem Distinct.append_absent (hd : Distinct eqv m)
    (h : ∀ other ∈ m, eqv other.1 key = false) (value : V) :
    Distinct eqv (m ++ [(key, value)]) := by
  unfold Distinct
  rw [List.pairwise_append]
  refine ⟨hd, List.pairwise_singleton _ _, ?_⟩
  intro other hother new hnew
  rw [List.mem_singleton] at hnew
  rw [hnew]
  exact h other hother

/-! ## A key that is there -/

variable (heqv : Equivalence fun a b => eqv a b = true)
include heqv

/-- The items beside one with the key have other keys. -/
theorem Distinct.others (hd : Distinct eqv (before ++ item :: after))
    (hkey : eqv item.1 key = true) :
    (∀ other ∈ before, eqv other.1 key = false) ∧
      ∀ other ∈ after, eqv other.1 key = false := by
  unfold Distinct at hd
  rw [List.pairwise_append, List.pairwise_cons] at hd
  obtain ⟨_, ⟨hafter, _⟩, hbefore⟩ := hd
  constructor
  · intro other hother
    have hne := hbefore other hother item List.mem_cons_self
    rw [← Bool.not_eq_true] at hne ⊢
    exact fun h => hne (heqv.trans h (heqv.symm hkey))
  · intro other hother
    have hne := hafter other hother
    rw [← Bool.not_eq_true] at hne ⊢
    exact fun h => hne (heqv.trans hkey (heqv.symm h))

theorem find_split (hd : Distinct eqv (before ++ item :: after))
    (hkey : eqv item.1 key = true) :
    find eqv (before ++ item :: after) key = some item.2 := by
  obtain ⟨hbefore, _⟩ := hd.others heqv hkey
  have hfound : (item :: after).find? (fun other => eqv other.1 key) =
      some item := List.find?_cons_of_pos hkey
  unfold find
  rw [List.find?_append, List.find?_eq_none.mpr (fun other hother => by
    rw [hbefore other hother]
    exact Bool.false_ne_true), hfound]
  rfl

omit heqv in
theorem holds_split (hkey : eqv item.1 key = true) :
    holds eqv (before ++ item :: after) key = true :=
  List.any_eq_true.mpr
    ⟨item, List.mem_append_right _ List.mem_cons_self, hkey⟩

theorem set_split (hd : Distinct eqv (before ++ item :: after))
    (hkey : eqv item.1 key = true) (value : V) :
    set eqv (before ++ item :: after) key value =
      before ++ (item.1, value) :: after := by
  obtain ⟨hbefore, hafter⟩ := hd.others heqv hkey
  have hkeep : ∀ items : OrderedMap K V,
      (∀ other ∈ items, eqv other.1 key = false) →
      items.map (fun other =>
        if eqv other.1 key then (other.1, value) else other) = items := by
    intro items hitems
    refine (List.map_congr_left ?_).trans (List.map_id items)
    intro other hother
    rw [if_neg (by rw [hitems other hother]; exact Bool.false_ne_true)]
    rfl
  unfold set
  rw [if_pos (holds_split hkey), List.map_append, List.map_cons,
    hkeep before hbefore, hkeep after hafter, if_pos hkey]

theorem erase_split (hd : Distinct eqv (before ++ item :: after))
    (hkey : eqv item.1 key = true) :
    erase eqv (before ++ item :: after) key = before ++ after := by
  obtain ⟨hbefore, hafter⟩ := hd.others heqv hkey
  have hkeep : ∀ items : OrderedMap K V,
      (∀ other ∈ items, eqv other.1 key = false) →
      items.filter (fun other => !eqv other.1 key) = items :=
    fun items hitems => erase_of_absent hitems
  unfold erase
  rw [List.filter_append, List.filter_cons_of_neg (by rw [hkey]; decide),
    hkeep before hbefore, hkeep after hafter]

omit heqv in
/-- A new value leaves the keys distinct. -/
theorem Distinct.replace (hd : Distinct eqv (before ++ item :: after))
    (value : V) : Distinct eqv (before ++ (item.1, value) :: after) := by
  unfold Distinct at *
  rw [List.pairwise_append, List.pairwise_cons] at *
  obtain ⟨hb, ⟨hafter, ha⟩, hbefore⟩ := hd
  refine ⟨hb, ⟨hafter, ha⟩, ?_⟩
  intro other hother new hnew
  rcases List.mem_cons.mp hnew with rfl | hnew
  · exact hbefore other hother item List.mem_cons_self
  · exact hbefore other hother new (List.mem_cons_of_mem _ hnew)

omit heqv in
theorem Distinct.remove (hd : Distinct eqv (before ++ item :: after)) :
    Distinct eqv (before ++ after) :=
  List.Pairwise.sublist
    (List.Sublist.append_left (List.sublist_cons_self item after) before) hd

/-- Storing the value that a key already has changes nothing. -/
theorem set_of_mem (hd : Distinct eqv m) (h : item ∈ m) :
    set eqv m item.1 item.2 = m := by
  obtain ⟨before, after, rfl⟩ := List.append_of_mem h
  exact set_split heqv hd (heqv.refl item.1) item.2

theorem foldl_set_of_subset (hd : Distinct eqv m) :
    ∀ items : OrderedMap K V, items ⊆ m →
      items.foldl (fun acc item => set eqv acc item.1 item.2) m = m := by
  intro items
  induction items with
  | nil => intro _; rfl
  | cons item items ih =>
      intro hsub
      rw [List.foldl_cons, set_of_mem heqv hd (hsub List.mem_cons_self)]
      exact ih (fun a ha => hsub (List.mem_cons_of_mem _ ha))

/-- Updating a map from itself changes nothing. -/
theorem update_self (hd : Distinct eqv m) : update eqv m m = m :=
  foldl_set_of_subset heqv hd m (fun _ h => h)

end Laws

end OrderedMap

end CloverVM.Collections
