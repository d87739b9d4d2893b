import CloverVM.Memory.HeapReclamation

/-!
# The accounts of the reclamation

Between two steps every object agrees with what is kept about it: its count
with the references to it, its state with the zero-count tables, and what has
no count is in a table or in a slab that is still to be scanned.  Giving up a
reference or an object keeps the accounts, and so no assertion of it fails.
-/

namespace CloverVM.Memory

open CloverVM.Machine CloverVM.Collections ReclamationContext

/-- What the program may still use. -/
@[grind =] def HeapObject.Usable (object : HeapObject) : Prop :=
  object.lifecycleState = .normal ∨ object.lifecycleState = .inZct

instance (object : HeapObject) : Decidable object.Usable :=
  inferInstanceAs (Decidable (_ ∨ _))

/-- What is kept about the objects of a heap: the counted references outside
of it, the stacks, the zero-count tables, what a scan of slabs is still to come
to, and the object that is being reclaimed. -/
structure Account where
  owned : List ObjectId
  stack : List ObjectId
  listed : List ObjectId
  pending : Set ObjectId
  busy : Option ObjectId

@[grind cases]
structure Accounted (account : Account) (id : ObjectId)
    (object : HeapObject) (references : Nat) : Prop where
  counted : object.Usable → object.refcount = references
  unreferenced : ¬ object.Usable → references = 0 ∧ id ∉ account.stack
  listed : account.listed.count id =
    if object.lifecycleState = .inZct then 1 else 0
  discovered : object.lifecycleState = .normal → object.refcount = 0 →
    id ∈ account.pending
  busy : object.lifecycleState = .reclaiming ↔ account.busy = some id

structure Sound (heap : Heap) (account : Account) : Prop where
  accounted : ∀ id, Accounted account id (heap.objects id)
    (heap.references account.owned id)
  fresh : ∀ id, heap.allocated ≤ id →
    (heap.objects id).lifecycleState = .dead

variable {start heap heap' : Heap} {account account' : Account}
  {id : ObjectId} {roots : List ObjectId}

/-! ## One object changes -/

theorem references_set {object : HeapObject} {owned : List ObjectId}
    (hSlots : object.slots = (heap.objects id).slots) (other : ObjectId) :
    (heap.set id object).references owned other =
      heap.references owned other := by
  unfold Heap.references
  congr 1
  apply mentions_congr
  intro holder _
  grind

@[grind =] theorem references_cons {owned : List ObjectId}
    (other : ObjectId) : heap.references (id :: owned) other =
      heap.references owned other + if other = id then 1 else 0 := by
  simp only [Heap.references, List.count_cons, beq_iff_eq, add_assoc,
    @eq_comm _ other id]

namespace Sound

theorem borrowed (h : Sound heap account) :
    ∀ id ∈ account.stack, (heap.objects id).Usable := by
  intro id hBorrowed
  have hUnreferenced := (h.accounted id).unreferenced
  grind

theorem inZct_iff (h : Sound heap account) :
    (heap.objects id).lifecycleState = .inZct ↔ id ∈ account.listed := by
  have hListed := (h.accounted id).listed
  rw [← List.count_pos_iff]
  grind

theorem nodup (h : Sound heap account) : account.listed.Nodup := by
  rw [List.nodup_iff_count_le_one]
  intro id
  have hListed := (h.accounted id).listed
  grind

theorem validate {table : List ObjectId} (h : Sound heap account)
    (hTable : table.Sublist account.listed) :
    validateZeroCountTable heap table = some () := by
  have hStates : ∀ id ∈ table, (heap.objects id).lifecycleState = .inZct :=
    fun _ hId => h.inZct_iff.mpr (hTable.subset hId)
  exact (check_bind hStates _).trans
    (check_eq_some.mpr (hTable.nodup h.nodup))

theorem lt_allocated (h : Sound heap account)
    (hAlive : (heap.objects id).lifecycleState ≠ .dead) :
    id < heap.allocated := by
  by_contra hFresh
  exact hAlive (h.fresh id (not_lt.mp hFresh))

/-- The accounts do not depend on the order of their lists. -/
theorem congr (h : Sound heap account)
    (hOwned : ∀ id, account'.owned.count id = account.owned.count id)
    (hStack : ∀ id ∈ account'.stack, (heap.objects id).Usable)
    (hListed : ∀ id, account'.listed.count id = account.listed.count id)
    (hPending : ∀ id ∈ account.pending, id ∈ account'.pending)
    (hBusy : account'.busy = account.busy) : Sound heap account' where
  accounted id := by
    have hAccounted := h.accounted id
    have hReferences : heap.references account'.owned id =
        heap.references account.owned id := by
      rw [Heap.references, hOwned, Heap.references]
    constructor <;> grind
  fresh := h.fresh

theorem of_pending {pending : Set ObjectId} (h : Sound heap account)
    (hPending : ∀ id, (heap.objects id).lifecycleState = .normal →
      (heap.objects id).refcount = 0 → id ∈ account.pending → id ∈ pending) :
    Sound heap { account with pending } where
  accounted id := { h.accounted id with
    discovered := fun hNormal hZero =>
      hPending id hNormal hZero ((h.accounted id).discovered hNormal hZero) }
  fresh := h.fresh

/-- It is enough to look at one object at a time. -/
theorem set {object : HeapObject} (h : Sound heap account)
    (hAlive : (heap.objects id).lifecycleState ≠ .dead)
    (hSlots : object.slots = (heap.objects id).slots)
    (hAccounted : ∀ other, Accounted account other (heap.objects other)
        (heap.references account.owned other) →
      Accounted account' other
        (if other = id then object else heap.objects other)
        (heap.references account'.owned other)) :
    Sound (heap.set id object) account' where
  accounted other := by
    rw [references_set hSlots, Heap.set_objects]
    exact hAccounted other (h.accounted other)
  fresh other hFresh := by
    have hNe := ((h.lt_allocated hAlive).trans_le hFresh).ne'
    rw [Heap.set_objects, if_neg hNe]
    exact h.fresh other hFresh

/-- An object goes to a zero-count table. -/
theorem enlist (account : Account) (h : Sound heap { account with
      pending := insert id account.pending })
    (hNormal : (heap.objects id).lifecycleState = .normal) :
    Sound (heap.setLifecycleState id .inZct)
      { account with listed := account.listed ++ [id] } := by
  refine h.set (by grind) rfl ?_
  intro other hOther
  constructor <;> grind

/-- An object that has got a count again leaves its table. -/
theorem revive {listed : List ObjectId} (account : Account)
    (h : Sound heap { account with listed := account.listed ++ id :: listed })
    (hCount : (heap.objects id).refcount ≠ 0) :
    Sound (heap.setLifecycleState id .normal)
      { account with listed := account.listed ++ listed } := by
  have hAccounted := h.accounted id
  refine h.set (by grind) rfl ?_
  intro other hOther
  constructor <;> grind

/-- One more reference is held outside of the heap. -/
theorem count (account : Account) (h : Sound heap account)
    (hUsable : (heap.objects id).Usable) :
    Sound (heap.setRefcount id ((heap.objects id).refcount + 1))
      { account with owned := id :: account.owned } := by
  refine h.set (by grind) rfl ?_
  intro other hOther
  constructor <;> grind

/-- A reference outside of the heap is given up. -/
theorem discount (account : Account) (h : Sound heap { account with
      owned := id :: account.owned }) :
    Sound (heap.setRefcount id ((heap.objects id).refcount - 1))
        { account with pending := insert id account.pending } ∧
      (heap.objects id).Usable ∧ (heap.objects id).refcount ≠ 0 := by
  have hAccounted := h.accounted id
  refine ⟨h.set (by grind) rfl ?_, by grind, by grind⟩
  intro other hOther
  constructor <;> grind

/-- An object without a count is taken out of the accounts. -/
theorem claim {listed : List ObjectId} (account : Account)
    (h : Sound heap { account with
      listed, pending := insert id account.pending })
    (hUsable : (heap.objects id).Usable)
    (hZero : (heap.objects id).refcount = 0) (hStack : id ∉ account.stack)
    (hIdle : account.busy = none) (hListed : ∀ other,
      account.listed.count other = if other = id then 0 else
        listed.count other) :
    Sound (heap.setLifecycleState id .reclaiming)
      { account with busy := some id } := by
  refine h.set (by grind) rfl ?_
  intro other hOther
  constructor <;> grind

theorem finish (account : Account)
    (h : Sound heap { account with busy := some id })
    (hIdle : account.busy = none) :
    Sound (heap.setLifecycleState id .dead) account := by
  have hAccounted := h.accounted id
  refine h.set (by grind) rfl ?_
  intro other hOther
  constructor <;> grind

end Sound

/-! ## Slots -/

theorem references_toList (value : Option ObjectId) {owned : List ObjectId}
    (other : ObjectId) : heap.references (value.toList ++ owned) other =
      heap.references owned other + if value = some other then 1 else 0 := by
  cases value with
  | none => simp
  | some child =>
      rw [Option.toList_some, List.singleton_append, references_cons]
      simp only [Option.some.injEq, eq_comm]

/-- What moves into a slot has been counted outside, and so is what it
replaces. -/
theorem references_setSlot {idx : Nat} {old : Option ObjectId}
    (hId : id < heap.allocated)
    (hSlot : (heap.objects id).slots[idx]? = some old)
    (value : Option ObjectId) {owned : List ObjectId} (other : ObjectId) :
    (heap.setSlot id idx value).references (old.toList ++ owned) other =
      heap.references (value.toList ++ owned) other := by
  have hSlots : (fun holder => ((heap.setSlot id idx value).objects holder
      ).slots) = Function.update (fun holder => (heap.objects holder).slots) id
        ((heap.objects id).slots.set idx value) := by
    funext holder
    grind [Function.update_apply]
  have hMentions := @mentions_set _ _ heap.allocated
    (fun holder => (heap.objects holder).slots) (some other) id idx hId old
    hSlot value
  have hSum := congrArg (· + owned.count other) hMentions
  rw [references_toList, references_toList, Heap.references, hSlots,
    Heap.references]
  exact (Nat.add_right_comm ..).trans (hSum.trans (Nat.add_right_comm ..))

theorem Sound.setSlot {idx : Nat} {old : Option ObjectId}
    (value : Option ObjectId) (account : Account) (h : Sound heap
      { account with owned := value.toList ++ account.owned })
    (hId : id < heap.allocated)
    (hSlot : (heap.objects id).slots[idx]? = some old) :
    Sound (heap.setSlot id idx value)
      { account with owned := old.toList ++ account.owned } where
  accounted other := by
    have hOther := h.accounted other
    rw [references_setSlot hId hSlot, Heap.setSlot, Heap.set_objects]
    constructor <;> grind
  fresh other hFresh := by
    have hOther := h.fresh other hFresh
    grind

/-! ## What a reclamation leaves -/

/-- What is left has not been touched but for its count. -/
structure Reclaims (heap heap' : Heap) : Prop where
  allocated : heap'.allocated = heap.allocated
  slab : ∀ id, (heap'.objects id).slab = (heap.objects id).slab
  kept : ∀ id, (heap'.objects id).Usable → (heap.objects id).Usable ∧
    (heap'.objects id).slots = (heap.objects id).slots ∧
    ((heap.objects id).refcount = 0 → (heap'.objects id).refcount = 0)

/-- An object with a count that can drop. -/
def Counted (heap : Heap) (id : ObjectId) : Prop :=
  (heap.objects id).Usable ∧ (heap.objects id).refcount ≠ 0

namespace Reclaims

theorem refl (heap : Heap) : Reclaims heap heap :=
  ⟨rfl, fun _ => rfl, fun _ hUsable => ⟨hUsable, rfl, fun h => h⟩⟩

theorem trans (h : Reclaims start heap) (h' : Reclaims heap heap') :
    Reclaims start heap' where
  allocated := h'.allocated.trans h.allocated
  slab id := (h'.slab id).trans (h.slab id)
  kept id := by
    have hFirst := h.kept id
    have hSecond := h'.kept id
    grind

theorem set {object : HeapObject} (h : Reclaims start heap)
    (hSlab : object.slab = (heap.objects id).slab)
    (hKept : object.Usable → (heap.objects id).Usable ∧
      object.slots = (heap.objects id).slots ∧
      ((heap.objects id).refcount = 0 → object.refcount = 0)) :
    Reclaims start (heap.set id object) := by
  refine h.trans ⟨rfl, ?_, ?_⟩
  · grind
  · grind

theorem counted (h : Reclaims start heap) (hCounted : Counted heap id) :
    Counted start id := by
  have hKept := h.kept id hCounted.1
  exact ⟨hKept.1, fun hZero => hCounted.2 (hKept.2.2 hZero)⟩

end Reclaims

/-! ## References and objects that are given up -/

/-- The state of a reclamation that began with the heap `start`: the account
is that of the other tables, and `Entry` holds of what is in the table. -/
structure Ongoing (roots : List ObjectId) (start : Heap)
    (Entry : ObjectId → Prop) (account : Account)
    (context : ReclamationContext) : Prop where
  sound : Sound context.heap { account with
    listed := account.listed ++ (context.kept ++ context.currentZct) }
  kept : ∀ id ∈ context.kept, id ∈ roots
  entries : ∀ id ∈ context.currentZct, Entry id
  reclaims : Reclaims start context.heap

section Contexts

variable {Entry : ObjectId → Prop} {context : ReclamationContext}

/-- An object that has lost its count goes to the table at work. -/
theorem Ongoing.enlist
    (h : Ongoing roots start Entry { account with
      pending := insert id account.pending } context)
    (hNormal : (context.heap.objects id).lifecycleState = .normal)
    (hEntry : Entry id) :
    Ongoing roots start Entry account { context with
      heap := context.heap.setLifecycleState id .inZct
      currentZct := context.currentZct ++ [id] } where
  sound := by
    have hEnlisted := Sound.enlist { account with
      listed := account.listed ++ (context.kept ++ context.currentZct) }
      h.sound hNormal
    simpa using hEnlisted
  kept := h.kept
  entries := by
    have hEntries := h.entries
    grind
  reclaims := h.reclaims.set rfl fun _ => ⟨Or.inl hNormal, rfl, fun h => h⟩

theorem decref_spec (hEntry : ∀ id, Counted start id → Entry id)
    (h : Ongoing roots start Entry
      { account with owned := id :: account.owned } context) :
    ∃ next, context.decref id = some next ∧
      Ongoing roots start Entry account next := by
  obtain ⟨hSound, hUsable, hCount⟩ := Sound.discount { account with
    listed := account.listed ++ (context.kept ++ context.currentZct) } h.sound
  let next := context.setHeap (context.heap.setRefcount id
    ((context.heap.objects id).refcount - 1))
  have hNext : Ongoing roots start Entry { account with
      pending := insert id account.pending } next :=
    ⟨hSound, h.kept, h.entries, h.reclaims.set rfl (by grind)⟩
  have hObject : next.heap.objects id = { context.heap.objects id with
      refcount := (context.heap.objects id).refcount - 1 } := by grind
  change ∃ last, (if (context.heap.objects id).refcount - 1 = 0 then
    next.addToZeroCountTableIfNeeded id else some next) = some last ∧ _
  by_cases hListed : (context.heap.objects id).refcount - 1 = 0 ∧
      (context.heap.objects id).lifecycleState = .normal
  · refine ⟨_, ?_, hNext.enlist (by grind)
      (hEntry id (h.reclaims.counted ⟨hUsable, hCount⟩))⟩
    simp [addToZeroCountTableIfNeeded, hObject, hListed,
      check]
  · refine ⟨next, ?_, hSound.of_pending ?_, h.kept, h.entries, hNext.reclaims⟩
    · split
      · have hInZct : (context.heap.objects id).lifecycleState = .inZct := by
          grind
        simp [addToZeroCountTableIfNeeded, hObject, hInZct,
          check]
      · rfl
    · intro other hNormal hZero hPending
      grind

theorem releaseSlot_spec (hEntry : ∀ id, Counted start id → Entry id)
    (h : Ongoing roots start Entry account context)
    (hBusy : account.busy = some id) (idx : Nat) :
    ∃ next, releaseSlot id context idx = some next ∧
      Ongoing roots start Entry account next := by
  have hState := ((h.sound.accounted id).busy).mpr hBusy
  have hReclaims : Reclaims start (context.heap.setSlot id idx none) :=
    h.reclaims.set rfl (by grind)
  unfold releaseSlot
  cases hSlot : (context.heap.objects id).slots[idx]? with
  | none =>
      have hSame : context.heap.setSlot id idx none = context.heap := by
        rw [Heap.setSlot, List.set_eq_of_length_le
          (List.getElem?_eq_none_iff.mp hSlot), Heap.set,
          Function.update_eq_self]
      exact ⟨_, rfl, by rw [hSame]; exact h⟩
  | some value =>
      have hSet := Sound.setSlot none { account with
        listed := account.listed ++ (context.kept ++ context.currentZct) }
        h.sound (h.sound.lt_allocated (by simp [hState])) hSlot
      cases value with
      | none => exact ⟨_, rfl, hSet, h.kept, h.entries, hReclaims⟩
      | some child =>
          exact decref_spec hEntry ⟨hSet, h.kept, h.entries, hReclaims⟩

/-- A root is kept, and any other object is taken. -/
theorem settle_spec {listed : List ObjectId} {keep : ReclamationContext}
    (hEntry : ∀ id, Counted start id → Entry id)
    (hRoots : ∀ id ∈ account.stack, id ∈ roots) (hIdle : account.busy = none)
    (hSound : Sound context.heap { account with
      listed, pending := insert id account.pending })
    (hUsable : (context.heap.objects id).Usable)
    (hZero : (context.heap.objects id).refcount = 0)
    (hListed : ∀ other, (account.listed ++ (context.kept ++ context.currentZct)
      ).count other = if other = id then 0 else listed.count other)
    (hKept : ∀ id ∈ context.kept, id ∈ roots)
    (hEntries : ∀ id ∈ context.currentZct, Entry id)
    (hReclaims : Reclaims start context.heap)
    (hKeep : id ∈ roots → Ongoing roots start Entry account keep) :
    ∃ next, context.settle roots id keep = some next ∧
      Ongoing roots start Entry account next ∧
      (id ∈ roots ∧ next = keep ∨ ¬ (next.heap.objects id).Usable) := by
  unfold settle
  rw [check_bind hZero]
  by_cases hRoot : id ∈ roots
  · exact ⟨keep, if_pos hRoot, hKeep hRoot, Or.inl ⟨hRoot, rfl⟩⟩
  · have hClaimed := Sound.claim { account with
      listed := account.listed ++ (context.kept ++ context.currentZct) }
      hSound hUsable hZero (fun hStack => hRoot (hRoots id hStack)) hIdle
      hListed
    have hBegun : Ongoing roots start Entry { account with busy := some id }
        (context.setHeap (context.heap.setLifecycleState id .reclaiming)) :=
      ⟨hClaimed, hKept, hEntries, hReclaims.set rfl (by grind)⟩
    obtain ⟨last, hLast, hOngoing⟩ := @foldlM_ends _ _
      (releaseSlot id)
      (fun _ => Ongoing roots start Entry { account with busy := some id })
      (fun idx _ _ hState => releaseSlot_spec hEntry hState rfl idx)
      (List.range (context.heap.objects id).slots.length) _ hBegun
    refine ⟨last.setHeap (last.heap.setLifecycleState id .dead), ?_,
      ⟨hOngoing.sound.finish { account with
        listed := account.listed ++ (last.kept ++ last.currentZct) } hIdle,
        hOngoing.kept, hOngoing.entries,
        hOngoing.reclaims.set rfl (by grind)⟩, Or.inr (by grind)⟩
    have hObject : ((context.setHeap (context.heap.setLifecycleState id
        .reclaiming)).heap.objects id) = { context.heap.objects id with
          lifecycleState := .reclaiming } := by grind
    rw [if_neg hRoot, reclaimObject, hObject,
      check_bind rfl, hLast]
    rfl

end Contexts

end CloverVM.Memory
