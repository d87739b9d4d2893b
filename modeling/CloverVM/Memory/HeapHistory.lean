import CloverVM.Memory.ReclamationRun

/-!
# Histories of the heap

What the threads of a virtual machine do to the heap, in any order: they take
new objects from their slabs, move references between their stacks, handles
and slots (`object_model/value.h`, `object_model/owned.h`), and stop for a
reclamation.  A thread works with the references that it has
at hand, and a reclamation sees every stack.
-/

namespace CloverVM.Memory

open CloverVM.Machine CloverVM.Collections

namespace VirtualMachine

def empty : VirtualMachine := ⟨.empty, [], [], 0⟩

/-- A thread starts with a slab of its own. -/
def spawn (vm : VirtualMachine) : VirtualMachine :=
  { vm with
    threads := vm.threads ++ [⟨[], vm.slabs, [vm.slabs], []⟩]
    slabs := vm.slabs + 1 }

/-- `switch_to_new_slabs`, and the slow path of `allocate`. -/
def switchToNewSlabs (vm : VirtualMachine) (t : Nat) :
    Option VirtualMachine := do
  let thread ← vm.threads[t]?
  return { vm with
    threads := vm.threads.set t { thread with
      localAllocator := vm.slabs
      epochSlabs := thread.epochSlabs ++ [vm.slabs] }
    slabs := vm.slabs + 1 }

/-- A new object, in the hands of the thread and without a count.  A large
one gets a slab of its own. -/
def allocate (vm : VirtualMachine) (t size : Nat) (large : Bool) :
    Option VirtualMachine := do
  let thread ← vm.threads[t]?
  let id := vm.heap.allocated
  let slab := if large then vm.slabs else thread.localAllocator
  let object : HeapObject := ⟨0, .normal, List.replicate size none, slab⟩
  return { vm with
    heap := ⟨Function.update vm.heap.objects id object, id + 1⟩
    threads := vm.threads.set t { thread with
      epochSlabs := if large then thread.epochSlabs ++ [slab]
        else thread.epochSlabs
      stack := thread.stack ++ [id] }
    slabs := if large then vm.slabs + 1 else vm.slabs }

/-- A value is moved to the stack. -/
def push (vm : VirtualMachine) (t : Nat) (id : ObjectId) :
    Option VirtualMachine := do
  let thread ← vm.threads[t]?
  return { vm with
    threads := vm.threads.set t { thread with stack := thread.stack ++ [id] } }

def pop (vm : VirtualMachine) (t idx : Nat) : Option VirtualMachine := do
  let thread ← vm.threads[t]?
  return { vm with
    threads := vm.threads.set t
      { thread with stack := thread.stack.eraseIdx idx } }

/-- `decref`, with the table of the active thread. -/
def decref (vm : VirtualMachine) (t : Nat) (id : ObjectId) :
    Option VirtualMachine := do
  let thread ← vm.threads[t]?
  let context ← ReclamationContext.decref
    ⟨vm.heap, [], thread.zeroCountTable⟩ id
  return { vm with
    heap := context.heap
    threads := vm.threads.set t
      { thread with zeroCountTable := context.currentZct } }

/-- `write_existing_storage_location`: the new value is counted before the
old one is given up. -/
def store (vm : VirtualMachine) (t : Nat) (id : ObjectId) (idx : Nat)
    (value : Option ObjectId) : Option VirtualMachine := do
  let oldValue ← (vm.heap.objects id).slots[idx]?
  let heap ← value.elim (some vm.heap) (incref vm.heap)
  let next := { vm with heap := heap.setSlot id idx value }
  oldValue.elim (some next) (next.decref t)

/-- The constructor of `Owned`. -/
def own (vm : VirtualMachine) (id : ObjectId) : Option VirtualMachine := do
  let heap ← incref vm.heap id
  return { vm with heap, owned := id :: vm.owned }

/-- The destructor of `Owned`. -/
def disown (vm : VirtualMachine) (t : Nat) (id : ObjectId) :
    Option VirtualMachine :=
  { vm with owned := vm.owned.erase id }.decref t id

end VirtualMachine

/-! ## Steps -/

inductive Operation where
  | spawn
  | switchToNewSlabs (t : Nat)
  | allocate (t size : Nat) (large : Bool)
  | push (t : Nat) (id : ObjectId)
  | pop (t idx : Nat)
  | store (t : Nat) (id : ObjectId) (idx : Nat) (value : Option ObjectId)
  | own (t : Nat) (id : ObjectId)
  | disown (t : Nat) (id : ObjectId)
  | reclaim (roots : List ObjectId)

namespace VirtualMachine

def step (vm : VirtualMachine) : Operation → Option VirtualMachine
  | .spawn => some vm.spawn
  | .switchToNewSlabs t => vm.switchToNewSlabs t
  | .allocate t size large => vm.allocate t size large
  | .push t id => vm.push t id
  | .pop t idx => vm.pop t idx
  | .store t id idx value => vm.store t id idx value
  | .own _ id => vm.own id
  | .disown t id => vm.disown t id
  | .reclaim roots => vm.runHeapReclamation roots

/-- A reference on the stack of the thread, or in a handle. -/
def AtHand (vm : VirtualMachine) (t : Nat) (id : ObjectId) : Prop :=
  ∃ thread, vm.threads[t]? = some thread ∧ (id ∈ thread.stack ∨ id ∈ vm.owned)

/-- One more reference fits in the count. -/
def CanCount (vm : VirtualMachine) (id : ObjectId) : Prop :=
  (vm.heap.objects id).refcount + 1 < 2 ^ 31

/-- What a thread may do with the references that it has. -/
def Allowed (vm : VirtualMachine) : Operation → Prop
  | .spawn => True
  | .switchToNewSlabs t => t < vm.threads.length
  | .allocate t _ _ => t < vm.threads.length
  | .push t id => vm.AtHand t id ∨
      ∃ holder, vm.AtHand t holder ∧ some id ∈ (vm.heap.objects holder).slots
  | .pop t _ => t < vm.threads.length
  | .store t id idx value => vm.AtHand t id ∧
      idx < (vm.heap.objects id).slots.length ∧
      ∀ new ∈ value, vm.AtHand t new ∧ vm.CanCount new
  | .own t id => vm.AtHand t id ∧ vm.CanCount id
  | .disown t id => t < vm.threads.length ∧ id ∈ vm.owned
  | .reclaim roots => ∀ id ∈ vm.stackReferences, id ∈ roots

end VirtualMachine

inductive Reachable : VirtualMachine → Prop where
  | start : Reachable .empty
  | step {vm next : VirtualMachine} {operation : Operation} :
      Reachable vm → vm.Allowed operation → vm.step operation = some next →
      Reachable next

/-- An object that holds another one, which only the slot refers to. -/
def sampleHistory : Option VirtualMachine := do
  let vm ← VirtualMachine.empty.spawn.allocate 0 1 false
  let vm ← vm.allocate 0 0 false
  let vm ← vm.store 0 0 0 (some 1)
  let vm ← vm.pop 0 1
  let vm ← vm.allocate 0 0 false
  vm.pop 0 1

theorem sampleHistory_reachable : ∃ vm, sampleHistory = some vm ∧
    Reachable vm ∧ vm.stackReferences = [0] ∧
      some 1 ∈ (vm.heap.objects 0).slots ∧ (vm.heap.objects 2).refcount = 0 ∧
      (vm.heap.objects 2).lifecycleState = .normal := by
  have hSpawned := @Reachable.step _ _ .spawn .start trivial rfl
  have hFirst := @Reachable.step _ _ (.allocate 0 1 false) hSpawned
    Nat.zero_lt_one rfl
  have hSecond := @Reachable.step _ _ (.allocate 0 0 false) hFirst
    Nat.zero_lt_one rfl
  have hStored := @Reachable.step _ _ (.store 0 0 0 (some 1)) hSecond
    ⟨⟨_, rfl, Or.inl (by decide)⟩, Nat.zero_lt_one, fun new hNew => by
      cases hNew
      exact ⟨⟨_, rfl, Or.inl (by decide)⟩,
        show (0 : Int) + 1 < 2 ^ 31 by decide⟩⟩ rfl
  have hPopped := @Reachable.step _ _ (.pop 0 1) hStored Nat.zero_lt_one rfl
  have hThird := @Reachable.step _ _ (.allocate 0 0 false) hPopped
    Nat.zero_lt_one rfl
  exact ⟨_, rfl, @Reachable.step _ _ (.pop 0 1) hThird Nat.zero_lt_one rfl,
    rfl, List.mem_singleton.mpr rfl, rfl, rfl⟩

/-! ## Between the steps -/

/-- What holds of a virtual machine between its steps. -/
structure Consistent (vm : VirtualMachine) : Prop where
  sound : Sound vm.heap ⟨vm.owned, vm.stackReferences, vm.tables,
    inSlabs vm.heap vm.epochSlabs, none⟩
  localAllocators : ∀ thread ∈ vm.threads,
    thread.localAllocator ∈ vm.epochSlabs

variable {vm next : VirtualMachine} {heap : Heap} {t : Nat}
  {thread thread' : ThreadState} {id : ObjectId} {owned : List ObjectId}

theorem exists_split {threads : List ThreadState}
    (hThread : threads[t]? = some thread) :
    ∃ before after, threads = before ++ thread :: after ∧
      ∀ thread', threads.set t thread' = before ++ thread' :: after := by
  obtain ⟨hT, rfl⟩ := List.getElem?_eq_some_iff.mp hThread
  have hSet (thread' : ThreadState) : threads.set t thread' =
      threads.take t ++ thread' :: threads.drop (t + 1) := by
    rw [List.set_eq_take_append_cons_drop, if_pos hT]
  exact ⟨_, _, by rw [← hSet, List.set_getElem_self], hSet⟩

/-- It is enough to look at one thread at a time. -/
theorem Consistent.view (h : Consistent vm)
    (hThread : vm.threads[t]? = some thread) :
    ∃ stack listed slabs, Sound vm.heap
        ⟨vm.owned, stack ++ thread.stack, listed ++ thread.zeroCountTable,
          inSlabs vm.heap (slabs ++ thread.epochSlabs), none⟩ ∧
      thread.localAllocator ∈ slabs ++ thread.epochSlabs ∧
      ∀ heap owned thread' count,
        (thread'.localAllocator ∈ thread'.epochSlabs ∨
          thread'.localAllocator = thread.localAllocator) →
        (∀ slab ∈ thread.epochSlabs, slab ∈ thread'.epochSlabs) →
        Sound heap
          ⟨owned, stack ++ thread'.stack, listed ++ thread'.zeroCountTable,
            inSlabs heap (slabs ++ thread'.epochSlabs), none⟩ →
        Consistent ⟨heap, vm.threads.set t thread', owned, count⟩ := by
  obtain ⟨before, after, hThreads, hSet⟩ := exists_split hThread
  have hLocals := h.localAllocators
  have hOld := h.sound.borrowed
  refine ⟨before.flatMap ThreadState.stack ++ after.flatMap ThreadState.stack,
    before.flatMap ThreadState.zeroCountTable ++
      after.flatMap ThreadState.zeroCountTable,
    before.flatMap ThreadState.epochSlabs ++
      after.flatMap ThreadState.epochSlabs,
    h.sound.congr (fun _ => rfl) ?_ ?_ ?_ rfl, ?_, ?_⟩
  case refine_5 =>
    intro heap owned thread' count hLocal hEpoch hSound
    have hNew := hSound.borrowed
    refine ⟨hSound.congr (fun _ => rfl) ?_ ?_ ?_ rfl, ?_⟩
    all_goals
      simp only [VirtualMachine.stackReferences, VirtualMachine.tables,
        VirtualMachine.epochSlabs, hThreads, List.flatMap_append,
        List.flatMap_cons] at *
      grind
  all_goals
    simp only [VirtualMachine.stackReferences, VirtualMachine.tables,
      VirtualMachine.epochSlabs, hThreads, List.flatMap_append,
      List.flatMap_cons] at *
    grind

theorem inSlabs_congr {heap heap' : Heap}
    (h : ∀ id, (heap'.objects id).slab = (heap.objects id).slab)
    (slabs : List SlabId) : inSlabs heap' slabs = inSlabs heap slabs := by
  ext id
  simp only [inSlabs, Set.mem_ofPred_eq, h]

/-! ## The steps one by one -/

theorem Consistent.spawn (h : Consistent vm) : Consistent vm.spawn := by
  have hBorrowed := h.sound.borrowed
  have hLocals := h.localAllocators
  refine ⟨h.sound.congr (fun _ => rfl) ?_ ?_ ?_ rfl, ?_⟩
  all_goals
    simp only [VirtualMachine.spawn, VirtualMachine.stackReferences,
      VirtualMachine.tables, VirtualMachine.epochSlabs, List.flatMap_append,
      List.flatMap_singleton] at *
    grind

theorem Consistent.switchToNewSlabs (h : Consistent vm)
    (hThread : vm.threads[t]? = some thread) :
    ∃ next, vm.switchToNewSlabs t = some next ∧ Consistent next := by
  obtain ⟨stack, listed, slabs, hSound, -, hView⟩ := h.view hThread
  refine ⟨_, by rw [VirtualMachine.switchToNewSlabs, hThread]; rfl,
    hView _ _ _ _ (Or.inl (by simp)) (by simp +contextual) ?_⟩
  refine hSound.congr (fun _ => rfl) hSound.borrowed (fun _ => rfl) ?_ rfl
  grind

/-- The stack of a thread may hold what can be used. -/
theorem Consistent.setStack (h : Consistent vm)
    (hThread : vm.threads[t]? = some thread) {stack : List ObjectId}
    (hStack : ∀ id ∈ stack, (vm.heap.objects id).Usable) :
    Consistent { vm with
      threads := vm.threads.set t { thread with stack } } := by
  obtain ⟨others, listed, slabs, hSound, -, hView⟩ := h.view hThread
  refine hView _ _ _ _ (Or.inr rfl) (fun _ h => h) ?_
  have hBorrowed := hSound.borrowed
  refine hSound.congr (fun _ => rfl) ?_ (fun _ => rfl) (fun _ h => h) rfl
  grind

theorem Consistent.decref
    (h : Consistent { vm with owned := id :: vm.owned })
    (hThread : vm.threads[t]? = some thread) :
    ∃ next, vm.decref t id = some next ∧ Consistent next := by
  obtain ⟨stack, listed, slabs, hSound, -, hView⟩ := h.view hThread
  obtain ⟨⟨heap, kept, table⟩, hContext, hOngoing⟩ := @decref_spec vm.heap
    ⟨vm.owned, stack ++ thread.stack, listed,
      inSlabs vm.heap (slabs ++ thread.epochSlabs), none⟩ id []
    (fun _ => True) ⟨vm.heap, [], thread.zeroCountTable⟩ (by simp)
    ⟨hSound, by simp, by simp, Reclaims.refl _⟩
  have hKept : kept = [] := List.eq_nil_iff_forall_not_mem.mpr
    fun id hId => List.not_mem_nil (hOngoing.kept id hId)
  subst hKept
  refine ⟨_, by rw [VirtualMachine.decref, hThread,
    bind_of_eq_some rfl, bind_of_eq_some hContext]; rfl,
    hView heap vm.owned { thread with zeroCountTable := table } vm.slabs
      (Or.inr rfl) (fun _ h => h) ?_⟩
  rw [inSlabs_congr hOngoing.reclaims.slab]
  exact hOngoing.sound

theorem Consistent.incref (h : Consistent vm)
    (hUsable : (vm.heap.objects id).Usable) (hFits : vm.CanCount id) :
    ∃ heap, Memory.incref vm.heap id = some heap ∧
      Consistent { vm with heap, owned := id :: vm.owned } ∧
      (∀ other, (heap.objects other).slots = (vm.heap.objects other).slots) ∧
      heap.allocated = vm.heap.allocated := by
  have hLimit : (vm.heap.objects id).refcount + 1 < 2 ^ 31 := hFits
  refine ⟨_, check_bind hLimit _, ⟨?_, h.localAllocators⟩, by grind, rfl⟩
  change Sound _ ⟨_, _, _, inSlabs _ vm.epochSlabs, _⟩
  rw [@inSlabs_congr vm.heap _ fun other => by grind]
  exact Sound.count _ h.sound hUsable

/-- The value that is stored is counted before the old one is given up. -/
theorem Consistent.store {idx : Nat} {value : Option ObjectId}
    (h : Consistent vm) (hThread : vm.threads[t]? = some thread)
    (hId : (vm.heap.objects id).Usable)
    (hIdx : idx < (vm.heap.objects id).slots.length)
    (hValue : ∀ new ∈ value, (vm.heap.objects new).Usable ∧ vm.CanCount new) :
    ∃ next, vm.store t id idx value = some next ∧ Consistent next := by
  obtain ⟨heap, hHeap, hCounted, hSlots, hAllocated⟩ : ∃ heap,
      value.elim (some vm.heap) (Memory.incref vm.heap) = some heap ∧
      Consistent { vm with heap, owned := value.toList ++ vm.owned } ∧
      (∀ other, (heap.objects other).slots = (vm.heap.objects other).slots) ∧
      heap.allocated = vm.heap.allocated := by
    cases value with
    | none => exact ⟨vm.heap, rfl, h, fun _ => rfl, rfl⟩
    | some new => exact h.incref (hValue new rfl).1 (hValue new rfl).2
  have hOld := List.getElem?_eq_getElem hIdx
  have hHolder : id < vm.heap.allocated :=
    h.sound.lt_allocated (by grind)
  have hSet := Sound.setSlot value ⟨vm.owned, vm.stackReferences, vm.tables,
    inSlabs heap vm.epochSlabs, none⟩ hCounted.sound
    (hHolder.trans_eq hAllocated.symm) (by rw [hSlots]; exact hOld)
  have hNext : Consistent { vm with
      heap := heap.setSlot id idx value
      owned := (vm.heap.objects id).slots[idx].toList ++ vm.owned } := by
    refine ⟨?_, h.localAllocators⟩
    change Sound _ ⟨_, _, _, inSlabs _ vm.epochSlabs, _⟩
    rw [@inSlabs_congr heap _ fun other => by grind]
    exact hSet
  rw [VirtualMachine.store, bind_of_eq_some hOld, bind_of_eq_some hHeap]
  cases hWas : (vm.heap.objects id).slots[idx] with
  | none => exact ⟨_, rfl, by rw [hWas] at hNext; exact hNext⟩
  | some old =>
      rw [hWas] at hNext
      exact Consistent.decref hNext hThread

theorem Consistent.disown (h : Consistent vm)
    (hThread : vm.threads[t]? = some thread) (hOwned : id ∈ vm.owned) :
    ∃ next, vm.disown t id = some next ∧ Consistent next := by
  apply Consistent.decref
  · refine ⟨h.sound.congr ?_ h.sound.borrowed (fun _ => rfl) (fun _ h => h)
      rfl, h.localAllocators⟩
    exact fun other => ((List.perm_cons_erase hOwned).count_eq other).symm
  · exact hThread

/-! ## New objects -/

theorem Sound.allocate {account : Account} {object : HeapObject}
    (h : Sound heap account) (hState : object.lifecycleState = .normal)
    (hCount : object.refcount = 0) (hSlots : ∀ slot ∈ object.slots, slot = none)
    (hPending : heap.allocated ∈ account.pending) :
    Sound ⟨Function.update heap.objects heap.allocated object,
      heap.allocated + 1⟩ account := by
  have hReferences (other : ObjectId) :
      Heap.references ⟨Function.update heap.objects heap.allocated object,
        heap.allocated + 1⟩ account.owned other =
      heap.references account.owned other := by
    have hLists : (fun holder => (Function.update heap.objects heap.allocated
        object holder).slots) = Function.update
          (fun holder => (heap.objects holder).slots) heap.allocated
            object.slots := by
      funext holder
      grind [Function.update_apply]
    have hNone : some other ∉ object.slots := fun hMem => by
      simpa using hSlots _ hMem
    rw [Heap.references, hLists, mentions_extend hNone, Heap.references]
  constructor
  · intro other
    have hOther := h.accounted other
    have hFresh := h.fresh other
    rw [hReferences]
    simp only [Function.update_apply]
    constructor <;> grind
  · intro other hFresh
    have hOther : heap.allocated + 1 ≤ other := hFresh
    have hDead := h.fresh other (by omega)
    simp only [Function.update_apply]
    grind

theorem Consistent.addObject {object : HeapObject} {epochSlabs : List SlabId}
    {count : Nat} (h : Consistent vm)
    (hThread : vm.threads[t]? = some thread)
    (hState : object.lifecycleState = .normal) (hCount : object.refcount = 0)
    (hSlots : ∀ slot ∈ object.slots, slot = none)
    (hEpoch : ∀ slab ∈ thread.epochSlabs, slab ∈ epochSlabs)
    (hSlab : object.slab = thread.localAllocator ∨ object.slab ∈ epochSlabs) :
    Consistent ⟨⟨Function.update vm.heap.objects vm.heap.allocated object,
        vm.heap.allocated + 1⟩,
      vm.threads.set t { thread with
        epochSlabs, stack := thread.stack ++ [vm.heap.allocated] },
      vm.owned, count⟩ := by
  obtain ⟨stack, listed, slabs, hSound, hLocal, hView⟩ := h.view hThread
  apply hView
  · exact Or.inr rfl
  · exact hEpoch
  generalize hNew : Heap.mk (Function.update vm.heap.objects
    vm.heap.allocated object) (vm.heap.allocated + 1) = new
  have hObjects (id : ObjectId) : new.objects id =
      if id = vm.heap.allocated then object else vm.heap.objects id := by
    rw [← hNew]
    exact Function.update_apply ..
  have hPending := hSound.of_pending (fun id hNormal _ hOld =>
    show id ∈ inSlabs new (slabs ++ epochSlabs) by
      have hId := hSound.lt_allocated (by rw [hNormal]; simp)
      grind)
  have hGrown := hPending.allocate hState hCount hSlots (by grind)
  rw [hNew] at hGrown
  have hBorrowed := hGrown.borrowed
  refine hGrown.congr (fun _ => rfl) ?_ (fun _ => rfl) (fun _ h => h) rfl
  grind

theorem Consistent.allocate (h : Consistent vm)
    (hThread : vm.threads[t]? = some thread) (size : Nat) (large : Bool) :
    ∃ next, vm.allocate t size large = some next ∧ Consistent next := by
  refine ⟨_, by rw [VirtualMachine.allocate, bind_of_eq_some hThread]; rfl,
    h.addObject hThread rfl rfl (by simp) (by grind) ?_⟩
  cases large with
  | false => exact Or.inl rfl
  | true => exact Or.inr (by simp)

/-! ## The reclamation as a step -/

/-- What a reclamation makes of a virtual machine. -/
structure Reclamation (roots : List ObjectId)
    (vm next : VirtualMachine) : Prop where
  owned : next.owned = vm.owned
  stackReferences : next.stackReferences = vm.stackReferences
  tables : ∀ id ∈ next.tables, id ∈ roots ∨ Counted vm.heap id
  reclaims : Reclaims vm.heap next.heap
  sound : Sound next.heap
    ⟨next.owned, next.stackReferences, next.tables, ∅, none⟩

theorem threads_processed {roots : List ObjectId} {start : Heap}
    {threads threads' : List ThreadState}
    (h : List.Forall₂ (Processed roots start) threads threads') :
    threads'.flatMap ThreadState.stack = threads.flatMap ThreadState.stack ∧
    (∀ id ∈ threads'.flatMap ThreadState.zeroCountTable,
      id ∈ roots ∨ Counted start id) ∧
    ∀ thread ∈ threads',
      thread.localAllocator ∈ threads'.flatMap ThreadState.epochSlabs := by
  induction h with
  | nil => simp
  | cons hFirst hRest ih =>
      obtain ⟨table, hTable, rfl⟩ := hFirst
      simp only [List.flatMap_cons, List.mem_append, List.mem_cons]
      grind

theorem Consistent.runHeapReclamation {roots : List ObjectId}
    (h : Consistent vm) (hRoots : ∀ id ∈ vm.stackReferences, id ∈ roots) :
    ∃ next, vm.runHeapReclamation roots = some next ∧ Consistent next ∧
      Reclamation roots vm next := by
  obtain ⟨⟨heap, threads⟩, hLast, hProcessed, hReclaims, hSound⟩ :=
    @processThreads_spec vm.heap ⟨vm.owned, vm.stackReferences, [], ∅, none⟩
      roots hRoots rfl vm.threads vm.heap [] (Reclaims.refl _) h.sound
  obtain ⟨hStack, hTables, hLocals⟩ := threads_processed hProcessed
  have hEnd : Reclamation roots vm { vm with heap, threads } := by
    refine ⟨rfl, hStack, hTables, hReclaims, ?_⟩
    rw [← show _ = vm.stackReferences from hStack] at hSound
    exact hSound
  refine ⟨_, ?_, ⟨hEnd.sound.of_pending (by simp), hLocals⟩, hEnd⟩
  rw [VirtualMachine.runHeapReclamation,
    bind_of_eq_some (h.sound.validate (List.Sublist.refl _)),
    bind_of_eq_some hLast]
  rfl

/-! ## Histories -/

/-- What has a counted reference is there. -/
theorem Sound.referenced {account : Account} (h : Sound heap account)
    (hReferenced : id ∈ account.owned ∨ ∃ holder,
      (heap.objects holder).Usable ∧ some id ∈ (heap.objects holder).slots) :
    (heap.objects id).Usable := by
  have hUnreferenced := (h.accounted id).unreferenced
  have hPositive : 0 < heap.references account.owned id := by
    cases hReferenced with
    | inl hOwned =>
        exact Nat.add_pos_right _ (List.count_pos_iff.mpr hOwned)
    | inr hSlot =>
        obtain ⟨holder, hHolder, hMem⟩ := hSlot
        exact Nat.add_pos_left (mentions_pos_iff.mpr
          ⟨holder, h.lt_allocated (by grind), hMem⟩) _
  grind

theorem Consistent.usable (h : Consistent vm)
    (hThread : vm.threads[t]? = some thread)
    (hId : id ∈ thread.stack ∨ id ∈ vm.owned) :
    (vm.heap.objects id).Usable := by
  cases hId with
  | inl hStack =>
      exact h.sound.borrowed id (List.mem_flatMap.mpr
        ⟨thread, List.mem_of_getElem? hThread, hStack⟩)
  | inr hOwned => exact h.sound.referenced (Or.inl hOwned)

theorem Consistent.setStack_usable (h : Consistent vm)
    (hThread : vm.threads[t]? = some thread) :
    ∀ id ∈ thread.stack, (vm.heap.objects id).Usable :=
  fun _ hId => h.usable hThread (Or.inl hId)

/-- One step keeps what holds between the steps. -/
theorem Consistent.step {operation : Operation} (h : Consistent vm)
    (hAllowed : vm.Allowed operation) :
    ∃ next, vm.step operation = some next ∧ Consistent next := by
  have hThread {t : Nat} (hT : t < vm.threads.length) :=
    List.getElem?_eq_getElem hT
  cases operation with
  | spawn => exact ⟨_, rfl, h.spawn⟩
  | switchToNewSlabs t => exact h.switchToNewSlabs (hThread hAllowed)
  | allocate t size large => exact h.allocate (hThread hAllowed) size large
  | push t id =>
      obtain ⟨thread, hThread, hUsable⟩ : ∃ thread,
          vm.threads[t]? = some thread ∧ (vm.heap.objects id).Usable := by
        cases hAllowed with
        | inl hAtHand =>
            obtain ⟨thread, hThread, hId⟩ := hAtHand
            exact ⟨thread, hThread, h.usable hThread hId⟩
        | inr hSlot =>
            obtain ⟨holder, ⟨thread, hThread, hHolder⟩, hMem⟩ := hSlot
            exact ⟨thread, hThread, h.sound.referenced
              (Or.inr ⟨holder, h.usable hThread hHolder, hMem⟩)⟩
      have hStack := h.setStack_usable hThread
      refine ⟨_, by
        rw [VirtualMachine.step, VirtualMachine.push, hThread]; rfl,
        h.setStack hThread (by grind)⟩
  | pop t idx =>
      have hStack := h.setStack_usable (hThread hAllowed)
      refine ⟨_, by
        rw [VirtualMachine.step, VirtualMachine.pop, hThread hAllowed]; rfl,
        h.setStack (hThread hAllowed) fun id hId =>
          hStack id (List.mem_of_mem_eraseIdx hId)⟩
  | store t id idx value =>
      obtain ⟨⟨thread, hThread, hId⟩, hIdx, hValue⟩ := hAllowed
      refine h.store hThread (h.usable hThread hId) hIdx ?_
      intro new hNew
      obtain ⟨⟨other, hOther, hAtHand⟩, hFits⟩ := hValue new hNew
      exact ⟨h.usable hOther hAtHand, hFits⟩
  | own t id =>
      obtain ⟨⟨thread, hThread, hId⟩, hFits⟩ := hAllowed
      obtain ⟨heap, hHeap, hConsistent, -⟩ :=
        h.incref (h.usable hThread hId) hFits
      exact ⟨_, by rw [VirtualMachine.step, VirtualMachine.own, hHeap]; rfl,
        hConsistent⟩
  | disown t id => exact h.disown (hThread hAllowed.1) hAllowed.2
  | reclaim roots =>
      obtain ⟨next, hNext, hConsistent, -⟩ := h.runHeapReclamation hAllowed
      exact ⟨next, hNext, hConsistent⟩

theorem Reachable.consistent (h : Reachable vm) : Consistent vm := by
  induction h with
  | start =>
      refine ⟨⟨fun id => ?_, fun _ _ => rfl⟩, by
        simp [VirtualMachine.empty]⟩
      constructor <;>
        simp [VirtualMachine.empty, Heap.empty, Heap.noObject,
          HeapObject.Usable, Heap.references, mentions, VirtualMachine.tables,
          VirtualMachine.stackReferences]
  | step hReachable hAllowed hStep ih =>
      obtain ⟨next, hNext, hConsistent⟩ := ih.step hAllowed
      rw [hStep, Option.some.injEq] at hNext
      exact hNext ▸ hConsistent

/-- No step fails an assertion, and a reclamation comes to its end. -/
theorem Reachable.step_completes {operation : Operation} (h : Reachable vm)
    (hAllowed : vm.Allowed operation) :
    ∃ next, vm.step operation = some next := by
  obtain ⟨next, hNext, -⟩ := h.consistent.step hAllowed
  exact ⟨next, hNext⟩

theorem step_completes_sample : ∃ vm, sampleHistory = some vm ∧
    ∃ next, vm.step (.reclaim [0]) = some next := by
  obtain ⟨vm, hVm, hReachable, hStack, -⟩ := sampleHistory_reachable
  exact ⟨vm, hVm, hReachable.step_completes fun id hId => hStack ▸ hId⟩

/-- What a thread can come to holds objects that are there, each with the
count of the references to it, and what has no count will be looked at. -/
structure MemorySafe (vm : VirtualMachine) : Prop where
  borrowed : ∀ id ∈ vm.stackReferences, (vm.heap.objects id).Usable
  owned : ∀ id ∈ vm.owned, (vm.heap.objects id).Usable
  slots : ∀ holder id, (vm.heap.objects holder).Usable →
    some id ∈ (vm.heap.objects holder).slots → (vm.heap.objects id).Usable
  counted : ∀ id, (vm.heap.objects id).Usable →
    (vm.heap.objects id).refcount = vm.heap.references vm.owned id
  listed : ∀ id, (vm.heap.objects id).Usable →
    (vm.heap.objects id).refcount = 0 → vm.tables.count id = 1 ∨
      (vm.heap.objects id).slab ∈ vm.epochSlabs

theorem Reachable.memorySafe (h : Reachable vm) : MemorySafe vm where
  borrowed := h.consistent.sound.borrowed
  owned _ hOwned := h.consistent.sound.referenced (Or.inl hOwned)
  slots holder _ hHolder hMem :=
    h.consistent.sound.referenced (Or.inr ⟨holder, hHolder, hMem⟩)
  counted id := (h.consistent.sound.accounted id).counted
  listed id hUsable hZero := by
    have hAccounted := h.consistent.sound.accounted id
    grind

theorem memorySafe_sample : ∃ vm, sampleHistory = some vm ∧
    MemorySafe vm := by
  obtain ⟨vm, hVm, hReachable, -⟩ := sampleHistory_reachable
  exact ⟨vm, hVm, hReachable.memorySafe⟩

/-- What can be reached from the stacks and the handles. -/
inductive Live (vm : VirtualMachine) : ObjectId → Prop where
  | borrowed {id : ObjectId} : id ∈ vm.stackReferences → Live vm id
  | owned {id : ObjectId} : id ∈ vm.owned → Live vm id
  | slot {holder id : ObjectId} : Live vm holder →
      some id ∈ (vm.heap.objects holder).slots → Live vm id

/-- A reclamation leaves what can be reached as it is, and takes what has
neither a count nor a root. -/
theorem Reachable.reclamation_exact {roots : List ObjectId}
    (h : Reachable vm) (hRoots : ∀ id ∈ vm.stackReferences, id ∈ roots) :
    ∃ next, vm.runHeapReclamation roots = some next ∧
      (∀ id, Live vm id → (next.heap.objects id).Usable ∧
        (next.heap.objects id).slots = (vm.heap.objects id).slots) ∧
      ∀ id, (vm.heap.objects id).refcount = 0 → id ∉ roots →
        (next.heap.objects id).lifecycleState = .dead := by
  obtain ⟨next, hNext, -, hEnd⟩ := h.consistent.runHeapReclamation hRoots
  refine ⟨next, hNext, ?_, ?_⟩
  · intro id hLive
    have hUsable : (next.heap.objects id).Usable := by
      induction hLive with
      | borrowed hId =>
          exact hEnd.sound.borrowed _ (hEnd.stackReferences ▸ hId)
      | owned hId =>
          exact hEnd.sound.referenced (Or.inl (hEnd.owned ▸ hId))
      | slot hHolder hMem ih =>
          refine hEnd.sound.referenced (Or.inr ⟨_, ih, ?_⟩)
          rw [(hEnd.reclaims.kept _ ih).2.1]
          exact hMem
    exact ⟨hUsable, (hEnd.reclaims.kept id hUsable).2.1⟩
  · intro id hZero hRoot
    have hAccounted := hEnd.sound.accounted id
    have hKept := hEnd.reclaims.kept id
    have hListed : id ∉ next.tables := fun hMem =>
      (hEnd.tables id hMem).elim hRoot fun hCounted => hCounted.2 hZero
    have hInZct := (@Sound.inZct_iff _ _ id hEnd.sound).not.mpr hListed
    cases hState : (next.heap.objects id).lifecycleState <;> grind

/-- The object in the slot stays, and the one that no stack holds is taken. -/
theorem reclamation_exact_sample : ∃ vm, sampleHistory = some vm ∧
    (vm.heap.objects 2).lifecycleState = .normal ∧
    ∃ next, vm.runHeapReclamation [0] = some next ∧
      (next.heap.objects 1).Usable ∧
      (next.heap.objects 2).lifecycleState = .dead := by
  obtain ⟨vm, hVm, hReachable, hStack, hSlot, hCount, hNormal⟩ :=
    sampleHistory_reachable
  obtain ⟨next, hNext, hLive, hGarbage⟩ := hReachable.reclamation_exact
    (show ∀ id ∈ vm.stackReferences, id ∈ [0] from fun id hId => hStack ▸ hId)
  refine ⟨vm, hVm, hNormal, next, hNext, ?_, hGarbage 2 hCount (by decide)⟩
  exact (hLive 1 (.slot (.borrowed (hStack ▸ List.mem_singleton.mpr rfl))
    hSlot)).1

end CloverVM.Memory
