import CloverVM.Memory.ReclamationInvariant

/-!
# The run of the reclamation

The loop over a zero-count table ends, since what an object that is reclaimed
adds to the table is paid for by that object.  Then the slabs of the epoch are
scanned, for each thread in turn.
-/

namespace CloverVM.Memory

open CloverVM.Machine CloverVM.Collections ReclamationContext

variable {start heap heap' : Heap} {account : Account} {id : ObjectId}
  {roots : List ObjectId} {context next : ReclamationContext}
  {Entry : ObjectId → Prop}

/-- The objects that a reclamation can still take. -/
def usableObjects (heap : Heap) : Finset ObjectId :=
  (Finset.range heap.allocated).filter fun id => (heap.objects id).Usable

/-- An object that is taken pays for a whole table. -/
def ReclamationContext.potential (context : ReclamationContext) : Nat :=
  (usableObjects context.heap).card * (context.heap.allocated + 1) +
    context.currentZct.length

theorem Reclaims.usableObjects_subset (h : Reclaims heap heap') :
    usableObjects heap' ⊆ usableObjects heap := by
  intro id hId
  rw [usableObjects, Finset.mem_filter] at hId ⊢
  rw [h.allocated] at hId
  exact ⟨hId.1, (h.kept id hId.2).1⟩

theorem Ongoing.length_le
    (h : Ongoing roots start Entry account context) :
    context.currentZct.length ≤ context.heap.allocated := by
  have hNodup := h.sound.nodup.of_append_right.of_append_right
  rw [← List.toFinset_card_of_nodup hNodup,
    ← Finset.card_range context.heap.allocated]
  apply Finset.card_le_card
  intro id hId
  have hInZct := h.sound.inZct_iff.mpr (List.mem_append_right _
    (List.mem_append_right _ (List.mem_toFinset.mp hId)))
  exact Finset.mem_range.mpr (h.sound.lt_allocated (by simp [hInZct]))

theorem potential_lt_of_shorter
    (hReclaims : Reclaims context.heap next.heap)
    (hTable : next.currentZct.length < context.currentZct.length) :
    next.potential < context.potential := by
  have hCard := Finset.card_le_card hReclaims.usableObjects_subset
  unfold potential
  rw [hReclaims.allocated]
  exact Nat.add_lt_add_of_le_of_lt (Nat.mul_le_mul_right _ hCard) hTable

theorem potential_lt_of_taken (hReclaims : Reclaims context.heap next.heap)
    (hUsable : (context.heap.objects id).Usable)
    (hId : id < context.heap.allocated)
    (hTaken : ¬ (next.heap.objects id).Usable)
    (hTable : next.currentZct.length ≤ next.heap.allocated) :
    next.potential < context.potential := by
  have hCard : (usableObjects next.heap).card <
      (usableObjects context.heap).card := by
    apply Finset.card_lt_card
    rw [Finset.ssubset_iff_of_subset hReclaims.usableObjects_subset]
    refine ⟨id, ?_, fun hNext => hTaken (Finset.mem_filter.mp hNext).2⟩
    exact Finset.mem_filter.mpr ⟨Finset.mem_range.mpr hId, hUsable⟩
  have hPaid := Nat.mul_le_mul_right (context.heap.allocated + 1)
    (Nat.succ_le_of_lt hCard)
  unfold potential
  rw [hReclaims.allocated] at hTable ⊢
  rw [Nat.succ_mul] at hPaid
  omega

/-- Each entry is taken off, kept, or reclaimed. -/
theorem turn_spec (hRoots : ∀ id ∈ account.stack, id ∈ roots)
    (hIdle : account.busy = none)
    (h : Ongoing roots start (fun _ => True) account context)
    (hDone : context.done = false) :
    ∃ next, context.turn roots = some next ∧
      Ongoing roots start (fun _ => True) account next ∧
      next.potential < context.potential := by
  obtain ⟨heap, kept, zct⟩ := context
  obtain ⟨hSound, hKept, -, hReclaims⟩ := h
  cases zct with
  | nil => simp [done] at hDone
  | cons id rest =>
  have hInZct : (heap.objects id).lifecycleState = .inZct :=
    hSound.inZct_iff.mpr (by simp)
  have hUsable : (heap.objects id).Usable := Or.inr hInZct
  have hAccounted := hSound.accounted id
  unfold turn
  simp only [List.head?_cons, List.tail_cons, Option.bind_eq_bind,
    Option.bind_some, hInZct, check, if_true]
  by_cases hCount : 0 < (heap.objects id).refcount
  · have hRevived := Sound.revive { account with
      listed := account.listed ++ kept } (by simpa using hSound) hCount.ne'
    refine ⟨_, if_pos hCount, ⟨by
      simpa [setHeap] using hRevived, hKept, by simp,
      hReclaims.set rfl (by grind)⟩, ?_⟩
    apply potential_lt_of_shorter
    · exact (Reclaims.refl _).set rfl (by grind)
    · exact Nat.lt_succ_self _
  · rw [if_neg hCount]
    have hWhole : Sound heap { account with
        listed := account.listed ++ (kept ++ id :: rest)
        pending := insert id account.pending } :=
      hSound.of_pending fun _ _ _ hOther => Or.inr hOther
    have hKeep : id ∈ roots → Ongoing roots heap (fun _ => True) account
        ⟨heap, kept ++ [id], rest⟩ := fun hRoot =>
      ⟨by simpa using hSound, by simpa [or_imp, forall_and, hRoot] using hKept,
        by simp, Reclaims.refl _⟩
    obtain ⟨next, hNext, hOngoing, hTaken⟩ := @settle_spec heap account id
      roots (fun _ => True) ⟨heap, kept, rest⟩ _ _ (by simp) hRoots hIdle
      hWhole hUsable (by grind) (by grind) hKept (by simp) (Reclaims.refl _)
      hKeep
    refine ⟨next, hNext, ⟨hOngoing.sound, hOngoing.kept, by simp,
      hReclaims.trans hOngoing.reclaims⟩, ?_⟩
    cases hTaken with
    | inl hRoot =>
        obtain ⟨-, rfl⟩ := hRoot
        exact potential_lt_of_shorter (Reclaims.refl _) (Nat.lt_succ_self _)
    | inr hTaken =>
        exact potential_lt_of_taken hOngoing.reclaims hUsable
          (hSound.lt_allocated (by simp [hInZct])) hTaken hOngoing.length_le

theorem processZeroCountTableEntries_spec
    (hRoots : ∀ id ∈ account.stack, id ∈ roots) (hIdle : account.busy = none)
    (h : Ongoing roots start (fun _ => True) account context) :
    ∃ next, context.processZeroCountTableEntries roots = some next ∧
      Ongoing roots start Entry account next := by
  have hPotential : context.potential ≤ (context.heap.allocated + 1) ^ 2 := by
    have hCard : (usableObjects context.heap).card ≤ context.heap.allocated :=
      (Finset.card_filter_le ..).trans (Finset.card_range _).le
    have hMul := Nat.mul_le_mul_right (context.heap.allocated + 1) hCard
    have hTable := h.length_le
    rw [potential, pow_two, Nat.succ_mul]
    omega
  obtain ⟨last, hLast, hOngoing, hDone⟩ := repeatTurns_ends
    (fun _ => turn_spec hRoots hIdle) _ _ h hPotential
  have hEnd : last.currentZct = [] := by
    simpa [done] using hDone
  refine ⟨last, ?_, hOngoing.sound, hOngoing.kept, by simp [hEnd],
    hOngoing.reclaims⟩
  have hTable := h.sound.validate
    ((List.sublist_append_right ..).trans (List.sublist_append_right ..))
  rw [processZeroCountTableEntries, bind_of_eq_some hTable, hLast]
  exact check_bind hDone _

/-! ## The scan of the slabs -/

section Slabs

variable (hEntry : ∀ id, id ∈ roots ∨ Counted start id → Entry id)
  (hRoots : ∀ id ∈ account.stack, id ∈ roots) (hIdle : account.busy = none)
include hEntry hRoots hIdle

theorem scanObject_spec (h : Ongoing roots start Entry { account with
      pending := insert id account.pending } context) :
    ∃ next, context.scanObject roots id = some next ∧
      Ongoing roots start Entry account next := by
  have hAccounted := h.sound.accounted id
  unfold scanObject
  by_cases hNow : (context.heap.objects id).lifecycleState = .normal ∧
      (context.heap.objects id).refcount = 0
  · obtain ⟨next, hNext, hOngoing, -⟩ := settle_spec
      (fun id hCounted => hEntry id (Or.inr hCounted)) hRoots hIdle h.sound
      (Or.inl hNow.1) hNow.2 (by grind) h.kept h.entries h.reclaims
      fun hRoot => h.enlist hNow.1 (hEntry id (Or.inl hRoot))
    exact ⟨next, by simp [hNow, hNext], hOngoing⟩
  · have hPassed : 0 < (context.heap.objects id).refcount ∨
        (context.heap.objects id).lifecycleState ≠ .normal := by grind
    refine ⟨context, ?_, h.sound.of_pending ?_, h.kept, h.entries, h.reclaims⟩
    · cases hPassed with
      | inl hCount => simp [hCount]
      | inr hState => simp [hState]
    · intro other hNormal hZero hPending
      grind

/-- What lies in some slabs. -/
@[grind =] def inSlabs (heap : Heap) (slabs : List SlabId) : Set ObjectId :=
  { id | (heap.objects id).slab ∈ slabs }

theorem scanEpochSlab_spec {slab : SlabId} {slabs : List SlabId}
    (h : Ongoing roots start Entry { account with
      pending := inSlabs start (slab :: slabs) } context) :
    ∃ next, context.scanEpochSlab roots slab = some next ∧
      Ongoing roots start Entry { account with
        pending := inSlabs start slabs } next := by
  obtain ⟨next, hNext, hOngoing⟩ := @foldlM_ends _ _
    (scanObject roots)
    (fun rest => Ongoing roots start Entry { account with
      pending := { id | id ∈ rest ∨ id ∈ inSlabs start slabs } })
    (fun id rest state hState => scanObject_spec hEntry hRoots hIdle
      ⟨hState.sound.of_pending fun _ _ _ hOther => Or.elim hOther
        (fun hItem => (List.mem_cons.mp hItem).imp_right Or.inl)
        fun hSlabs => Or.inr (Or.inr hSlabs),
        hState.kept, hState.entries, hState.reclaims⟩)
    (context.heap.validObjects slab) context
    ⟨h.sound.of_pending fun other hNormal _ hOther => by
      cases List.mem_cons.mp hOther with
      | inl hSlab =>
          have hId : other < context.heap.allocated :=
            h.sound.lt_allocated (by simp [hNormal])
          left
          simp [Heap.validObjects, hId, h.reclaims.slab, hSlab, hNormal]
      | inr hSlabs => exact Or.inr hSlabs,
      h.kept, h.entries, h.reclaims⟩
  exact ⟨next, hNext, hOngoing.sound.of_pending fun _ _ _ hOther =>
    hOther.resolve_left List.not_mem_nil, hOngoing.kept, hOngoing.entries,
    hOngoing.reclaims⟩

end Slabs

/-! ## Threads -/

/-- What a reclamation makes of a thread. -/
def Processed (roots : List ObjectId) (start : Heap)
    (thread thread' : ThreadState) : Prop :=
  ∃ table, (∀ id ∈ table, id ∈ roots ∨ Counted start id) ∧
    thread' = { thread with
      zeroCountTable := table, epochSlabs := [thread.localAllocator] }

theorem processThreadReclamationEpoch_spec {thread : ThreadState}
    {slabs : List SlabId}
    (hRoots : ∀ id ∈ account.stack, id ∈ roots) (hIdle : account.busy = none)
    (hStart : Reclaims start heap)
    (h : Sound heap { account with
      listed := account.listed ++ thread.zeroCountTable
      pending := inSlabs start (thread.epochSlabs ++ slabs) }) :
    ∃ last, processThreadReclamationEpoch roots heap thread = some last ∧
      Processed roots start thread last.2 ∧ Reclaims start last.1 ∧
      Sound last.1 { account with
        listed := account.listed ++ last.2.zeroCountTable
        pending := inSlabs start slabs } := by
  obtain ⟨scanned, hScanned, hOngoing⟩ :=
    @processZeroCountTableEntries_spec start { account with
      pending := inSlabs start (thread.epochSlabs ++ slabs) } roots
      ⟨heap, [], thread.zeroCountTable⟩
      (fun id => id ∈ roots ∨ Counted start id) hRoots hIdle
      ⟨h, by simp, by simp, hStart⟩
  obtain ⟨last, hLast, hEnd⟩ := @foldlM_ends _ _
    (scanEpochSlab roots)
    (fun rest => Ongoing roots start (fun id => id ∈ roots ∨ Counted start id)
      { account with pending := inSlabs start (rest ++ slabs) })
    (fun _ _ _ => scanEpochSlab_spec (fun _ => id) hRoots hIdle)
    thread.epochSlabs scanned hOngoing
  refine ⟨(last.heap, ⟨last.kept ++ last.currentZct, thread.localAllocator,
    [thread.localAllocator], thread.stack⟩), ?_, ⟨_, ?_, rfl⟩,
    hEnd.reclaims, hEnd.sound⟩
  · simp [processThreadReclamationEpoch, hScanned, hLast]
  · intro id hId
    cases List.mem_append.mp hId with
    | inl hKept => exact Or.inl (hEnd.kept id hKept)
    | inr hEntry => exact hEnd.entries id hEntry

/-- The loop over the threads. -/
theorem processThreads_spec
    (hRoots : ∀ id ∈ account.stack, id ∈ roots) (hIdle : account.busy = none)
    (threads : List ThreadState) :
    ∀ (heap : Heap) (tables : List ObjectId), Reclaims start heap →
      Sound heap { account with
        listed := tables ++ threads.flatMap ThreadState.zeroCountTable
        pending := inSlabs start (threads.flatMap ThreadState.epochSlabs) } →
      ∃ last, processThreads roots heap threads = some last ∧
        List.Forall₂ (Processed roots start) threads last.2 ∧
        Reclaims start last.1 ∧ Sound last.1 { account with
          listed := tables ++ last.2.flatMap ThreadState.zeroCountTable
          pending := ∅ } := by
  induction threads with
  | nil =>
      intro heap tables hStart h
      exact ⟨(heap, []), rfl, .nil, hStart, h.of_pending (by simp [inSlabs])⟩
  | cons thread rest ih =>
      intro heap tables hStart h
      obtain ⟨first, hFirst, hProcessed, hReclaims, hSound⟩ :=
        @processThreadReclamationEpoch_spec start heap { account with
          listed := tables ++ rest.flatMap ThreadState.zeroCountTable } roots
          thread (rest.flatMap ThreadState.epochSlabs) hRoots hIdle hStart
          (h.congr (fun _ => rfl) h.borrowed (by grind) (fun _ h => h) rfl)
      obtain ⟨others, hOthers, hAll, hLastReclaims, hLast⟩ :=
        ih first.1 (tables ++ first.2.zeroCountTable) hReclaims
          (hSound.congr (fun _ => rfl) hSound.borrowed (by grind)
            (fun _ h => h) rfl)
      refine ⟨(others.1, first.2 :: others.2), ?_, .cons hProcessed hAll,
        hLastReclaims, by simpa using hLast⟩
      simp [processThreads, hFirst, hOthers]

end CloverVM.Memory
