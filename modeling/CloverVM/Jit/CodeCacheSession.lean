import CloverVM.Jit.CodeCacheProposal

/-!
# Code cache allocations never overlap

A session is a sequence of requests.  Each proposes a unit and then commits it
or drops it before the next request.  Whatever sizes and alignments are asked
for and whatever the system answers, what has been granted lies in its slab and
apart from everything else granted there.
-/

namespace CloverVM.Jit

open CloverVM.Machine

/-- How a proposal ends: it goes out of use, or it is committed with the size
the code came to have, and the platform accepts the commit or not. -/
inductive Ending where
  | drop
  | commit (encodedCodeSize : UInt64) (committed : Bool)
deriving DecidableEq, Repr

structure Request where
  pessimisticCodeSize : UInt64
  constantPoolSize : UInt64
  constantPoolAlignment : UInt64
  /-- Where the system maps a new slab, if the request needs one. -/
  mapped : Option UInt64
  ending : Ending
deriving DecidableEq, Repr

/-- An allocation, with the alignment its pool was requested with. -/
structure Grant where
  allocation : CodeAllocation
  poolAlignment : Nat
deriving DecidableEq, Repr

namespace CodeCache

def proposeFor (cache : CodeCache) (request : Request) :
    Option (CodeCache × Except JitCodeError CodeAllocationProposal) :=
  cache.propose (request.mapped.map UInt64.toNat)
    request.pessimisticCodeSize.toNat request.constantPoolSize.toNat
    request.constantPoolAlignment.toNat

def finish (cache : CodeCache) (proposal : CodeAllocationProposal)
    (poolAlignment : Nat) : Ending → Option (CodeCache × List Grant)
  | .drop => some (cache, [])
  | .commit encodedCodeSize committed => do
      match ← cache.commit proposal encodedCodeSize.toNat committed with
      | (cache', .error _) => return (cache', [])
      | (cache', .ok allocation) =>
          return (cache', [{ allocation, poolAlignment }])

def serve (cache : CodeCache) (request : Request) :
    Option (CodeCache × List Grant) := do
  match ← cache.proposeFor request with
  | (cache', .error _) => return (cache', [])
  | (cache', .ok proposal) =>
      cache'.finish proposal request.constantPoolAlignment.toNat request.ending

def run (cache : CodeCache) : List Request → Option (CodeCache × List Grant)
  | [] => some (cache, [])
  | request :: rest => do
      let (cache', granted) ← cache.serve request
      let (cache'', later) ← cache'.run rest
      return (cache'', granted ++ later)

end CodeCache

/-- A new cache and its requests. -/
def session (platformMemory : PlatformCodeMemory) (standardSlabSize : UInt64)
    (requests : List Request) : Option (CodeCache × List Grant) := do
  let cache ← CodeCache.make platformMemory standardSlabSize
  cache.run requests

/-! ## The invariant of a session -/

/-- Where an allocation lies in its slab. -/
structure Placed (pageSize granularity : Nat) (slab : CodeCacheSlab)
    (grant : Grant) (poolOffset : Nat) : Prop where
  code_eq : grant.allocation.code.executeAddress =
    slab.platformSlab.base + grant.allocation.codeOffset
  pool_eq : grant.allocation.constantPool.data =
    slab.platformSlab.base + poolOffset
  poolAddress_eq : grant.allocation.constantPoolAddress =
    grant.allocation.constantPool.data
  codeOffset_aligned : granularity ∣ grant.allocation.codeOffset
  code_le : grant.allocation.codeOffset + grant.allocation.code.capacity ≤
    slab.codeFrontier
  pool_ge : slab.poolFrontier ≤ poolOffset
  pool_le : poolOffset + grant.allocation.constantPool.size ≤
    slab.platformSlab.size
  alignment_dvd : grant.poolAlignment ∣ pageSize
  pool_aligned : grant.allocation.constantPool.size ≠ 0 →
    grant.poolAlignment ∣ poolOffset

/-- Of two allocations of one slab the earlier one has its code below and its
pool above. -/
def Apart (earlier later : Grant) : Prop :=
  earlier.allocation.slab = later.allocation.slab →
    earlier.allocation.code.executeAddress +
        earlier.allocation.code.capacity ≤
      later.allocation.code.executeAddress ∧
    later.allocation.constantPool.data + later.allocation.constantPool.size ≤
      earlier.allocation.constantPool.data

structure SessionInv (cache : CodeCache) (granted : List Grant) : Prop where
  wf : cache.WellFormed
  placed : ∀ grant ∈ granted, ∃ slab poolOffset,
    cache.slabs[grant.allocation.slab]? = some slab ∧
      Placed cache.pageSize cache.codeAllocationGranularity slab grant
        poolOffset
  apart : granted.Pairwise Apart

section Steps

variable {cache cache' : CodeCache} {granted : List Grant}

theorem sessionInv_make {platformMemory : PlatformCodeMemory}
    {standardSlabSize : UInt64}
    (h : CodeCache.make platformMemory standardSlabSize = some cache) :
    SessionInv cache [] := by
  unfold CodeCache.make at h
  dsimp only at h
  obtain ⟨hPage, h⟩ := check_bind_eq_some.mp h
  obtain ⟨hGranularity, h⟩ := check_bind_eq_some.mp h
  obtain ⟨hSixteen, h⟩ := check_bind_eq_some.mp h
  obtain ⟨hDvd, h⟩ := check_bind_eq_some.mp h
  obtain ⟨hPos, h⟩ := check_bind_eq_some.mp h
  obtain ⟨hAligned, h⟩ := check_bind_eq_some.mp h
  obtain rfl := Option.some.inj h
  refine ⟨?_, List.forall_mem_nil _, List.Pairwise.nil⟩
  exact
    { geometry :=
        { page_bit := hPage
          page_lt := platformMemory.pageSize.toNat_lt
          granularity_bit := hGranularity
          granularity_dvd := Nat.dvd_of_mod_eq_zero hDvd
          granularity_ge := hSixteen }
      standard_pos := hPos
      standard_aligned := Nat.dvd_of_mod_eq_zero hAligned
      slabs := List.forall_mem_nil _ }

/-- Slabs that are added leave what was granted in place. -/
theorem SessionInv.extend (hInv : SessionInv cache granted)
    (hExt : Extends cache cache') (hWf : cache'.WellFormed) :
    SessionInv cache' granted := by
  refine ⟨hWf, fun grant hMem => ?_, hInv.apart⟩
  obtain ⟨slab, poolOffset, hSlab, hPlaced⟩ := hInv.placed grant hMem
  obtain ⟨added, hSlabs⟩ := hExt.slabs_eq
  rw [hExt.pageSize_eq, hExt.granularity_eq]
  refine ⟨slab, poolOffset, ?_, hPlaced⟩
  rw [hSlabs]
  exact List.getElem?_append_left (List.getElem?_eq_some_iff.mp hSlab).1
    |>.trans hSlab

/-- A commit takes space between the frontiers only. -/
theorem Placed.after {pageSize granularity : Nat} {slab : CodeCacheSlab}
    {grant : Grant} {poolOffset : Nat}
    (h : Placed pageSize granularity slab grant poolOffset)
    (codeSize : Nat) {newPoolOffset : Nat}
    (hPool : newPoolOffset ≤ slab.poolFrontier) :
    Placed pageSize granularity (slab.after codeSize newPoolOffset) grant
      poolOffset :=
  { h with
    code_le := Nat.le_trans h.code_le (Nat.le_add_right _ _)
    pool_ge := Nat.le_trans hPool h.pool_ge }

/-- What a commit grants lies between the old frontiers. -/
theorem placed_allocation {pageSize granularity index codeSize encodedCodeSize
    poolOffset poolSize poolAlignment : Nat} {slab : CodeCacheSlab}
    (hWf : slab.WellFormed pageSize granularity)
    (hDvd : poolAlignment ∣ pageSize)
    (hPool : poolOffset + poolSize ≤ slab.poolFrontier)
    (hAligned : poolSize ≠ 0 → poolAlignment ∣ poolOffset) :
    Placed pageSize granularity (slab.after codeSize poolOffset)
      ⟨slab.allocation index codeSize encodedCodeSize poolOffset poolSize,
        poolAlignment⟩ poolOffset :=
  { code_eq := rfl
    pool_eq := rfl
    poolAddress_eq := rfl
    codeOffset_aligned := hWf.codeFrontier_aligned
    code_le := Nat.le_refl _
    pool_ge := Nat.le_refl _
    pool_le := Nat.le_trans hPool hWf.poolFrontier_le
    alignment_dvd := hDvd
    pool_aligned := hAligned }

variable {codeSize poolSize poolAlignment : Nat}
  {proposal : CodeAllocationProposal} {slab : CodeCacheSlab}

/-- Everything granted stays placed when a commit moves the frontiers of one
slab. -/
theorem SessionInv.withSlab (hInv : SessionInv cache granted) {index : Nat}
    (hSlab : cache.slabs[index]? = some slab) {newPoolOffset : Nat}
    (hPool : newPoolOffset ≤ slab.poolFrontier) (moved : Nat)
    (hWf : (cache.withSlab index (slab.after moved newPoolOffset)).WellFormed) :
    SessionInv (cache.withSlab index (slab.after moved newPoolOffset))
      granted := by
  refine ⟨hWf, fun grant hMem => ?_, hInv.apart⟩
  obtain ⟨old, poolOffset, hOld, hPlaced⟩ := hInv.placed grant hMem
  unfold CodeCache.withSlab
  by_cases hSame : index = grant.allocation.slab
  · subst hSame
    have hLt := (List.getElem?_eq_some_iff.mp hSlab).1
    obtain rfl := Option.some.inj (hSlab.symm.trans hOld)
    refine ⟨slab.after moved newPoolOffset, poolOffset, ?_,
      hPlaced.after moved hPool⟩
    exact List.getElem?_set_self hLt
  · refine ⟨old, poolOffset, ?_, hPlaced⟩
    rw [← hOld]
    exact List.getElem?_set_ne hSame

/-- A commit keeps the invariant, with what it grants. -/
theorem finish_spec (hInv : SessionInv cache granted)
    (hA : Admissible cache.pageSize cache.codeAllocationGranularity codeSize
      poolSize poolAlignment)
    (hP : Proposed cache codeSize poolSize poolAlignment proposal slab)
    {encodedCodeSize : UInt64} (h0 : encodedCodeSize.toNat ≠ 0)
    (hle : encodedCodeSize.toNat ≤ codeSize) (committed : Bool) :
    ∃ cache' new, cache.finish proposal poolAlignment
        (.commit encodedCodeSize committed) = some (cache', new) ∧
      SessionInv cache' (granted ++ new) ∧
      cache'.platformMemory = cache.platformMemory := by
  have hG := hInv.wf.geometry
  have hSlabWf := hP.wellFormed hInv.wf
  have hSum := hP.poolOffset_add_le
  have hCommit := commit_spec hInv.wf hA hP h0 hle committed
  have hMoved := hInv.withSlab hP.slab_eq
    (Nat.le_trans (Nat.le_add_right _ _) hSum) _
    (hP.wellFormed_after hInv.wf hA hle)
  unfold CodeCache.finish
  dsimp only
  rw [bind_of_eq_some hCommit]
  cases committed with
  | false =>
      refine ⟨_, [], rfl, ?_, rfl⟩
      rw [List.append_nil]
      exact hMoved
  | true =>
      refine ⟨_, _, rfl, ⟨hMoved.wf, ?_, ?_⟩, rfl⟩
      · intro grant hMem
        rcases List.mem_append.mp hMem with hOld | hNew
        · exact hMoved.placed grant hOld
        · obtain rfl := List.mem_singleton.mp hNew
          refine ⟨_, proposal.poolOffset, List.getElem?_set_self
            (List.getElem?_eq_some_iff.mp hP.slab_eq).1, ?_⟩
          refine placed_allocation hSlabWf
            (dvd_of_hasSingleBit hA.alignment_bit hG.page_bit hA.alignment_le)
            hSum fun hPos => ?_
          rw [hP.poolOffset_eq]
          exact dvd_poolPlace hA.alignment_bit
            (Nat.lt_of_le_of_lt hA.alignment_le hG.page_lt)
            (Nat.lt_of_le_of_lt hSlabWf.poolFrontier_le hSlabWf.size_lt) hPos
      · refine List.pairwise_append.mpr
          ⟨hInv.apart, List.pairwise_singleton _ _, ?_⟩
        intro earlier hMem later hLater hSlab
        obtain rfl := List.mem_singleton.mp hLater
        obtain ⟨old, poolOffset, hOld, hPlaced⟩ := hInv.placed earlier hMem
        have hIndex : earlier.allocation.slab = proposal.slab := hSlab
        rw [hIndex] at hOld
        obtain rfl := Option.some.inj (hOld.symm.trans hP.slab_eq)
        have hCode := hPlaced.code_le
        have hAbove := hPlaced.pool_ge
        refine ⟨?_, ?_⟩
        · rw [hPlaced.code_eq]
          show _ ≤ old.platformSlab.base + old.codeFrontier
          omega
        · rw [hPlaced.pool_eq]
          show old.platformSlab.base + proposal.poolOffset + poolSize ≤ _
          omega

end Steps

/-! ## Requests -/

/-- A commit of some code, and of no more than was proposed. -/
def Ending.Within (codeSize : Nat) : Ending → Prop
  | .drop => True
  | .commit encodedCodeSize _ =>
      encodedCodeSize.toNat ≠ 0 ∧ encodedCodeSize.toNat ≤ codeSize

/-- What is owed: sizes that can be rounded and an alignment that is one,
slabs mapped at page boundaries, and a commit within the proposal. -/
structure Request.Admissible (pageSize granularity : Nat)
    (request : Request) : Prop where
  sizes : Jit.Admissible pageSize granularity
    request.pessimisticCodeSize.toNat request.constantPoolSize.toNat
    request.constantPoolAlignment.toNat
  mapped : ∀ base, request.mapped = some base → pageSize ∣ base.toNat
  ending : request.ending.Within request.pessimisticCodeSize.toNat

section Requests

variable {cache cache' : CodeCache} {granted new : List Grant}
  {request : Request}

/-- The end of a proposal keeps the invariant; a commit outside the proposal
fails an assertion. -/
theorem ending_spec {codeSize poolSize poolAlignment : Nat}
    {proposal : CodeAllocationProposal} {slab : CodeCacheSlab}
    (hInv : SessionInv cache granted)
    (hA : Admissible cache.pageSize cache.codeAllocationGranularity codeSize
      poolSize poolAlignment)
    (hP : Proposed cache codeSize poolSize poolAlignment proposal slab)
    (ending : Ending) :
    (cache.finish proposal poolAlignment ending = none ∧
      ¬ ending.Within codeSize) ∨
    ∃ cache' new, cache.finish proposal poolAlignment ending =
        some (cache', new) ∧ SessionInv cache' (granted ++ new) ∧
      cache'.platformMemory = cache.platformMemory := by
  cases ending with
  | drop =>
      right
      refine ⟨cache, [], rfl, ?_, rfl⟩
      rw [List.append_nil]
      exact hInv
  | commit encodedCodeSize committed =>
      by_cases hWithin : (Ending.commit encodedCodeSize committed).Within
          codeSize
      · exact .inr (finish_spec hInv hA hP hWithin.1 hWithin.2 committed)
      · refine .inl ⟨?_, hWithin⟩
        have hCommit : cache.commit proposal encodedCodeSize.toNat committed =
            none := by
          unfold CodeCache.commit
          by_cases h0 : encodedCodeSize.toNat ≠ 0
          · have hOver : ¬ encodedCodeSize.toNat ≤
                proposal.pessimisticCodeSize :=
              fun hle => hWithin ⟨h0, hP.codeSize_eq ▸ hle⟩
            rw [check_bind h0, check_bind_of_not hOver]
          · exact check_bind_of_not h0 _
        exact bind_of_eq_none hCommit _

/-- What a request comes to in a session: it fails an assertion, and then it
was not admissible, or it keeps the invariant. -/
theorem serve_spec (hInv : SessionInv cache granted)
    (hA : Admissible cache.pageSize cache.codeAllocationGranularity
      request.pessimisticCodeSize.toNat request.constantPoolSize.toNat
      request.constantPoolAlignment.toNat) :
    (cache.serve request = none ∧ ¬ request.Admissible cache.pageSize
      cache.codeAllocationGranularity) ∨
    ∃ cache' new, cache.serve request = some (cache', new) ∧
      SessionInv cache' (granted ++ new) ∧
      cache'.platformMemory = cache.platformMemory := by
  unfold CodeCache.serve CodeCache.proposeFor
  rcases propose_spec hInv.wf hA (request.mapped.map UInt64.toNat) with
    ⟨hStop, base, hBase, hOff⟩ |
    ⟨middle, result, hPropose, hExt, hWf, -, hProposal⟩
  · refine .inl ⟨bind_of_eq_none hStop _, fun hAdmissible => ?_⟩
    obtain ⟨word, hWord, rfl⟩ := Option.map_eq_some_iff.mp hBase
    exact hOff (hAdmissible.mapped word hWord)
  · have hMiddle := hInv.extend hExt hWf
    rw [bind_of_eq_some hPropose]
    cases result with
    | error e =>
        refine .inr ⟨middle, [], rfl, ?_, hExt.memory_eq⟩
        rw [List.append_nil]
        exact hMiddle
    | ok proposal =>
        obtain ⟨slab, hP, -⟩ := hProposal proposal rfl
        have hA' := hA
        rw [← hExt.pageSize_eq, ← hExt.granularity_eq] at hA'
        rcases ending_spec hMiddle hA' hP request.ending with
          ⟨hStop, hOver⟩ | ⟨last, new, hFinish, hLast, hMemory⟩
        · exact .inl ⟨hStop, fun hAdmissible => hOver hAdmissible.ending⟩
        · exact .inr ⟨last, new, hFinish, hLast,
            hMemory.trans hExt.memory_eq⟩

/-- A request that passes the assertions keeps the invariant. -/
theorem SessionInv.serve (hInv : SessionInv cache granted)
    (h : cache.serve request = some (cache', new)) :
    SessionInv cache' (granted ++ new) ∧
      cache'.platformMemory = cache.platformMemory := by
  obtain ⟨result, hPropose, -⟩ := exists_of_bind h
  rcases serve_spec hInv (admissible_of_propose hPropose) with
    ⟨hStop, -⟩ | ⟨last, granted', hServe, hLast, hMemory⟩
  · exact absurd (hStop.symm.trans h) nofun
  · obtain ⟨rfl, rfl⟩ := Prod.mk.inj (Option.some.inj (hServe.symm.trans h))
    exact ⟨hLast, hMemory⟩

/-- The invariant over a run of requests. -/
theorem SessionInv.run :
    ∀ (requests : List Request) (cache : CodeCache) (granted : List Grant)
      {cache' : CodeCache} {new : List Grant},
      SessionInv cache granted →
      cache.run requests = some (cache', new) →
      SessionInv cache' (granted ++ new) := by
  intro requests
  induction requests with
  | nil =>
      intro cache granted cache' new hInv h
      obtain ⟨rfl, rfl⟩ := Prod.mk.inj (Option.some.inj h)
      rw [List.append_nil]
      exact hInv
  | cons request rest ih =>
      intro cache granted cache' new hInv h
      obtain ⟨⟨middle, first⟩, hServe, h⟩ := exists_of_bind h
      obtain ⟨⟨last, later⟩, hRun, h⟩ := exists_of_bind h
      obtain ⟨rfl, rfl⟩ := Prod.mk.inj (Option.some.inj h)
      rw [← List.append_assoc]
      exact ih middle (granted ++ first) (hInv.serve hServe).1 hRun

/-- A run of admissible requests fails no assertion. -/
theorem run_isSome :
    ∀ (requests : List Request) (cache : CodeCache) (granted : List Grant),
      SessionInv cache granted →
      (∀ request ∈ requests, request.Admissible cache.pageSize
        cache.codeAllocationGranularity) →
      (cache.run requests).isSome := by
  intro requests
  induction requests with
  | nil =>
      intro cache granted _ _
      rfl
  | cons request rest ih =>
      intro cache granted hInv hAll
      have hHead := hAll request (List.mem_cons_self ..)
      rcases serve_spec hInv hHead.sizes with
        ⟨-, hNot⟩ | ⟨middle, first, hServe, hMiddle, hMemory⟩
      · exact absurd hHead hNot
      · have hRest := ih middle (granted ++ first) hMiddle fun other hMem => by
          have hOther := hAll other (List.mem_cons_of_mem _ hMem)
          unfold CodeCache.pageSize CodeCache.codeAllocationGranularity
          rw [hMemory]
          exact hOther
        obtain ⟨⟨last, later⟩, hRun⟩ := Option.isSome_iff_exists.mp hRest
        unfold CodeCache.run
        rw [bind_of_eq_some hServe]
        dsimp only
        rw [bind_of_eq_some hRun]
        rfl

end Requests

/-! ## Ranges of a slab -/

/-- The addresses of a span. -/
def ByteSpan.bytes (span : ByteSpan) : Set Nat :=
  Set.Ico span.data (span.data + span.size)

def CodeAllocation.codeSpan (allocation : CodeAllocation) : ByteSpan :=
  ⟨allocation.code.executeAddress, allocation.code.capacity⟩

/-- The two ranges of an allocation, with the slab they are in. -/
def Grant.ranges (grant : Grant) : List (Nat × ByteSpan) :=
  [(grant.allocation.slab, grant.allocation.codeSpan),
    (grant.allocation.slab, grant.allocation.constantPool)]

theorem Grant.mem_ranges {grant : Grant} {range : Nat × ByteSpan} :
    range ∈ grant.ranges ↔
      range = (grant.allocation.slab, grant.allocation.codeSpan) ∨
        range = (grant.allocation.slab, grant.allocation.constantPool) := by
  simp [Grant.ranges]

/-- What holds of everything a session has granted. -/
structure NeverOverlap (cache : CodeCache) (granted : List Grant) : Prop where
  /-- Every range lies in its slab. -/
  inside : ∀ range ∈ granted.flatMap Grant.ranges, ∃ slab,
    cache.slabs[range.1]? = some slab ∧
      slab.platformSlab.base ≤ range.2.data ∧
      range.2.data + range.2.size ≤
        slab.platformSlab.base + slab.platformSlab.size
  /-- No two ranges of a slab share a byte. -/
  disjoint : (granted.flatMap Grant.ranges).Pairwise fun range other =>
    range.1 = other.1 → Disjoint range.2.bytes other.2.bytes
  code_aligned : ∀ grant ∈ granted,
    cache.codeAllocationGranularity ∣ grant.allocation.code.executeAddress
  /-- A pool starts where it was asked to, unless it is empty. -/
  pool_aligned : ∀ grant ∈ granted, grant.allocation.constantPool.size ≠ 0 →
    grant.poolAlignment ∣ grant.allocation.constantPoolAddress
  /-- No page holds code and pool bytes. -/
  pages : ∀ grant ∈ granted, ∀ other ∈ granted,
    grant.allocation.slab = other.allocation.slab →
      ∀ x ∈ grant.allocation.codeSpan.bytes,
        ∀ y ∈ other.allocation.constantPool.bytes,
          x / cache.pageSize ≠ y / cache.pageSize

/-- The slab a proposal is made on, be it new or not, has room for it. -/
def CodeCache.ProposalsFit (cache : CodeCache) : Prop :=
  ∀ (request : Request) (cache' : CodeCache)
    (proposal : CodeAllocationProposal),
    cache.proposeFor request = some (cache', .ok proposal) →
      ∃ slab reservedCodeSize, cache'.slabs[proposal.slab]? = some slab ∧
        alignUp request.pessimisticCodeSize.toNat
          cache.codeAllocationGranularity = some reservedCodeSize ∧
        slab.reservationFits reservedCodeSize request.constantPoolSize.toNat
          request.constantPoolAlignment.toNat = some true

section Ranges

variable {cache : CodeCache} {granted : List Grant}

/-- Between the code of a slab and its pools there is a page boundary. -/
theorem SessionInv.boundary (hInv : SessionInv cache granted)
    {grant other : Grant} (hGrant : grant ∈ granted) (hOther : other ∈ granted)
    (hSlab : grant.allocation.slab = other.allocation.slab) :
    ∃ boundary, cache.pageSize ∣ boundary ∧
      grant.allocation.code.executeAddress + grant.allocation.code.capacity ≤
        boundary ∧
      boundary ≤ other.allocation.constantPool.data := by
  obtain ⟨slab, poolOffset, hIndex, hPlaced⟩ := hInv.placed grant hGrant
  obtain ⟨slab', poolOffset', hIndex', hPlaced'⟩ := hInv.placed other hOther
  rw [hSlab] at hIndex
  obtain rfl := Option.some.inj (hIndex.symm.trans hIndex')
  have hWf := hInv.wf.slabs slab (List.mem_of_getElem? hIndex)
  have hG := hInv.wf.geometry
  have hFrontier := hWf.codeFrontier_le
  have hDown := roundDown_le slab.poolFrontier cache.pageSize
  refine ⟨slab.platformSlab.base + roundDown slab.poolFrontier cache.pageSize,
    ?_, ?_, ?_⟩
  · exact Nat.dvd_add hWf.base_aligned
      (dvd_roundDown hG.page_bit hG.page_lt
        (Nat.lt_of_le_of_lt hWf.poolFrontier_le hWf.size_lt))
  · have hCode := hPlaced.code_le
    rw [hPlaced.code_eq]
    omega
  · have hPool := hPlaced'.pool_ge
    rw [hPlaced'.pool_eq]
    omega

theorem SessionInv.code_disjoint_pool (hInv : SessionInv cache granted)
    {grant other : Grant} (hGrant : grant ∈ granted) (hOther : other ∈ granted)
    (hSlab : grant.allocation.slab = other.allocation.slab) :
    Disjoint grant.allocation.codeSpan.bytes
      other.allocation.constantPool.bytes := by
  obtain ⟨boundary, -, hCode, hPool⟩ := hInv.boundary hGrant hOther hSlab
  rw [Set.disjoint_left]
  intro x hx hy
  have hBelow : x < grant.allocation.code.executeAddress +
      grant.allocation.code.capacity := hx.2
  have hAbove : other.allocation.constantPool.data ≤ x := hy.1
  omega

/-- The ranges of two allocations, one granted before the other. -/
theorem SessionInv.ranges_disjoint (hInv : SessionInv cache granted)
    {earlier later : Grant} (hEarlier : earlier ∈ granted)
    (hLater : later ∈ granted) (hApart : Apart earlier later)
    {range other : Nat × ByteSpan} (hRange : range ∈ earlier.ranges)
    (hOther : other ∈ later.ranges) (hSame : range.1 = other.1) :
    Disjoint range.2.bytes other.2.bytes := by
  have hSlab : earlier.allocation.slab = later.allocation.slab := by
    rcases Grant.mem_ranges.mp hRange with rfl | rfl <;>
      rcases Grant.mem_ranges.mp hOther with rfl | rfl <;> exact hSame
  obtain ⟨hCode, hPool⟩ := hApart hSlab
  rcases Grant.mem_ranges.mp hRange with rfl | rfl <;>
    rcases Grant.mem_ranges.mp hOther with rfl | rfl
  · rw [Set.disjoint_left]
    intro x hx hy
    exact absurd (Nat.lt_of_lt_of_le hx.2 hCode) (Nat.not_lt.mpr hy.1)
  · exact hInv.code_disjoint_pool hEarlier hLater hSlab
  · exact (hInv.code_disjoint_pool hLater hEarlier hSlab.symm).symm
  · rw [Set.disjoint_left]
    intro x hx hy
    exact absurd (Nat.lt_of_lt_of_le hy.2 hPool) (Nat.not_lt.mpr hx.1)

theorem SessionInv.neverOverlap (hInv : SessionInv cache granted) :
    NeverOverlap cache granted := by
  have hG := hInv.wf.geometry
  refine
    { inside := ?_
      disjoint := ?_
      code_aligned := ?_
      pool_aligned := ?_
      pages := ?_ }
  · intro range hRange
    obtain ⟨grant, hMem, hRange⟩ := List.mem_flatMap.mp hRange
    obtain ⟨slab, poolOffset, hIndex, hPlaced⟩ := hInv.placed grant hMem
    have hWf := hInv.wf.slabs slab (List.mem_of_getElem? hIndex)
    have hFrontier := hWf.codeFrontier_le
    have hDown := roundDown_le slab.poolFrontier cache.pageSize
    have hSize := hWf.poolFrontier_le
    have hCode := hPlaced.code_le
    have hPool := hPlaced.pool_le
    rcases Grant.mem_ranges.mp hRange with rfl | rfl
    · refine ⟨slab, hIndex, ?_, ?_⟩
      · show _ ≤ grant.allocation.code.executeAddress
        rw [hPlaced.code_eq]
        omega
      · show grant.allocation.code.executeAddress +
          grant.allocation.code.capacity ≤ _
        rw [hPlaced.code_eq]
        omega
    · refine ⟨slab, hIndex, ?_, ?_⟩
      · show _ ≤ grant.allocation.constantPool.data
        rw [hPlaced.pool_eq]
        omega
      · show grant.allocation.constantPool.data +
          grant.allocation.constantPool.size ≤ _
        rw [hPlaced.pool_eq]
        omega
  · refine List.pairwise_flatMap.mpr ⟨fun grant hMem => ?_, ?_⟩
    · refine List.pairwise_pair.mpr fun _ => ?_
      exact hInv.code_disjoint_pool hMem hMem rfl
    · refine hInv.apart.imp_of_mem fun hEarlier hLater hApart => ?_
      intro range hRange other hOther hSame
      exact hInv.ranges_disjoint hEarlier hLater hApart hRange hOther hSame
  · intro grant hMem
    obtain ⟨slab, poolOffset, hIndex, hPlaced⟩ := hInv.placed grant hMem
    have hWf := hInv.wf.slabs slab (List.mem_of_getElem? hIndex)
    rw [hPlaced.code_eq]
    exact Nat.dvd_add (Nat.dvd_trans hG.granularity_dvd hWf.base_aligned)
      hPlaced.codeOffset_aligned
  · intro grant hMem hPos
    obtain ⟨slab, poolOffset, hIndex, hPlaced⟩ := hInv.placed grant hMem
    have hWf := hInv.wf.slabs slab (List.mem_of_getElem? hIndex)
    rw [hPlaced.poolAddress_eq, hPlaced.pool_eq]
    exact Nat.dvd_add (Nat.dvd_trans hPlaced.alignment_dvd hWf.base_aligned)
      (hPlaced.pool_aligned hPos)
  · intro grant hGrant other hOther hSlab x hx y hy
    obtain ⟨boundary, hDvd, hCode, hPool⟩ :=
      hInv.boundary hGrant hOther hSlab
    obtain ⟨n, rfl⟩ := hDvd
    have hBelow : x / cache.pageSize < n :=
      (Nat.div_lt_iff_lt_mul hG.page_pos).mpr (by
        rw [Nat.mul_comm]
        exact Nat.lt_of_lt_of_le hx.2 hCode)
    have hAbove : n ≤ y / cache.pageSize :=
      (Nat.le_div_iff_mul_le hG.page_pos).mpr (by
        rw [Nat.mul_comm]
        exact Nat.le_trans hPool hy.1)
    omega

theorem SessionInv.proposalsFit (hInv : SessionInv cache granted) :
    cache.ProposalsFit := by
  intro request cache' proposal hPropose
  have hA := admissible_of_propose hPropose
  rcases propose_spec hInv.wf hA (request.mapped.map UInt64.toNat) with
    ⟨hStop, -⟩ | ⟨last, result, hResult, hExt, hWf, -, hProposal⟩
  · exact absurd (hStop.symm.trans hPropose) nofun
  · obtain ⟨rfl, rfl⟩ :=
      Prod.mk.inj (Option.some.inj (hResult.symm.trans hPropose))
    obtain ⟨slab, hP, -⟩ := hProposal proposal rfl
    obtain ⟨b, hFits, hIff⟩ := reservationFits_eq
      (roundUp request.pessimisticCodeSize.toNat
        last.codeAllocationGranularity) request.constantPoolSize.toNat
      hWf.geometry (hP.wellFormed hWf) hA.alignment_bit
    refine ⟨slab, roundUp request.pessimisticCodeSize.toNat
      last.codeAllocationGranularity, hP.slab_eq, ?_, ?_⟩
    · rw [hExt.granularity_eq]
      exact alignUp_eq hInv.wf.geometry.granularity_bit hA.code_rounds
    · rw [hFits, hIff.mpr hP.fits]

end Ranges

/-- In every session the allocations keep apart and every proposal is made on
a slab with room for it, and admissible requests fail no assertion. -/
theorem session_neverOverlap (platformMemory : PlatformCodeMemory)
    (standardSlabSize : UInt64) (requests : List Request) :
    (∀ cache granted,
      session platformMemory standardSlabSize requests =
          some (cache, granted) →
        NeverOverlap cache granted ∧ cache.ProposalsFit) ∧
    (∀ cache, CodeCache.make platformMemory standardSlabSize = some cache →
      (∀ request ∈ requests, request.Admissible cache.pageSize
        cache.codeAllocationGranularity) →
      (session platformMemory standardSlabSize requests).isSome) := by
  constructor
  · intro cache granted h
    obtain ⟨start, hMake, hRun⟩ := exists_of_bind h
    have hInv := (sessionInv_make hMake).run requests start [] hRun
    exact ⟨hInv.neverOverlap, hInv.proposalsFit⟩
  · intro cache hMake hAll
    have hRun := run_isSome requests cache [] (sessionInv_make hMake) hAll
    unfold session
    rw [bind_of_eq_some hMake]
    exact hRun

/-! ## A session -/

def sampleMemory : PlatformCodeMemory :=
  { pageSize := 4096, codeAllocationGranularity := 16 }

/-- Sixteen bytes of code, committed as they are. -/
def sampleRequest (poolSize poolAlignment : UInt64) : Request :=
  { pessimisticCodeSize := 16
    constantPoolSize := poolSize
    constantPoolAlignment := poolAlignment
    mapped := some 65536
    ending := .commit 16 true }

theorem sampleRequest_admissible {poolSize poolAlignment : UInt64}
    (hSize : poolSize.toNat ≤ 8) (hBit : hasSingleBit poolAlignment.toNat)
    (hLe : poolAlignment.toNat ≤ 4096) :
    (sampleRequest poolSize poolAlignment).Admissible 4096 16 := by
  have hPool : poolSize.toNat ≤ sizeMax - (4096 - 1) := by
    unfold sizeMax
    omega
  have hRound : roundUp poolSize.toNat 4096 ≤ 4096 :=
    roundUp_le_of_dvd (by decide) (by decide) hPool (Nat.dvd_refl _) (by omega)
  have hCode : roundUp (roundUp (16 : UInt64).toNat 16) 4096 = 4096 := by
    decide
  refine
    { sizes :=
        { code_pos := (by decide : (16 : UInt64).toNat ≠ 0)
          alignment_bit := hBit
          alignment_le := hLe
          code_rounds := (by decide : (16 : UInt64).toNat ≤ sizeMax - (16 - 1))
          code_pages := (by decide : roundUp (16 : UInt64).toNat 16 ≤
            sizeMax - (4096 - 1))
          pool_rounds := fun _ => hPool
          sum_rounds := fun _ => ?_ }
      mapped := fun base hBase => ?_
      ending := (by decide : (16 : UInt64).toNat ≠ 0 ∧
        (16 : UInt64).toNat ≤ (16 : UInt64).toNat) }
  · show roundUp (roundUp (16 : UInt64).toNat 16) 4096 ≤
      sizeMax - roundUp poolSize.toNat 4096
    rw [hCode]
    unfold sizeMax
    omega
  · obtain rfl := Option.some.inj hBase
    decide

/-- Two units of one slab, the second with an aligned pool. -/
theorem session_neverOverlap_sample : ∃ cache granted,
    session sampleMemory 65536 [sampleRequest 1 1, sampleRequest 8 8] =
        some (cache, granted) ∧
      NeverOverlap cache granted ∧ cache.ProposalsFit := by
  have hSome := (session_neverOverlap sampleMemory 65536
    [sampleRequest 1 1, sampleRequest 8 8]).2 ⟨sampleMemory, 65536, []⟩
    (by decide) (by
      intro request hMem
      rcases List.mem_cons.mp hMem with rfl | hMem
      · exact sampleRequest_admissible (by decide) (by decide) (by decide)
      · obtain rfl := List.mem_singleton.mp hMem
        exact sampleRequest_admissible (by decide) (by decide) (by decide))
  obtain ⟨⟨cache, granted⟩, hSession⟩ := Option.isSome_iff_exists.mp hSome
  exact ⟨cache, granted, hSession,
    (session_neverOverlap sampleMemory 65536 _).1 cache granted hSession⟩

/-- An empty pool is not aligned as requested: it is put at the end of the
free space, wherever that is. -/
theorem not_forall_pool_aligned :
    ¬ ∀ (platformMemory : PlatformCodeMemory) (standardSlabSize : UInt64)
      (requests : List Request) (cache : CodeCache) (granted : List Grant),
      session platformMemory standardSlabSize requests =
          some (cache, granted) →
        ∀ grant ∈ granted,
          grant.poolAlignment ∣ grant.allocation.constantPoolAddress := by
  intro h
  have hRun : ∃ cache first second,
      session sampleMemory 65536 [sampleRequest 1 1, sampleRequest 0 8] =
          some (cache, [first, second]) ∧
        second.poolAlignment = 8 ∧
        second.allocation.constantPoolAddress = 131071 :=
    ⟨_, _, _, rfl, rfl, rfl⟩
  obtain ⟨cache, first, second, hSession, hAlignment, hAddress⟩ := hRun
  have hDvd := h _ _ _ _ _ hSession second (by simp)
  rw [hAlignment, hAddress] at hDvd
  exact absurd hDvd (by decide)

end CloverVM.Jit
