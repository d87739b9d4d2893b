import CloverVM.Jit.CodeCacheSlab

/-!
# Proposals and commits

What the two steps of a request do to a well-formed cache.
-/

namespace CloverVM.Jit

open CloverVM.Machine

/-- What is asserted of a proposal: that its alignment is one, and that its
sizes can be rounded. -/
structure Admissible (pageSize granularity codeSize poolSize poolAlignment :
    Nat) : Prop where
  code_pos : codeSize ≠ 0
  alignment_bit : hasSingleBit poolAlignment
  alignment_le : poolAlignment ≤ pageSize
  code_rounds : codeSize ≤ sizeMax - (granularity - 1)
  code_pages : roundUp codeSize granularity ≤ sizeMax - (pageSize - 1)
  pool_rounds : poolSize ≠ 0 → poolSize ≤ sizeMax - (pageSize - 1)
  sum_rounds : poolSize ≠ 0 →
    roundUp (roundUp codeSize granularity) pageSize ≤
      sizeMax - roundUp poolSize pageSize

/-- Pages for the code, and pages for the pool if there is one. -/
def minimumSize (pageSize granularity codeSize poolSize : Nat) : Nat :=
  if poolSize = 0 then roundUp (roundUp codeSize granularity) pageSize
  else roundUp (roundUp codeSize granularity) pageSize +
    roundUp poolSize pageSize

section Sizes

variable {pageSize granularity codeSize poolSize poolAlignment : Nat}

theorem minimumSlabSize_eq {cache : CodeCache}
    (hG : Geometry cache.pageSize cache.codeAllocationGranularity)
    (hA : Admissible cache.pageSize cache.codeAllocationGranularity codeSize
      poolSize poolAlignment) :
    cache.minimumSlabSize codeSize poolSize poolAlignment =
      some (minimumSize cache.pageSize cache.codeAllocationGranularity codeSize
        poolSize) := by
  unfold CodeCache.minimumSlabSize minimumSize
  rw [check_bind hA.alignment_bit, check_bind hA.alignment_le,
    bind_of_eq_some (alignUp_eq hG.granularity_bit hA.code_rounds)]
  by_cases h0 : poolSize = 0
  · rw [if_pos h0, if_pos h0]
    exact alignUp_eq hG.page_bit hA.code_pages
  · rw [if_neg h0, if_neg h0,
      bind_of_eq_some (alignUp_eq hG.page_bit hA.code_pages),
      bind_of_eq_some (alignUp_eq hG.page_bit (hA.pool_rounds h0)),
      check_bind (hA.sum_rounds h0)]
    rfl

theorem minimumSlabSize_eq_some {cache : CodeCache} {n : Nat}
    (h : cache.minimumSlabSize codeSize poolSize poolAlignment = some n) :
    hasSingleBit poolAlignment ∧ poolAlignment ≤ cache.pageSize ∧
      codeSize ≤ sizeMax - (cache.codeAllocationGranularity - 1) ∧
      roundUp codeSize cache.codeAllocationGranularity ≤
        sizeMax - (cache.pageSize - 1) ∧
      (poolSize ≠ 0 → poolSize ≤ sizeMax - (cache.pageSize - 1) ∧
        roundUp (roundUp codeSize cache.codeAllocationGranularity)
          cache.pageSize ≤ sizeMax - roundUp poolSize cache.pageSize) := by
  unfold CodeCache.minimumSlabSize at h
  obtain ⟨hBit, h⟩ := check_bind_eq_some.mp h
  obtain ⟨hLe, h⟩ := check_bind_eq_some.mp h
  obtain ⟨reserved, hReserved, h⟩ := exists_of_bind h
  obtain ⟨-, hCode, rfl⟩ := alignUp_eq_some hReserved
  refine ⟨hBit, hLe, hCode, ?_⟩
  by_cases h0 : poolSize = 0
  · rw [if_pos h0] at h
    obtain ⟨-, hPages, -⟩ := alignUp_eq_some h
    exact ⟨hPages, fun hne => absurd h0 hne⟩
  · rw [if_neg h0] at h
    obtain ⟨codePages, hCodePages, h⟩ := exists_of_bind h
    obtain ⟨poolPages, hPoolPages, h⟩ := exists_of_bind h
    obtain ⟨-, hPages, rfl⟩ := alignUp_eq_some hCodePages
    obtain ⟨-, hPool, rfl⟩ := alignUp_eq_some hPoolPages
    obtain ⟨hSum, -⟩ := check_bind_eq_some.mp h
    exact ⟨hPages, fun _ => ⟨hPool, hSum⟩⟩

/-- A slab of the minimum size has pages for the code and for the pool. -/
theorem minimumSize_split (hG : Geometry pageSize granularity)
    (hA : Admissible pageSize granularity codeSize poolSize poolAlignment) :
    ∃ codePages poolPages, roundUp codeSize granularity ≤ codePages ∧
      pageSize ∣ codePages ∧ poolSize ≤ poolPages ∧ pageSize ∣ poolPages ∧
      minimumSize pageSize granularity codeSize poolSize =
        codePages + poolPages ∧
      codePages + poolPages < 2 ^ 64 ∧ codePages ≠ 0 := by
  have hCode := le_roundUp hG.granularity_bit hG.granularity_lt hA.code_rounds
  have hPages := le_roundUp hG.page_bit hG.page_lt hA.code_pages
  have hDvd := dvd_roundUp hG.page_bit hG.page_lt hA.code_pages
  have hLt := roundUp_lt hG.page_bit hG.page_lt hA.code_pages
  have hPos := hA.code_pos
  refine ⟨roundUp (roundUp codeSize granularity) pageSize,
    if poolSize = 0 then 0 else roundUp poolSize pageSize, hPages, hDvd, ?_⟩
  unfold minimumSize
  by_cases h0 : poolSize = 0
  · rw [if_pos h0, if_pos h0]
    exact ⟨by omega, Nat.dvd_zero _, rfl, hLt, by omega⟩
  · rw [if_neg h0, if_neg h0]
    have hSum := hA.sum_rounds h0
    have hPool := hA.pool_rounds h0
    have hPoolLt := roundUp_lt hG.page_bit hG.page_lt hPool
    unfold sizeMax at hSum
    exact ⟨le_roundUp hG.page_bit hG.page_lt hPool,
      dvd_roundUp hG.page_bit hG.page_lt hPool, rfl, by omega, by omega⟩

end Sizes

/-! ## Proposals -/

structure CodeCache.WellFormed (cache : CodeCache) : Prop where
  geometry : Geometry cache.pageSize cache.codeAllocationGranularity
  standard_pos : cache.standardSlabSize.toNat ≠ 0
  standard_aligned : cache.pageSize ∣ cache.standardSlabSize.toNat
  slabs : ∀ slab ∈ cache.slabs,
    slab.WellFormed cache.pageSize cache.codeAllocationGranularity

/-- What a proposal says of the slab it is made on. -/
structure Proposed (cache : CodeCache) (codeSize poolSize poolAlignment : Nat)
    (proposal : CodeAllocationProposal) (slab : CodeCacheSlab) : Prop where
  slab_eq : cache.slabs[proposal.slab]? = some slab
  fits : slab.Fits (roundUp codeSize cache.codeAllocationGranularity) poolSize
    poolAlignment
  codeOffset_eq : proposal.codeOffset = slab.codeFrontier
  codeSize_eq : proposal.pessimisticCodeSize = codeSize
  poolOffset_eq : proposal.poolOffset =
    poolPlace slab.poolFrontier poolSize poolAlignment
  poolSize_eq : proposal.poolSize = poolSize

section Proposals

variable {cache : CodeCache} {codeSize poolSize poolAlignment : Nat}

/-- The search ends at a shared slab with room or finds that no slab takes the
request. -/
theorem firstCandidate_spec {pageSize granularity : Nat}
    (reservedCodeSize poolSize : Nat) (hG : Geometry pageSize granularity)
    (ha : hasSingleBit poolAlignment) :
    ∀ (slabs : List CodeCacheSlab) (index : Nat),
      (∀ slab ∈ slabs, slab.WellFormed pageSize granularity) →
      ∃ found, CodeCache.firstCandidate reservedCodeSize poolSize poolAlignment
          slabs index = some found ∧
        ∀ i, found = some i → ∃ slab, index ≤ i ∧
          slabs[i - index]? = some slab ∧ slab.dedicated = false ∧
          slab.Fits reservedCodeSize poolSize poolAlignment := by
  intro slabs
  induction slabs with
  | nil =>
      intro index _
      exact ⟨none, rfl, nofun⟩
  | cons candidate rest ih =>
      intro index hSlabs
      have hHead := hSlabs candidate (List.mem_cons_self ..)
      have hFits := reservationFits_eq reservedCodeSize poolSize hG hHead ha
      have hCan : ∃ b, candidate.canPropose reservedCodeSize poolSize
          poolAlignment = some b ∧
          (b = true → candidate.dedicated = false ∧
            candidate.Fits reservedCodeSize poolSize poolAlignment) := by
        unfold CodeCacheSlab.canPropose
        split
        · exact ⟨false, rfl, nofun⟩
        · rename_i hShared
          obtain ⟨b, hb, hiff⟩ := hFits
          exact ⟨b, hb, fun h => ⟨Bool.eq_false_iff.mpr hShared, hiff.mp h⟩⟩
      obtain ⟨b, hb, hRoom⟩ := hCan
      unfold CodeCache.firstCandidate
      rw [bind_of_eq_some hb]
      cases b with
      | true =>
          refine ⟨some index, rfl, fun i hi => ?_⟩
          obtain rfl := Option.some.inj hi
          refine ⟨candidate, Nat.le_refl _, ?_, hRoom rfl⟩
          rw [Nat.sub_self]
          rfl
      | false =>
          obtain ⟨found, hFound, hIndex⟩ := ih (index + 1) fun slab hMem =>
            hSlabs slab (List.mem_cons_of_mem _ hMem)
          refine ⟨found, hFound, fun i hi => ?_⟩
          obtain ⟨slab, hLe, hSlab, hFit⟩ := hIndex i hi
          refine ⟨slab, by omega, ?_, hFit⟩
          rw [show i - index = (i - (index + 1)) + 1 by omega]
          exact hSlab

/-- A slab with room makes a proposal. -/
theorem proposeIn_spec (cache : CodeCache) {index : Nat}
    {slab : CodeCacheSlab} (ha : hasSingleBit poolAlignment)
    (hSlab : cache.slabs[index]? = some slab)
    (hFits : slab.Fits (roundUp codeSize cache.codeAllocationGranularity)
      poolSize poolAlignment) :
    ∃ proposal, cache.proposeIn index slab codeSize poolSize poolAlignment =
        some (cache, .ok proposal) ∧
      Proposed cache codeSize poolSize poolAlignment proposal slab := by
  refine ⟨⟨index, slab.codeFrontier, codeSize,
    poolPlace slab.poolFrontier poolSize poolAlignment, poolSize⟩, ?_, ?_⟩
  · unfold CodeCache.proposeIn
    rw [bind_of_eq_some (alignedPoolOffset_eq ha hFits.pool_le)]
    rfl
  · exact
      { slab_eq := hSlab
        fits := hFits
        codeOffset_eq := rfl
        codeSize_eq := rfl
        poolOffset_eq := rfl
        poolSize_eq := rfl }

/-- The cache has the slabs of another one, in place, and maybe more. -/
structure Extends (cache cache' : CodeCache) : Prop where
  memory_eq : cache'.platformMemory = cache.platformMemory
  standard_eq : cache'.standardSlabSize = cache.standardSlabSize
  slabs_eq : ∃ added, cache'.slabs = cache.slabs ++ added

/-- What is made for a request: the slab is shared and has the standard size, or
it is of the size that the request needs, and its pools start at a page. -/
structure CodeCacheSlab.MadeFor (cache : CodeCache) (codeSize poolSize : Nat)
    (slab : CodeCacheSlab) : Prop where
  shared : slab.dedicated = false →
    slab.platformSlab.size = cache.standardSlabSize.toNat
  dedicated : slab.dedicated = true → slab.platformSlab.size =
    minimumSize cache.pageSize cache.codeAllocationGranularity codeSize poolSize
  page_dvd : cache.pageSize ∣ slab.poolFrontier

theorem Extends.refl (cache : CodeCache) : Extends cache cache :=
  ⟨rfl, rfl, [], (List.append_nil _).symm⟩

theorem Extends.pageSize_eq {cache' : CodeCache} (h : Extends cache cache') :
    cache'.pageSize = cache.pageSize := by
  unfold CodeCache.pageSize
  rw [h.memory_eq]

theorem Extends.granularity_eq {cache' : CodeCache} (h : Extends cache cache') :
    cache'.codeAllocationGranularity = cache.codeAllocationGranularity := by
  unfold CodeCache.codeAllocationGranularity
  rw [h.memory_eq]

theorem admissible_of_propose {mapped : Option Nat}
    {result : CodeCache × Except JitCodeError CodeAllocationProposal}
    (h : cache.propose mapped codeSize poolSize poolAlignment = some result) :
    Admissible cache.pageSize cache.codeAllocationGranularity codeSize poolSize
      poolAlignment := by
  unfold CodeCache.propose at h
  obtain ⟨hPos, h⟩ := check_bind_eq_some.mp h
  obtain ⟨hBit, h⟩ := check_bind_eq_some.mp h
  obtain ⟨hLe, h⟩ := check_bind_eq_some.mp h
  obtain ⟨reserved, -, h⟩ := exists_of_bind h
  obtain ⟨minimum, hMinimum, -⟩ := exists_of_bind h
  obtain ⟨-, -, hCode, hPages, hPool⟩ := minimumSlabSize_eq_some hMinimum
  exact
    { code_pos := hPos
      alignment_bit := hBit
      alignment_le := hLe
      code_rounds := hCode
      code_pages := hPages
      pool_rounds := fun h0 => (hPool h0).1
      sum_rounds := fun h0 => (hPool h0).2 }

theorem findCandidate_spec (hWf : cache.WellFormed) (useStandardSlab : Bool)
    (reservedCodeSize poolSize : Nat) (ha : hasSingleBit poolAlignment) :
    ∃ candidate, cache.findCandidate useStandardSlab reservedCodeSize poolSize
        poolAlignment = some candidate ∧
      ∀ i, candidate = some i → ∃ slab, cache.slabs[i]? = some slab ∧
        slab.dedicated = false ∧
        slab.Fits reservedCodeSize poolSize poolAlignment := by
  unfold CodeCache.findCandidate
  cases useStandardSlab with
  | false => exact ⟨none, rfl, nofun⟩
  | true =>
      obtain ⟨found, hFound, hIndex⟩ := firstCandidate_spec
        reservedCodeSize poolSize hWf.geometry ha cache.slabs 0 hWf.slabs
      refine ⟨found, hFound, fun i hi => ?_⟩
      obtain ⟨slab, -, hSlab, hFits⟩ := hIndex i hi
      exact ⟨slab, hSlab, hFits⟩

/-- A slab of whole pages is made where the system maps it at a page. -/
theorem newSlab_mapped {size base : Nat} (hPos : size ≠ 0)
    (hAligned : cache.pageSize ∣ size) (dedicated : Bool)
    (hBase : cache.pageSize ∣ base) :
    cache.newSlab (some base) size dedicated =
      some (.ok (freshSlab ⟨base, size⟩ cache.pageSize
        cache.codeAllocationGranularity dedicated)) := by
  have hSize : size % cache.platformMemory.pageSize.toNat = 0 :=
    Nat.mod_eq_zero_of_dvd hAligned
  have hPage : base % cache.platformMemory.pageSize.toNat = 0 :=
    Nat.mod_eq_zero_of_dvd hBase
  have hAllocate : cache.platformMemory.allocateSlab (some base) size =
      some (.ok ⟨base, size⟩) := by
    unfold PlatformCodeMemory.allocateSlab
    rw [check_bind hPos, check_bind hSize]
    exact check_bind hPage _
  have hMake : CodeCacheSlab.make ⟨base, size⟩ cache.pageSize
      cache.codeAllocationGranularity dedicated =
      some (freshSlab ⟨base, size⟩ cache.pageSize
        cache.codeAllocationGranularity dedicated) := by
    unfold CodeCacheSlab.make
    exact check_bind (Nat.mod_eq_zero_of_dvd hAligned) _
  unfold CodeCache.newSlab
  rw [bind_of_eq_some hAllocate]
  exact bind_of_eq_some hMake _

/-- A slab of whole pages is made if the system maps it at a page. -/
theorem newSlab_spec {size : Nat} (hPos : size ≠ 0)
    (hAligned : cache.pageSize ∣ size) (dedicated : Bool) (mapped : Option Nat) :
    (cache.newSlab mapped size dedicated = none ∧
      ∃ base, mapped = some base ∧ ¬ cache.pageSize ∣ base) ∨
    cache.newSlab mapped size dedicated =
      some (.error .allocationFailure) ∨
    ∃ base, cache.pageSize ∣ base ∧
      cache.newSlab mapped size dedicated =
        some (.ok (freshSlab ⟨base, size⟩ cache.pageSize
          cache.codeAllocationGranularity dedicated)) := by
  have hSize : size % cache.platformMemory.pageSize.toNat = 0 :=
    Nat.mod_eq_zero_of_dvd hAligned
  cases mapped with
  | none =>
      have hAllocate : cache.platformMemory.allocateSlab none size =
          some (.error .allocationFailure) := by
        unfold PlatformCodeMemory.allocateSlab
        rw [check_bind hPos, check_bind hSize]
        rfl
      exact .inr (.inl (bind_of_eq_some hAllocate _))
  | some base =>
      by_cases hBase : cache.pageSize ∣ base
      · exact .inr (.inr ⟨base, hBase,
          newSlab_mapped hPos hAligned dedicated hBase⟩)
      · have hPage : ¬ base % cache.platformMemory.pageSize.toNat = 0 :=
          fun h => hBase (Nat.dvd_of_mod_eq_zero h)
        have hAllocate :
            cache.platformMemory.allocateSlab (some base) size = none := by
          unfold PlatformCodeMemory.allocateSlab
          rw [check_bind hPos, check_bind hSize]
          exact check_bind_of_not hPage _
        exact .inl ⟨bind_of_eq_none hAllocate _, base, rfl, hBase⟩

/-- What an admissible proposal comes to, unless the system maps a slab off a
page boundary: the cache keeps its slabs, and a proposal is made on one with
room for it, be it shared or new. -/
theorem propose_spec (hWf : cache.WellFormed)
    (hA : Admissible cache.pageSize cache.codeAllocationGranularity codeSize
      poolSize poolAlignment) (mapped : Option Nat) :
    (cache.propose mapped codeSize poolSize poolAlignment = none ∧
      ∃ base, mapped = some base ∧ ¬ cache.pageSize ∣ base) ∨
    ∃ cache' result, cache.propose mapped codeSize poolSize poolAlignment =
        some (cache', result) ∧ Extends cache cache' ∧ cache'.WellFormed ∧
      (∀ slab ∈ cache'.slabs,
        slab ∈ cache.slabs ∨ slab.MadeFor cache codeSize poolSize) ∧
      ∀ proposal, result = .ok proposal → ∃ slab,
        Proposed cache' codeSize poolSize poolAlignment proposal slab ∧
          (slab ∈ cache.slabs ∧ slab.dedicated = false ∨
            slab.MadeFor cache codeSize poolSize) := by
  have hG := hWf.geometry
  obtain ⟨codePages, poolPages, hCode, hCodePages, hPool, hPoolPages, hSum,
    hSumLt, hSumPos⟩ := minimumSize_split hG hA
  unfold CodeCache.propose
  rw [check_bind hA.code_pos, check_bind hA.alignment_bit,
    check_bind hA.alignment_le,
    bind_of_eq_some (alignUp_eq hG.granularity_bit hA.code_rounds),
    bind_of_eq_some (minimumSlabSize_eq hG hA)]
  dsimp only
  generalize hUse : decide (minimumSize cache.pageSize
    cache.codeAllocationGranularity codeSize poolSize ≤
      cache.standardSlabSize.toNat) = useStandardSlab
  obtain ⟨candidate, hCandidate, hRoom⟩ := findCandidate_spec hWf
    useStandardSlab (roundUp codeSize cache.codeAllocationGranularity) poolSize
    hA.alignment_bit
  rw [bind_of_eq_some hCandidate]
  cases candidate with
  | some index =>
      obtain ⟨slab, hSlab, hShared, hFits⟩ := hRoom index rfl
      obtain ⟨proposal, hPropose, hProposed⟩ :=
        proposeIn_spec cache hA.alignment_bit hSlab hFits
      right
      refine ⟨cache, .ok proposal, ?_, Extends.refl cache, hWf,
        fun _ => .inl, fun q hq => ?_⟩
      · dsimp only
        rw [bind_of_eq_some hSlab]
        exact hPropose
      · obtain rfl := Except.ok.inj hq
        exact ⟨slab, hProposed, .inl ⟨List.mem_of_getElem? hSlab, hShared⟩⟩
  | none =>
      -- a new slab, of the standard size or of the minimum size
      obtain ⟨size, hSize, hSizeLt, hSizePos, hAligned, hLarge, hShared,
        hOwn⟩ : ∃ size,
          (if useStandardSlab then cache.standardSlabSize.toNat
            else minimumSize cache.pageSize cache.codeAllocationGranularity
              codeSize poolSize) = size ∧ size < 2 ^ 64 ∧ size ≠ 0 ∧
            cache.pageSize ∣ size ∧ codePages + poolPages ≤ size ∧
            (useStandardSlab = true → size = cache.standardSlabSize.toNat) ∧
            (useStandardSlab = false → size = minimumSize cache.pageSize
              cache.codeAllocationGranularity codeSize poolSize) := by
        refine ⟨_, rfl, ?_⟩
        cases useStandardSlab with
        | true =>
            rw [if_pos rfl]
            rw [decide_eq_true_iff, hSum] at hUse
            exact ⟨cache.standardSlabSize.toNat_lt, hWf.standard_pos,
              hWf.standard_aligned, hUse, fun _ => rfl, nofun⟩
        | false =>
            rw [if_neg nofun, hSum]
            exact ⟨hSumLt, by omega, Nat.dvd_add hCodePages hPoolPages,
              Nat.le_refl _, nofun, fun _ => rfl⟩
      dsimp only
      rw [hSize]
      rcases newSlab_spec hSizePos hAligned (!useStandardSlab) mapped with
        ⟨hStop, hOff⟩ | hFail | ⟨base, hBase, hNew⟩
      · exact .inl ⟨bind_of_eq_none hStop _, hOff⟩
      · right
        refine ⟨cache, .error .allocationFailure, ?_, Extends.refl cache, hWf,
          fun _ => .inl, nofun⟩
        exact bind_of_eq_some hFail _
      · right
        have hFits := fits_fresh hG ⟨base, size⟩ (!useStandardSlab)
          hA.alignment_bit hA.alignment_le hAligned hSizeLt hCode hCodePages
          hPool hPoolPages hLarge
        let slab := freshSlab ⟨base, size⟩ cache.pageSize
          cache.codeAllocationGranularity (!useStandardSlab)
        let grown : CodeCache := { cache with slabs := cache.slabs ++ [slab] }
        have hSlab : grown.slabs[cache.slabs.length]? = some slab :=
          List.getElem?_concat_length
        obtain ⟨proposal, hPropose, hProposed⟩ :=
          proposeIn_spec grown hA.alignment_bit hSlab hFits
        have hMade : slab.MadeFor cache codeSize poolSize :=
          ⟨fun h => hShared ((Bool.not_not _).symm.trans (congrArg not h)),
            fun h => hOwn ((Bool.not_not _).symm.trans (congrArg not h)),
            hAligned⟩
        have hSlabs : ∀ other ∈ grown.slabs,
            other ∈ cache.slabs ∨ other = slab := fun other hMem =>
          (List.mem_append.mp hMem).imp_right List.mem_singleton.mp
        refine ⟨grown, .ok proposal, ?_, ⟨rfl, rfl, [slab], rfl⟩,
          { hWf with slabs := fun other hMem => ?_ },
          fun other hMem => (hSlabs other hMem).imp_right fun h => by rwa [h],
          fun q hq => ?_⟩
        · rw [bind_of_eq_some hNew]
          exact hPropose
        · rcases hSlabs other hMem with hOld | rfl
          · exact hWf.slabs other hOld
          · exact wellFormed_fresh _ hBase hAligned hSizeLt
        · obtain rfl := Except.ok.inj hq
          exact ⟨slab, hProposed, .inr hMade⟩

end Proposals

/-! ## Commits -/

/-- The cache after a commit on one of its slabs. -/
def CodeCache.withSlab (cache : CodeCache) (index : Nat)
    (slab : CodeCacheSlab) : CodeCache :=
  { cache with slabs := cache.slabs.set index slab }

section Commits

variable {cache : CodeCache} {codeSize poolSize poolAlignment : Nat}
  {proposal : CodeAllocationProposal} {slab : CodeCacheSlab}

theorem Proposed.wellFormed (hWf : cache.WellFormed)
    (hP : Proposed cache codeSize poolSize poolAlignment proposal slab) :
    slab.WellFormed cache.pageSize cache.codeAllocationGranularity :=
  hWf.slabs slab (List.mem_of_getElem? hP.slab_eq)

theorem Proposed.poolOffset_add_le
    (hP : Proposed cache codeSize poolSize poolAlignment proposal slab) :
    proposal.poolOffset + poolSize ≤ slab.poolFrontier := by
  rw [hP.poolOffset_eq]
  exact poolPlace_add_le slab.poolFrontier poolSize poolAlignment
    hP.fits.pool_le

/-- What is committed has room, being no more than what was proposed. -/
theorem Proposed.room (hWf : cache.WellFormed)
    (hA : Admissible cache.pageSize cache.codeAllocationGranularity codeSize
      poolSize poolAlignment)
    (hP : Proposed cache codeSize poolSize poolAlignment proposal slab)
    {encodedCodeSize : Nat} (hle : encodedCodeSize ≤ codeSize) :
    slab.codeFrontier +
        roundUp encodedCodeSize cache.codeAllocationGranularity ≤
      roundDown proposal.poolOffset cache.pageSize := by
  have hG := hWf.geometry
  have hReserved := dvd_roundUp hG.granularity_bit hG.granularity_lt
    hA.code_rounds
  have hCode := le_roundUp hG.granularity_bit hG.granularity_lt hA.code_rounds
  have hRounds := hA.code_rounds
  have hUp : roundUp encodedCodeSize cache.codeAllocationGranularity ≤
      roundUp codeSize cache.codeAllocationGranularity :=
    roundUp_le_of_dvd hG.granularity_bit hG.granularity_lt (by omega) hReserved
      (by omega)
  have hFits := hP.fits.code_le
  rw [(hP.wellFormed hWf).pageSize_eq, ← hP.poolOffset_eq] at hFits
  omega

theorem commit_spec (hWf : cache.WellFormed)
    (hA : Admissible cache.pageSize cache.codeAllocationGranularity codeSize
      poolSize poolAlignment)
    (hP : Proposed cache codeSize poolSize poolAlignment proposal slab)
    {encodedCodeSize : Nat} (h0 : encodedCodeSize ≠ 0)
    (hle : encodedCodeSize ≤ codeSize) (committed : Bool) :
    cache.commit proposal encodedCodeSize committed =
      some (cache.withSlab proposal.slab (slab.after
          (roundUp encodedCodeSize cache.codeAllocationGranularity)
          proposal.poolOffset),
        if committed then
          .ok (slab.allocation proposal.slab
            (roundUp encodedCodeSize cache.codeAllocationGranularity)
            encodedCodeSize proposal.poolOffset poolSize)
        else .error .allocationFailure) := by
  have hRounds := hA.code_rounds
  have hPool := hP.poolOffset_add_le
  have hProposed : encodedCodeSize ≤ proposal.pessimisticCodeSize := by
    rw [hP.codeSize_eq]
    exact hle
  have hCommit := (hP.wellFormed hWf).commit_eq proposal.slab poolSize
    hWf.geometry h0 (by omega) (hP.room hWf hA hle) (by omega) committed
  unfold CodeCache.commit
  rw [check_bind h0, check_bind hProposed, bind_of_eq_some hP.slab_eq,
    hP.codeOffset_eq, hP.poolSize_eq, bind_of_eq_some hCommit]
  rfl

theorem Proposed.wellFormed_after (hWf : cache.WellFormed)
    (hA : Admissible cache.pageSize cache.codeAllocationGranularity codeSize
      poolSize poolAlignment)
    (hP : Proposed cache codeSize poolSize poolAlignment proposal slab)
    {encodedCodeSize : Nat} (hle : encodedCodeSize ≤ codeSize) :
    (cache.withSlab proposal.slab (slab.after
      (roundUp encodedCodeSize cache.codeAllocationGranularity)
      proposal.poolOffset)).WellFormed := by
  have hG := hWf.geometry
  have hRounds := hA.code_rounds
  have hPool := hP.poolOffset_add_le
  refine { hWf with slabs := fun other hMem => ?_ }
  rcases List.mem_or_eq_of_mem_set hMem with hOld | rfl
  · exact hWf.slabs other hOld
  · exact (hP.wellFormed hWf).after
      (dvd_roundUp hG.granularity_bit hG.granularity_lt (by omega))
      (hP.room hWf hA hle) (by omega)

end Commits

end CloverVM.Jit
