import CloverVM.Jit.CodeCache

/-!
# Where a slab has room

The invariant of a slab is that its code ends below the page its pools begin
in.  A request that fits keeps it, whatever size the code comes to have, and a
slab made for a request has room for it.
-/

namespace CloverVM.Jit

open CloverVM.Machine

/-- What the constructor of the cache asserts of the sizes it works with. -/
structure Geometry (pageSize granularity : Nat) : Prop where
  page_bit : hasSingleBit pageSize
  page_lt : pageSize < 2 ^ 64
  granularity_bit : hasSingleBit granularity
  granularity_dvd : granularity ∣ pageSize
  granularity_ge : 16 ≤ granularity

namespace Geometry

variable {pageSize granularity : Nat} (hG : Geometry pageSize granularity)

include hG

theorem page_pos : 0 < pageSize :=
  hasSingleBit_pos hG.page_bit

theorem granularity_le : granularity ≤ pageSize :=
  Nat.le_of_dvd hG.page_pos hG.granularity_dvd

theorem granularity_lt : granularity < 2 ^ 64 :=
  Nat.lt_of_le_of_lt hG.granularity_le hG.page_lt

theorem sixteen_dvd : 16 ∣ granularity :=
  dvd_of_hasSingleBit (by decide) hG.granularity_bit hG.granularity_ge

end Geometry

theorem alignUp_eq {value alignment : Nat} (ha : hasSingleBit alignment)
    (hv : value ≤ sizeMax - (alignment - 1)) :
    alignUp value alignment = some (roundUp value alignment) := by
  unfold alignUp
  rw [check_bind ha]
  exact check_bind hv _

theorem alignUp_eq_some {value alignment n : Nat}
    (h : alignUp value alignment = some n) :
    hasSingleBit alignment ∧ value ≤ sizeMax - (alignment - 1) ∧
      n = roundUp value alignment := by
  unfold alignUp at h
  simp only [check_bind_eq_some] at h
  obtain ⟨ha, hv, hn⟩ := h
  exact ⟨ha, hv, (Option.some.inj hn).symm⟩

theorem alignDown_eq {value alignment : Nat} (ha : hasSingleBit alignment) :
    alignDown value alignment = some (roundDown value alignment) := by
  unfold alignDown
  exact check_bind ha _

/-- The offset of a pool, where it has room. -/
def poolPlace (frontier poolSize poolAlignment : Nat) : Nat :=
  if poolSize = 0 then frontier
  else roundDown (frontier - poolSize) poolAlignment

theorem alignedPoolOffset_eq {frontier poolSize poolAlignment : Nat}
    (ha : hasSingleBit poolAlignment) (hle : poolSize ≤ frontier) :
    alignedPoolOffset frontier poolSize poolAlignment =
      some (poolPlace frontier poolSize poolAlignment) := by
  unfold alignedPoolOffset poolPlace
  rw [check_bind ha]
  by_cases h0 : poolSize = 0
  · rw [if_pos h0, if_pos h0]
    rfl
  · rw [if_neg h0, if_neg h0]
    rw [check_bind hle]
    exact alignDown_eq ha

theorem poolPlace_add_le (frontier poolSize poolAlignment : Nat)
    (hle : poolSize ≤ frontier) :
    poolPlace frontier poolSize poolAlignment + poolSize ≤ frontier := by
  unfold poolPlace
  split
  · omega
  · have := roundDown_le (frontier - poolSize) poolAlignment
    omega

theorem dvd_poolPlace {frontier poolSize poolAlignment : Nat}
    (ha : hasSingleBit poolAlignment) (hlt : poolAlignment < 2 ^ 64)
    (hf : frontier < 2 ^ 64) (h0 : poolSize ≠ 0) :
    poolAlignment ∣ poolPlace frontier poolSize poolAlignment := by
  unfold poolPlace
  rw [if_neg h0]
  exact dvd_roundDown ha hlt (by omega)

/-! ## Slabs -/

/-- Code ends below the page the pools begin in. -/
structure CodeCacheSlab.WellFormed (pageSize granularity : Nat)
    (slab : CodeCacheSlab) : Prop where
  pageSize_eq : slab.pageSize = pageSize
  codeGranularity_eq : slab.codeGranularity = granularity
  base_aligned : pageSize ∣ slab.platformSlab.base
  size_aligned : pageSize ∣ slab.platformSlab.size
  size_lt : slab.platformSlab.size < 2 ^ 64
  codeFrontier_aligned : granularity ∣ slab.codeFrontier
  codeFrontier_le : slab.codeFrontier ≤ roundDown slab.poolFrontier pageSize
  poolFrontier_le : slab.poolFrontier ≤ slab.platformSlab.size

/-- The request has room between the frontiers, on pages of its own kind. -/
structure CodeCacheSlab.Fits (slab : CodeCacheSlab) (reservedCodeSize poolSize
    poolAlignment : Nat) : Prop where
  pool_le : poolSize ≤ slab.poolFrontier
  code_le : slab.codeFrontier + reservedCodeSize ≤
    roundDown (poolPlace slab.poolFrontier poolSize poolAlignment)
      slab.pageSize

section Slabs

variable {pageSize granularity reservedCodeSize poolSize poolAlignment : Nat}
  {slab : CodeCacheSlab}

/-- The test of the source decides whether the request has room. -/
theorem reservationFits_eq (reservedCodeSize poolSize : Nat)
    (hG : Geometry pageSize granularity)
    (hWf : slab.WellFormed pageSize granularity)
    (ha : hasSingleBit poolAlignment) :
    ∃ b, slab.reservationFits reservedCodeSize poolSize poolAlignment =
        some b ∧
      (b = true ↔ slab.Fits reservedCodeSize poolSize poolAlignment) := by
  have hPage : hasSingleBit slab.pageSize := hWf.pageSize_eq ▸ hG.page_bit
  have hPlace := poolPlace_add_le slab.poolFrontier poolSize poolAlignment
  have hDown := roundDown_le
    (poolPlace slab.poolFrontier poolSize poolAlignment) slab.pageSize
  have hSize := hWf.poolFrontier_le
  unfold CodeCacheSlab.reservationFits
  by_cases hCode :
      reservedCodeSize > slab.platformSlab.size - slab.codeFrontier
  · rw [if_pos hCode]
    refine ⟨false, rfl, nofun, fun hFits => ?_⟩
    have hPool := hPlace hFits.pool_le
    have hRoom := hFits.code_le
    omega
  · rw [if_neg hCode]
    by_cases hPool : poolSize > slab.poolFrontier
    · rw [if_pos hPool]
      refine ⟨false, rfl, nofun, fun hFits => ?_⟩
      exact absurd hFits.pool_le (Nat.not_le.mpr hPool)
    · rw [if_neg hPool, alignedPoolOffset_eq ha (Nat.not_lt.mp hPool)]
      refine ⟨decide (slab.codeFrontier + reservedCodeSize ≤ roundDown
        (poolPlace slab.poolFrontier poolSize poolAlignment) slab.pageSize),
        ?_, ?_⟩
      · simp only [Option.bind_eq_bind, Option.bind_some, alignDown_eq hPage]
        rfl
      · rw [decide_eq_true_iff]
        exact ⟨fun h => ⟨Nat.not_lt.mp hPool, h⟩, fun h => h.code_le⟩

/-- A new slab, both frontiers at its ends. -/
def freshSlab (platformSlab : PlatformCodeSlab) (pageSize granularity : Nat)
    (dedicated : Bool) : CodeCacheSlab :=
  { platformSlab, pageSize, codeGranularity := granularity, dedicated
    codeFrontier := 0
    poolFrontier := platformSlab.size }

theorem wellFormed_fresh {platformSlab : PlatformCodeSlab} (dedicated : Bool)
    (hBase : pageSize ∣ platformSlab.base)
    (hAligned : pageSize ∣ platformSlab.size)
    (hLt : platformSlab.size < 2 ^ 64) :
    (freshSlab platformSlab pageSize granularity dedicated).WellFormed
      pageSize granularity :=
  { pageSize_eq := rfl
    codeGranularity_eq := rfl
    base_aligned := hBase
    size_aligned := hAligned
    size_lt := hLt
    codeFrontier_aligned := Nat.dvd_zero _
    codeFrontier_le := Nat.zero_le _
    poolFrontier_le := Nat.le_refl _ }

/-- A new slab with pages for the code and pages for the pool has room. -/
theorem fits_fresh (hG : Geometry pageSize granularity)
    (platformSlab : PlatformCodeSlab) {codePages poolPages : Nat}
    (dedicated : Bool) (ha : hasSingleBit poolAlignment)
    (hle : poolAlignment ≤ pageSize)
    (hAligned : pageSize ∣ platformSlab.size)
    (hLt : platformSlab.size < 2 ^ 64)
    (hCode : reservedCodeSize ≤ codePages) (hCodePages : pageSize ∣ codePages)
    (hPool : poolSize ≤ poolPages) (hPoolPages : pageSize ∣ poolPages)
    (hSize : codePages + poolPages ≤ platformSlab.size) :
    (freshSlab platformSlab pageSize granularity dedicated).Fits
      reservedCodeSize poolSize poolAlignment := by
  have hLt' : poolAlignment < 2 ^ 64 := Nat.lt_of_le_of_lt hle hG.page_lt
  have hDvd : poolAlignment ∣ pageSize :=
    dvd_of_hasSingleBit ha hG.page_bit hle
  -- the pool is placed above the pages left to the code
  have hRest : codePages ≤ platformSlab.size - poolPages := by omega
  have hRestPages : pageSize ∣ platformSlab.size - poolPages :=
    Nat.dvd_sub hAligned hPoolPages
  have hPlace : platformSlab.size - poolPages ≤
      poolPlace platformSlab.size poolSize poolAlignment := by
    unfold poolPlace
    split
    · omega
    · apply le_roundDown_of_dvd ha hLt' (by omega)
      · exact Nat.dvd_trans hDvd hRestPages
      · omega
  have hPlaceLt : poolPlace platformSlab.size poolSize poolAlignment <
      2 ^ 64 := by
    have := poolPlace_add_le platformSlab.size poolSize poolAlignment
      (by omega)
    omega
  refine ⟨Nat.le_trans hPool (by show poolPages ≤ platformSlab.size; omega), ?_⟩
  calc 0 + reservedCodeSize ≤ codePages := by omega
    _ ≤ platformSlab.size - poolPages := hRest
    _ ≤ roundDown (poolPlace platformSlab.size poolSize poolAlignment)
          pageSize :=
        le_roundDown_of_dvd hG.page_bit hG.page_lt hPlaceLt hRestPages hPlace

/-! ## Commits -/

/-- The slab with the space of a commit taken. -/
def CodeCacheSlab.after (slab : CodeCacheSlab) (codeSize poolOffset : Nat) :
    CodeCacheSlab :=
  { slab with
    codeFrontier := slab.codeFrontier + codeSize
    poolFrontier := poolOffset }

/-- The allocation a commit hands out on success. -/
def CodeCacheSlab.allocation (slab : CodeCacheSlab) (index codeSize
    encodedCodeSize poolOffset poolSize : Nat) : CodeAllocation :=
  let codeAddress := slab.platformSlab.base + slab.codeFrontier
  let poolAddress := slab.platformSlab.base + poolOffset
  ⟨⟨codeAddress, codeSize⟩, ⟨codeAddress, codeSize⟩, ⟨poolAddress, poolSize⟩,
    poolAddress, index, slab.codeFrontier, encodedCodeSize⟩

theorem CodeCacheSlab.WellFormed.after {codeSize poolOffset : Nat}
    (hWf : slab.WellFormed pageSize granularity) (hCode : granularity ∣ codeSize)
    (hRoom : slab.codeFrontier + codeSize ≤ roundDown poolOffset pageSize)
    (hPool : poolOffset ≤ slab.poolFrontier) :
    (slab.after codeSize poolOffset).WellFormed pageSize granularity :=
  { hWf with
    codeFrontier_aligned := Nat.dvd_add hWf.codeFrontier_aligned hCode
    codeFrontier_le := hRoom
    poolFrontier_le := Nat.le_trans hPool hWf.poolFrontier_le }

/-- A commit of what fits passes every assertion. -/
theorem CodeCacheSlab.WellFormed.commit_eq (index poolSize : Nat)
    {encodedCodeSize poolOffset : Nat} (hG : Geometry pageSize granularity)
    (hWf : slab.WellFormed pageSize granularity) (h0 : encodedCodeSize ≠ 0)
    (hUp : encodedCodeSize ≤ sizeMax - (granularity - 1))
    (hRoom : slab.codeFrontier + roundUp encodedCodeSize granularity ≤
      roundDown poolOffset pageSize)
    (hPool : poolOffset ≤ slab.poolFrontier) (committed : Bool) :
    slab.commit index slab.codeFrontier encodedCodeSize poolOffset poolSize
        committed =
      some (slab.after (roundUp encodedCodeSize granularity) poolOffset,
        if committed then
          .ok (slab.allocation index (roundUp encodedCodeSize granularity)
            encodedCodeSize poolOffset poolSize)
        else
          .error .allocationFailure) := by
  have hSize := hWf.poolFrontier_le
  have hDown := roundDown_le poolOffset pageSize
  have hSixteen : 16 ∣ slab.platformSlab.base + slab.codeFrontier :=
    Nat.dvd_add
      (Nat.dvd_trans hG.sixteen_dvd
        (Nat.dvd_trans hG.granularity_dvd hWf.base_aligned))
      (Nat.dvd_trans hG.sixteen_dvd hWf.codeFrontier_aligned)
  have hPos : roundUp encodedCodeSize granularity ≠ 0 := by
    have := le_roundUp hG.granularity_bit hG.granularity_lt hUp
    omega
  have hCodeAddress : slab.platformSlab.addressAt slab.codeFrontier =
      some (slab.platformSlab.base + slab.codeFrontier) := by
    unfold PlatformCodeSlab.addressAt
    exact check_bind (by omega) _
  have hPoolAddress : slab.platformSlab.addressAt poolOffset =
      some (slab.platformSlab.base + poolOffset) := by
    unfold PlatformCodeSlab.addressAt
    exact check_bind (by omega) _
  have hSlice : CodeSlice.make
      (slab.platformSlab.base + slab.codeFrontier)
      (roundUp encodedCodeSize granularity) =
      some ⟨slab.platformSlab.base + slab.codeFrontier,
        roundUp encodedCodeSize granularity⟩ := by
    unfold CodeSlice.make
    exact check_bind (by omega) _
  have hCommitted : alignUp encodedCodeSize slab.codeGranularity =
      some (roundUp encodedCodeSize granularity) := by
    rw [hWf.codeGranularity_eq]
    exact alignUp_eq hG.granularity_bit hUp
  have hWritable : (slab.platformSlab.base + slab.codeFrontier) % 16 = 0 := by
    omega
  unfold CodeCacheSlab.commit
  rw [bind_of_eq_some hCommitted, check_bind rfl, check_bind hPool]
  cases committed with
  | false => rfl
  | true =>
      rw [if_pos rfl, bind_of_eq_some hCodeAddress,
        bind_of_eq_some hPoolAddress, bind_of_eq_some hSlice]
      unfold CodeAllocation.make
      rw [check_bind hPos, check_bind hWritable]
      rfl

end Slabs

end CloverVM.Jit
