import CloverVM.BuiltinTypes.BigIntFloorDivision
import CloverVM.BuiltinTypes.IntPower
import CloverVM.Machine.FloorDivision
import CloverVM.Machine.ModularInverse

/-!
# Powers modulo an integer

The three-argument power of `builtin_types/bigint.cpp`.  Every product is
reduced modulo the modulus before it is used again, so that the buffers stay
at the size of the modulus and its square; the residues have the sign of the
modulus.  For a negative exponent the base is first replaced by its inverse,
which an extended Euclidean loop computes with coefficients reduced modulo
the absolute value of the modulus.

The loop is given as many rounds as the first residue counts, and one to find
that nothing is left.
-/

namespace CloverVM.BuiltinTypes.BigInt

open CloverVM.Machine CloverVM.Machine.Digits CloverVM.ObjectModel
open CloverVM.Machine.SquareAndMultiply CloverVM.Machine.ModularInverse
open CloverVM.Runtime

def bigintViewIsOne (view : ConstBigIntView) : Bool :=
  view.signum == 1 && view.nDigits == 1 && view.digits.getD 0 0 == 1

def bigintFloorModInto (capacity : Nat) (capacities : DivmodCapacities)
    (left right : ConstBigIntView) : Option ConstBigIntView := do
  check (isNormalizedBigintView left)
  check (isNormalizedBigintView right)
  check (right.signum ≠ 0)
  let (_, remainder) ← bigintFloorDivmodViewsInto capacities left right
  copyBigintView capacity remainder

/-- The capacities of the scratch buffers of `bigint_modular_pow`. -/
structure ModularCapacities where
  residue : Nat
  product : Nat
  diff : Nat
  reduction : Nat

/-- The buffers that every reduction works in. -/
def ModularCapacities.divmod (capacities : ModularCapacities) :
    DivmodCapacities :=
  ⟨capacities.reduction, capacities.reduction, capacities.reduction + 1,
    capacities.residue⟩

/-- The capacities, or the overflow of a size. -/
def modularCapacities (base absModulo : ConstBigIntView) :
    Except BuiltinException ModularCapacities :=
  let residue := max absModulo.nDigits 1
  if residue > (2 ^ 64 - 1 - 2) / 2 then .error overflowError
  else
    let product := residue * 2
    let diff := product + 1
    let reduction := max (max base.nDigits product) (max diff 1)
    if reduction = 2 ^ 64 - 1 then .error overflowError
    else .ok ⟨residue, product, diff, reduction⟩

/-- The residues and the coefficients of the extended Euclidean loop. -/
structure EuclidViews where
  oldR : ConstBigIntView
  r : ConstBigIntView
  oldT : ConstBigIntView
  t : ConstBigIntView

/-- A round of the loop; the swaps move every view up by one place. -/
def euclidRound (capacities : ModularCapacities)
    (absModulo : ConstBigIntView) (s : EuclidViews) : Option EuclidViews := do
  let (quotient, nextR) ← bigintAbsDivmodInto capacities.residue
    capacities.residue s.oldR s.r
  let product ← bigintMulInto capacities.product quotient s.t
  let diff ← bigintSubInto capacities.diff s.oldT product
  let nextT ← bigintFloorModInto capacities.residue capacities.divmod diff
    absModulo
  some ⟨s.r, nextR, s.t, nextT⟩

/-- The loop, for at most `rounds` tests of its condition. -/
def euclidLoop (capacities : ModularCapacities)
    (absModulo : ConstBigIntView) : Nat → EuclidViews → Option EuclidViews
  | 0, _ => none
  | rounds + 1, s =>
      if s.r.signum ≠ 0 then do
        let next ← euclidRound capacities absModulo s
        euclidLoop capacities absModulo rounds next
      else some s

def bigintModularInverseInto (capacities : ModularCapacities)
    (base modulo absModulo : ConstBigIntView) : Option ConstBigIntView := do
  check (absModulo.signum > 0)
  check (bigintViewIsOne absModulo = false)
  let oldR ← copyBigintView capacities.residue absModulo
  let r ← bigintFloorModInto capacities.residue capacities.divmod base
    absModulo
  let t ← copyBigintView capacities.residue oneView
  let last ← euclidLoop capacities absModulo (r.magnitude + 1)
    ⟨oldR, r, ⟨0, []⟩, t⟩
  if bigintViewIsOne last.oldR = false then
    some ⟨0, []⟩
  else
    bigintFloorModInto capacities.residue capacities.divmod last.oldT modulo

/-- A product reduced modulo the modulus. -/
def modularMul (capacities : ModularCapacities)
    (modulo left right : ConstBigIntView) : Option ConstBigIntView := do
  let product ← bigintMulInto capacities.product left right
  bigintFloorModInto capacities.residue capacities.divmod product modulo

/-- The loop over the bits of the exponent, and the final value. -/
def modularPowLoop (capacities : ModularCapacities)
    (exponent modulo result power : ConstBigIntView) : Option IntValue := do
  let exponentBits ← bigintAbsBitLength exponent
  let result ← powLoop (modularMul capacities modulo)
    (fun power => modularMul capacities modulo power power)
    (bigintAbsBit exponent) exponentBits exponentBits 0 result power
  finalizeBigint result

/-- The power, once the buffers are there. -/
def bigintModularPowWith (capacities : ModularCapacities)
    (base exponent modulo absModulo : ConstBigIntView) :
    Option (Except BuiltinException IntValue) := do
  let result ← bigintFloorModInto capacities.residue capacities.divmod
    oneView modulo
  if exponent.signum < 0 then
    let power ← bigintModularInverseInto capacities base modulo absModulo
    if power.signum = 0 then
      some (.error notInvertibleError)
    else
      let value ← modularPowLoop capacities exponent modulo result power
      some (.ok value)
  else
    let power ← bigintFloorModInto capacities.residue capacities.divmod
      base modulo
    let value ← modularPowLoop capacities exponent modulo result power
    some (.ok value)

def bigintModularPow (base exponent modulo : ConstBigIntView) :
    Option (Except BuiltinException IntValue) := do
  check (isNormalizedBigintView base)
  check (isNormalizedBigintView exponent)
  check (isNormalizedBigintView modulo)
  if modulo.signum = 0 then
    some (.error powZeroModuloError)
  else
    let absModulo ← absBigintView modulo
    if bigintViewIsOne absModulo then
      let value ← finalizeBigint ⟨0, []⟩
      some (.ok value)
    else
      match modularCapacities base absModulo with
      | .error e => some (.error e)
      | .ok capacities =>
          bigintModularPowWith capacities base exponent modulo absModulo

/-! ## Sizes -/

/-- A digit takes four bytes, and the digits of a view lie in memory. -/
def Addressable (view : ConstBigIntView) : Prop := 4 * view.nDigits ≤ 2 ^ 64

instance (view : ConstBigIntView) : Decidable (Addressable view) :=
  inferInstanceAs (Decidable (_ ≤ _))

/-- The buffers hold every residue, product and difference. -/
structure ModularCapacities.Fit (capacities : ModularCapacities)
    (base absModulo : ConstBigIntView) : Prop where
  residue : absModulo.nDigits ≤ capacities.residue
  residue_pos : 1 ≤ capacities.residue
  product : capacities.residue * 2 ≤ capacities.product
  diff : capacities.product + 1 ≤ capacities.diff
  base : base.nDigits ≤ capacities.reduction
  reduction : capacities.diff ≤ capacities.reduction

theorem modularCapacities_spec {base absModulo : ConstBigIntView}
    (hBase : Addressable base) (hModulo : Addressable absModulo) :
    ∃ capacities, modularCapacities base absModulo = .ok capacities ∧
      capacities.Fit base absModulo := by
  unfold Addressable at hBase hModulo
  have hResidue : ¬ max absModulo.nDigits 1 > (2 ^ 64 - 1 - 2) / 2 := by
    omega
  have hReduction : ¬ max (max base.nDigits (max absModulo.nDigits 1 * 2))
      (max (max absModulo.nDigits 1 * 2 + 1) 1) = 2 ^ 64 - 1 := by omega
  unfold modularCapacities
  rw [if_neg hResidue]
  refine ⟨_, if_neg hReduction, ?_⟩
  constructor <;> simp only <;> omega

theorem Denotes.natAbs_lt_pow {view : ConstBigIntView} {a : Int} {n : Nat}
    (h : Denotes view a) (hDigits : view.nDigits ≤ n) :
    a.natAbs < (2 ^ 32) ^ n := by
  rw [← h.magnitude]
  calc view.magnitude < (2 ^ 32) ^ view.nDigits := value_lt view.digits
    _ ≤ (2 ^ 32) ^ n := Nat.pow_le_pow_right (by decide) hDigits

theorem Denotes.nDigits_le_of_natAbs_lt {view : ConstBigIntView} {a : Int}
    {n : Nat} (h : Denotes view a) (hBound : a.natAbs < (2 ^ 32) ^ n) :
    view.nDigits ≤ n := by
  rw [← h.magnitude] at hBound
  exact length_le_of_value_lt h.normalized.trimmed hBound

theorem Denotes.nDigits_mul_le {left right product : ConstBigIntView}
    {a b : Int} {i j : Nat} (h : Denotes product (a * b))
    (hl : Denotes left a) (hr : Denotes right b) (hi : left.nDigits ≤ i)
    (hj : right.nDigits ≤ j) : product.nDigits ≤ i + j := by
  refine h.nDigits_le_of_natAbs_lt ?_
  rw [Int.natAbs_mul, Nat.pow_add]
  exact Nat.mul_lt_mul'' (hl.natAbs_lt_pow hi) (hr.natAbs_lt_pow hj)

theorem Denotes.nDigits_sub_le {left right difference : ConstBigIntView}
    {a b : Int} {n : Nat} (h : Denotes difference (a - b))
    (hl : Denotes left a) (hr : Denotes right b) (hi : left.nDigits ≤ n)
    (hj : right.nDigits ≤ n) : difference.nDigits ≤ n + 1 := by
  have hLeft := hl.natAbs_lt_pow hi
  have hRight := hr.natAbs_lt_pow hj
  refine h.nDigits_le_of_natAbs_lt ?_
  rw [Nat.pow_succ]
  omega

section ModularPower

variable {capacities : ModularCapacities}
  {base exponent modulo absModulo : ConstBigIntView} {b m : Int}

/-- A reduction yields the residue with the sign of the modulus. -/
theorem bigintFloorModInto_spec (hFit : capacities.Fit base absModulo)
    {left right : ConstBigIntView} {a d : Int} (hl : Denotes left a)
    (hr : Denotes right d) (hd : d ≠ 0)
    (hLeft : left.nDigits ≤ capacities.reduction)
    (hRight : right.nDigits ≤ capacities.residue) :
    ∃ dest, bigintFloorModInto capacities.residue capacities.divmod left
        right = some dest ∧
      Denotes dest (a.fmod d) := by
  have hReduction : 1 ≤ capacities.reduction := by
    have hProduct := hFit.product
    have hDiff := hFit.diff
    have hAll := hFit.reduction
    omega
  have hSuffice : capacities.divmod.Suffice left right :=
    ⟨hLeft, max_le hLeft hReduction, Nat.succ_le_succ hLeft, hRight⟩
  obtain ⟨quotient, remainder, q, r, hRun, -, hRemainder, hFloor⟩ :=
    bigintFloorDivmodViewsInto_spec hSuffice hl hr hd
  rw [hFloor.remainder_eq hd] at hRemainder
  have hCopied : remainder.nDigits ≤ capacities.residue :=
    (hRemainder.nDigits_mono hr (natAbs_fmod_lt a hd).le).trans hRight
  refine ⟨remainder, ?_, hRemainder⟩
  unfold bigintFloorModInto
  rw [check_normalized hl.normalized, check_normalized hr.normalized,
    check_bind (mt hr.signum_eq_zero_iff.mp hd)]
  refine (bind_of_eq_some hRun _).trans ?_
  exact copyBigintView_eq hRemainder.normalized hCopied

/-- The view holds the residue of the integer. -/
def HoldsResidue (m : Int) (view : ConstBigIntView) (a : Int) : Prop :=
  Denotes view (a.fmod m)

theorem modularMul_multiplies (hFit : capacities.Fit base absModulo)
    (hm : Denotes modulo m) (hne : m ≠ 0)
    (hDigits : modulo.nDigits = absModulo.nDigits) :
    Multiplies (HoldsResidue m) (modularMul capacities modulo)
      (fun power => modularMul capacities modulo power power) := by
  have hMultiply : ∀ {x y : ConstBigIntView} {a b : Int},
      HoldsResidue m x a → HoldsResidue m y b →
      ∃ z, modularMul capacities modulo x y = some z ∧
        HoldsResidue m z (a * b) := by
    intro x y a b hx hy
    have hResidue := hFit.residue
    have hProductFits := hFit.product
    have hDiff := hFit.diff
    have hReduction := hFit.reduction
    have hxDigits := hx.nDigits_mono hm (natAbs_fmod_lt a hne).le
    have hyDigits := hy.nDigits_mono hm (natAbs_fmod_lt b hne).le
    obtain ⟨product, hRun, hProduct⟩ :=
      @bigintMulInto_spec capacities.product _ _ _ _ hx hy (by omega)
    have hProductDigits := hProduct.nDigits_mul_le hx hy hxDigits hyDigits
    obtain ⟨dest, hReduce, hDest⟩ :=
      bigintFloorModInto_spec hFit hProduct hm hne (by omega) (by omega)
    rw [← Int.mul_fmod] at hDest
    exact ⟨dest, (bind_of_eq_some hRun _).trans hReduce, hDest⟩
  exact ⟨hMultiply, fun hx => hMultiply hx hx⟩

theorem modularPowLoop_yields (hFit : capacities.Fit base absModulo)
    (hm : Denotes modulo m) (hne : m ≠ 0)
    (hDigits : modulo.nDigits = absModulo.nDigits)
    {result power : ConstBigIntView} {a e : Int} (he : Denotes exponent e)
    (hResult : HoldsResidue m result 1) (hPower : HoldsResidue m power a) :
    Yields (modularPowLoop capacities exponent modulo result power)
      ((a ^ e.natAbs).fmod m) := by
  obtain ⟨bits, hBits, hBound⟩ := bigintAbsBitLength_spec he
  obtain ⟨out, hRun, hOut⟩ := powLoop_spec
    (modularMul_multiplies hFit hm hne hDigits) (bigintAbsBit_eq he) hBound
    bits 0 result power 1 a (Nat.zero_add bits) hResult hPower
  rw [Nat.pow_zero, Nat.div_one, one_mul] at hOut
  unfold modularPowLoop
  rw [bind_of_eq_some hBits]
  refine (?_ : Yields (powLoop _ _ _ _ _ _ _ _ >>= _) _)
  rw [bind_of_eq_some hRun]
  exact finalizeBigint_yields hOut

/-! ## The inverse -/

theorem bigintViewIsOne_iff {view : ConstBigIntView} {a : Int}
    (h : Denotes view a) : bigintViewIsOne view = true ↔ a = 1 := by
  constructor
  · intro hOne
    simp only [bigintViewIsOne, Bool.and_eq_true, beq_iff_eq] at hOne
    obtain ⟨⟨hSign, hLength⟩, hDigit⟩ := hOne
    obtain ⟨d, hDigits⟩ := List.length_eq_one_iff.mp hLength
    rw [hDigits, List.getD_cons_zero] at hDigit
    rw [← h.toInt, ConstBigIntView.toInt, ConstBigIntView.magnitude, hSign,
      hDigits, hDigit]
    rfl
  · rintro rfl
    rw [h.eq denotes_one]
    rfl

/-- The views hold the residues and the coefficients. -/
structure HoldsEuclid (views : EuclidViews) (s : Euclid) : Prop where
  oldR : Denotes views.oldR s.oldR
  r : Denotes views.r s.r
  oldT : Denotes views.oldT s.oldT
  t : Denotes views.t s.t

section Inverse

variable {k : Nat} {views : EuclidViews} {s : Euclid}

theorem euclidRound_spec (hFit : capacities.Fit base absModulo)
    (hk : Denotes absModulo k) (hkOne : 1 < k) (hInv : Invariant k b s)
    (hViews : HoldsEuclid views s) (hr : 0 < s.r) :
    ∃ next, euclidRound capacities absModulo views = some next ∧
      HoldsEuclid next (s.next k) := by
  have hResidue := hFit.residue
  have hProductFits := hFit.product
  have hDiffFits := hFit.diff
  have hReduction := hFit.reduction
  have hPositive := hFit.residue_pos
  have hkNonneg : (0 : Int) < k := by omega
  have hOldR : views.oldR.nDigits ≤ absModulo.nDigits :=
    hViews.oldR.nDigits_mono hk (by simpa using hInv.oldR_le)
  have hOldT : views.oldT.nDigits ≤ absModulo.nDigits :=
    hViews.oldT.nDigits_mono hk (by have := hInv.oldT_range; omega)
  have hT : views.t.nDigits ≤ absModulo.nDigits :=
    hViews.t.nDigits_mono hk (by have := hInv.t_range; omega)
  obtain ⟨quotient, nextR, hDivRun, hQuotient, hNextR⟩ :=
    bigintAbsDivmodInto_spec capacities.residue capacities.residue hViews.oldR
      hViews.r hr (by omega) (by omega)
  have hQuotientDigits : quotient.nDigits ≤ absModulo.nDigits := by
    refine (hQuotient.nDigits_mono hViews.oldR ?_).trans hOldR
    rw [Int.natAbs_natCast, Int.natAbs_natCast]
    exact Nat.div_le_self _ _
  obtain ⟨product, hMulRun, hProduct⟩ := @bigintMulInto_spec
    capacities.product _ _ _ _ hQuotient hViews.t (by omega)
  have hProductDigits :=
    hProduct.nDigits_mul_le hQuotient hViews.t hQuotientDigits hT
  obtain ⟨diff, hSubRun, hDiff⟩ := bigintSubInto_spec capacities.diff
    hViews.oldT hProduct (by omega)
  have hDiffDigits := hDiff.nDigits_sub_le (n := capacities.product)
    hViews.oldT hProduct (by omega) (by omega)
  obtain ⟨nextT, hModRun, hNextT⟩ := bigintFloorModInto_spec hFit hDiff hk
    hkNonneg.ne' (by omega) hResidue
  rw [Int.fmod_eq_emod_of_nonneg _ hkNonneg.le] at hNextT
  refine ⟨⟨views.r, nextR, views.t, nextT⟩, ?_,
    ⟨hViews.r, hNextR, hViews.t, hNextT⟩⟩
  unfold euclidRound
  refine (bind_of_eq_some hDivRun _).trans ?_
  refine (bind_of_eq_some hMulRun _).trans ?_
  refine (bind_of_eq_some hSubRun _).trans ?_
  exact bind_of_eq_some hModRun _

/-- The loop ends: every round lowers the residue, and with the residue at
zero the invariant gives the greatest common divisor. -/
theorem euclidLoop_spec (hFit : capacities.Fit base absModulo)
    (hk : Denotes absModulo k) (hkOne : 1 < k) (rounds : Nat) :
    ∀ {views : EuclidViews} {s : Euclid}, Invariant k b s →
      HoldsEuclid views s → s.r < rounds →
      ∃ last : EuclidViews, ∃ t : Int,
        euclidLoop capacities absModulo rounds views = some last ∧
        Denotes last.oldR (Int.gcd b k) ∧ Denotes last.oldT t ∧
        (0 ≤ t ∧ t < k) ∧ (Int.gcd b k : Int) ≡ t * b [ZMOD k] := by
  induction rounds with
  | zero =>
      intro views s _ _ hRounds
      exact absurd hRounds (Nat.not_lt_zero _)
  | succ rounds ih =>
      intro views s hInv hViews hRounds
      by_cases hNone : s.r = 0
      · obtain ⟨hGcd, hInverse⟩ := hInv.finish hNone
        have hSign : ¬ views.r.signum ≠ 0 := by
          rw [not_not, hViews.r.signum_eq_zero_iff, hNone]
          rfl
        have hOldR := hViews.oldR
        rw [hGcd] at hOldR
        exact ⟨views, s.oldT, if_neg hSign, hOldR, hViews.oldT,
          hInv.oldT_range, hInverse⟩
      · have hPos : 0 < s.r := Nat.pos_of_ne_zero hNone
        have hSign : views.r.signum ≠ 0 := by
          rw [Ne, hViews.r.signum_eq_zero_iff]
          omega
        obtain ⟨next, hRound, hNext⟩ :=
          euclidRound_spec hFit hk hkOne hInv hViews hPos
        obtain ⟨hNextInv, hLess⟩ := hInv.next hkOne hPos
        obtain ⟨last, t, hRun, hRest⟩ := ih hNextInv hNext (by omega)
        refine ⟨last, t, ?_, hRest⟩
        rw [euclidLoop, if_pos hSign, bind_of_eq_some hRound]
        exact hRun

end Inverse

theorem modEq_natAbs_iff {x y m : Int} :
    x ≡ y [ZMOD m.natAbs] ↔ x ≡ y [ZMOD m] := by
  rw [Int.modEq_iff_dvd, Int.modEq_iff_dvd, Int.natAbs_dvd]

/-- The base's inverse as a residue of the modulus, or zero when the base and
the modulus have a common divisor. -/
theorem bigintModularInverseInto_spec (hFit : capacities.Fit base absModulo)
    (hb : Denotes base b) (hm : Denotes modulo m)
    (hk : Denotes absModulo m.natAbs) (hkOne : 1 < m.natAbs)
    (hDigits : modulo.nDigits = absModulo.nDigits) :
    ∃ power, bigintModularInverseInto capacities base modulo absModulo =
        some power ∧
      (Int.gcd b m = 1 → ∃ x, (0 ≤ x ∧ x < |m|) ∧ x * b ≡ 1 [ZMOD m] ∧
        HoldsResidue m power x) ∧
      (Int.gcd b m ≠ 1 → power = ⟨0, []⟩) := by
  have hResidue := hFit.residue
  have hPositive := hFit.residue_pos
  have hReduction := hFit.reduction
  have hProductFits := hFit.product
  have hDiffFits := hFit.diff
  have hkPos : (0 : Int) < m.natAbs := by omega
  have hne : m ≠ 0 := by omega
  have hSign : absModulo.signum > 0 := by
    rw [hk.signum, Int.sign_eq_one_of_pos hkPos]
    decide
  have hNotOne : bigintViewIsOne absModulo = false := by
    rw [Bool.eq_false_iff, Ne, bigintViewIsOne_iff hk]
    omega
  obtain ⟨r, hModRun, hr⟩ := bigintFloorModInto_spec hFit hb hk hkPos.ne'
    hFit.base hResidue
  rw [Int.fmod_eq_emod_of_nonneg _ hkPos.le] at hr
  have hReduced := Int.toNat_of_nonneg (Int.emod_nonneg b hkPos.ne')
  rw [← hReduced] at hr
  have hStart : HoldsEuclid ⟨absModulo, r, ⟨0, []⟩, oneView⟩
      (Euclid.start m.natAbs b) := ⟨hk, hr, denotes_zero, denotes_one⟩
  have hRounds : (Euclid.start m.natAbs b).r < r.magnitude + 1 := by
    rw [hr.magnitude]
    exact Nat.lt_succ_self _
  obtain ⟨last, t, hLoop, hOldR, hOldT, hRange, hInverse⟩ :=
    euclidLoop_spec hFit hk hkOne _ (invariant_start hkOne) hStart hRounds
  have hGcd : Int.gcd b (m.natAbs : Int) = Int.gcd b m := by
    rw [Int.gcd, Int.gcd, Int.natAbs_natCast]
  rw [hGcd] at hOldR hInverse
  rw [modEq_natAbs_iff] at hInverse
  have hOldTDigits : last.oldT.nDigits ≤ capacities.reduction := by
    have hMono := hOldT.nDigits_mono hk (by omega)
    omega
  obtain ⟨dest, hDestRun, hDest⟩ :=
    bigintFloorModInto_spec hFit hOldT hm hne hOldTDigits (by omega)
  have hRun : bigintModularInverseInto capacities base modulo absModulo =
      if bigintViewIsOne last.oldR = false then some ⟨0, []⟩
      else some dest := by
    unfold bigintModularInverseInto
    rw [check_bind hSign, check_bind hNotOne,
      bind_of_eq_some (copyBigintView_eq hk.normalized hResidue),
      bind_of_eq_some hModRun,
      bind_of_eq_some (copyBigintView_eq denotes_one.normalized hPositive),
      bind_of_eq_some hLoop, hDestRun]
  by_cases hCoprime : Int.gcd b m = 1
  · have hOne : bigintViewIsOne last.oldR = true :=
      (bigintViewIsOne_iff hOldR).mpr (by rw [hCoprime]; rfl)
    rw [hOne, if_neg (by decide)] at hRun
    refine ⟨dest, hRun, fun _ => ⟨t, ?_, ?_, hDest⟩, absurd hCoprime⟩
    · rw [Int.abs_eq_natAbs]
      exact hRange
    · rw [hCoprime] at hInverse
      exact hInverse.symm
  · have hOne : bigintViewIsOne last.oldR = false := by
      rw [Bool.eq_false_iff, Ne, bigintViewIsOne_iff hOldR]
      omega
    rw [if_pos hOne] at hRun
    exact ⟨⟨0, []⟩, hRun, fun h => absurd h hCoprime, fun _ => rfl⟩

/-- An inverse is no multiple of the modulus. -/
theorem fmod_ne_zero_of_inverse {x : Int} (hm : 1 < m.natAbs)
    (hInverse : x * b ≡ 1 [ZMOD m]) : x.fmod m ≠ 0 := by
  intro hZero
  have hDivides : m ∣ x * b := (Int.dvd_of_fmod_eq_zero hZero).mul_right b
  have hOne : m ∣ 1 :=
    (Int.modEq_zero_iff_dvd.mp
      (hInverse.symm.trans (Int.modEq_zero_iff_dvd.mpr hDivides)))
  have hUnit := Int.natAbs_dvd_natAbs.mpr hOne
  have hLe := Nat.le_of_dvd (by decide) hUnit
  simp at hLe
  omega

/-! ## The power -/

theorem bigintModularPowWith_of_nonneg (hFit : capacities.Fit base absModulo)
    (hb : Denotes base b) (hm : Denotes modulo m) (hne : m ≠ 0)
    (hDigits : modulo.nDigits = absModulo.nDigits) {e : Int}
    (he : Denotes exponent e) (hNonneg : 0 ≤ e) :
    YieldsOk (bigintModularPowWith capacities base exponent modulo absModulo)
      ((b ^ e.natAbs).fmod m) := by
  have hResidue := hFit.residue
  have hPositive := hFit.residue_pos
  have hSign : ¬ exponent.signum < 0 := by
    rw [he.signum]
    exact Int.not_lt.mpr (Int.sign_nonneg_iff.mpr hNonneg)
  have hOneDigits : oneView.nDigits ≤ capacities.reduction := by
    have hProduct := hFit.product
    have hDiff := hFit.diff
    have hAll := hFit.reduction
    change 1 ≤ _
    omega
  obtain ⟨result, hResultRun, hResult⟩ := bigintFloorModInto_spec hFit
    denotes_one hm hne hOneDigits (by omega)
  obtain ⟨power, hPowerRun, hPower⟩ :=
    bigintFloorModInto_spec hFit hb hm hne hFit.base (by omega)
  unfold bigintModularPowWith
  rw [bind_of_eq_some hResultRun, if_neg hSign, bind_of_eq_some hPowerRun]
  exact yieldsOk_of_yields
    (modularPowLoop_yields hFit hm hne hDigits he hResult hPower)

theorem bigintModularPowWith_of_neg (hFit : capacities.Fit base absModulo)
    (hb : Denotes base b) (hm : Denotes modulo m)
    (hk : Denotes absModulo m.natAbs) (hkOne : 1 < m.natAbs)
    (hDigits : modulo.nDigits = absModulo.nDigits) {e : Int}
    (he : Denotes exponent e) (hNeg : e < 0) :
    (Int.gcd b m = 1 → ∃ x, (0 ≤ x ∧ x < |m|) ∧ x * b ≡ 1 [ZMOD m] ∧
      YieldsOk
        (bigintModularPowWith capacities base exponent modulo absModulo)
        ((x ^ e.natAbs).fmod m)) ∧
    (Int.gcd b m ≠ 1 →
      bigintModularPowWith capacities base exponent modulo absModulo =
        some (.error notInvertibleError)) := by
  have hResidue := hFit.residue
  have hne : m ≠ 0 := by omega
  have hSign : exponent.signum < 0 := by
    rw [he.signum]
    exact Int.sign_neg_iff.mpr hNeg
  have hOneDigits : oneView.nDigits ≤ capacities.reduction := by
    have hPositive := hFit.residue_pos
    have hProduct := hFit.product
    have hDiff := hFit.diff
    have hAll := hFit.reduction
    change 1 ≤ _
    omega
  obtain ⟨result, hResultRun, hResult⟩ := bigintFloorModInto_spec hFit
    denotes_one hm hne hOneDigits (by omega)
  obtain ⟨power, hPowerRun, hCoprime, hNone⟩ :=
    bigintModularInverseInto_spec hFit hb hm hk hkOne hDigits
  unfold bigintModularPowWith
  rw [bind_of_eq_some hResultRun, if_pos hSign, bind_of_eq_some hPowerRun]
  refine ⟨fun hGcd => ?_, fun hGcd => ?_⟩
  · obtain ⟨x, hRange, hInverse, hPower⟩ := hCoprime hGcd
    have hNonzero : ¬ power.signum = 0 := by
      rw [hPower.signum_eq_zero_iff]
      exact fmod_ne_zero_of_inverse hkOne hInverse
    rw [if_neg hNonzero]
    exact ⟨x, hRange, hInverse, yieldsOk_of_yields
      (modularPowLoop_yields hFit hm hne hDigits he hResult hPower)⟩
  · rw [hNone hGcd]
    rfl

end ModularPower

/-- The power modulo every integer: an error for the modulus zero, zero for
the modulus one, the residue of the power for an exponent that is not
negative, and else the residue of the inverse's power, or an error where
there is no inverse.  No buffer is too small, and the Euclidean loop ends. -/
theorem bigint_modular_pow_exact {base exponent modulo : ConstBigIntView}
    (hb : Normalized base) (he : Normalized exponent)
    (hm : Normalized modulo) (hBaseSize : Addressable base)
    (hModuloSize : Addressable modulo) :
    (modulo.toInt = 0 → bigintModularPow base exponent modulo =
      some (.error powZeroModuloError)) ∧
    (modulo.toInt ≠ 0 → 0 ≤ exponent.toInt →
      YieldsOk (bigintModularPow base exponent modulo)
        ((base.toInt ^ exponent.toInt.natAbs).fmod modulo.toInt)) ∧
    (|modulo.toInt| = 1 →
      YieldsOk (bigintModularPow base exponent modulo) 0) ∧
    (1 < |modulo.toInt| → exponent.toInt < 0 →
      (Int.gcd base.toInt modulo.toInt = 1 →
        ∃ x, (0 ≤ x ∧ x < |modulo.toInt|) ∧
          x * base.toInt ≡ 1 [ZMOD modulo.toInt] ∧
          YieldsOk (bigintModularPow base exponent modulo)
            ((x ^ exponent.toInt.natAbs).fmod modulo.toInt)) ∧
      (Int.gcd base.toInt modulo.toInt ≠ 1 →
        bigintModularPow base exponent modulo =
          some (.error notInvertibleError))) := by
  have hBase := denotes_self hb
  have hExponent := denotes_self he
  have hModulo := denotes_self hm
  obtain ⟨absModulo, hAbsRun, hAbsDigits, hAbs⟩ := absBigintView_spec hModulo
  have hAbsSize : Addressable absModulo := by
    unfold Addressable at hModuloSize ⊢
    rwa [hAbsDigits]
  obtain ⟨capacities, hCapacities, hFit⟩ :=
    modularCapacities_spec hBaseSize hAbsSize
  have hOne : YieldsOk (do
      let value ← finalizeBigint ⟨0, []⟩
      some (.ok value)) 0 := yieldsOk_of_yields (finalizeBigint_yields denotes_zero)
  have hOneIff : bigintViewIsOne absModulo = true ↔ |modulo.toInt| = 1 := by
    rw [bigintViewIsOne_iff hAbs, Int.abs_eq_natAbs]
  generalize base.toInt = b at *
  generalize exponent.toInt = e at *
  generalize modulo.toInt = m at *
  have hRun : m ≠ 0 → bigintModularPow base exponent modulo =
      if bigintViewIsOne absModulo = true then (do
        let value ← finalizeBigint ⟨0, []⟩
        some (.ok value))
      else bigintModularPowWith capacities base exponent modulo absModulo := by
    intro hne
    unfold bigintModularPow
    rw [check_normalized hb, check_normalized he, check_normalized hm,
      if_neg (mt hModulo.signum_eq_zero_iff.mp hne),
      bind_of_eq_some hAbsRun, hCapacities]
  have hLarge : 1 < |m| → m ≠ 0 ∧ 1 < m.natAbs ∧
      ¬ bigintViewIsOne absModulo = true := by
    intro hAbove
    rw [hOneIff]
    rw [Int.abs_eq_natAbs] at hAbove ⊢
    omega
  refine ⟨fun hZero => ?_, fun hne hNonneg => ?_, fun hUnit => ?_,
    fun hAbove hNeg => ?_⟩
  · unfold bigintModularPow
    rw [check_normalized hb, check_normalized he, check_normalized hm,
      if_pos (hModulo.signum_eq_zero_iff.mpr hZero)]
  · rw [hRun hne]
    by_cases hUnit : |m| = 1
    · rw [if_pos (hOneIff.mpr hUnit)]
      have hResidue : (b ^ e.natAbs).fmod m = 0 := by
        have hSmall := natAbs_fmod_lt (b ^ e.natAbs) hne
        rw [Int.abs_eq_natAbs] at hUnit
        omega
      rw [hResidue]
      exact hOne
    · rw [if_neg (mt hOneIff.mp hUnit)]
      exact bigintModularPowWith_of_nonneg hFit hBase hModulo hne
        hAbsDigits.symm hExponent hNonneg
  · have hne : m ≠ 0 := by
      rintro rfl
      simp at hUnit
    rw [hRun hne, if_pos (hOneIff.mpr hUnit)]
    exact hOne
  · obtain ⟨hne, hkOne, hNotOne⟩ := hLarge hAbove
    rw [hRun hne, if_neg hNotOne]
    exact bigintModularPowWith_of_neg hFit hBase hModulo hAbs hkOne
      hAbsDigits.symm hExponent hNeg

/-- The inverse of three modulo minus seven, squared. -/
theorem bigint_modular_pow_exact_at_negative_modulo :
    ∃ x : Int, (0 ≤ x ∧ x < |(-7 : Int)|) ∧ x * 3 ≡ 1 [ZMOD -7] ∧
      YieldsOk (bigintModularPow ⟨1, [3]⟩ ⟨-1, [2]⟩ ⟨-1, [7]⟩)
        ((x ^ 2).fmod (-7)) := by
  have hb : Normalized ⟨1, [3]⟩ :=
    (isNormalizedBigintView_iff _).mp (by decide)
  have he : Normalized ⟨-1, [2]⟩ :=
    (isNormalizedBigintView_iff _).mp (by decide)
  have hm : Normalized ⟨-1, [7]⟩ :=
    (isNormalizedBigintView_iff _).mp (by decide)
  obtain ⟨-, -, -, hNegative⟩ :=
    bigint_modular_pow_exact hb he hm (by decide) (by decide)
  exact (hNegative (by decide) (by decide)).1 (by decide)

end CloverVM.BuiltinTypes.BigInt
